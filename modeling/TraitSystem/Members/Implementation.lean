import TraitSystem.Hierarchy.Trait

/-!
# Implementations

An `Implementation` of a trait gives its methods their bodies for one target.  It starts from the
default bodies of the trait, and the overrides of whoever registers it replace them or fill the
gaps.  `Implementation.ofOverrides` refuses an override of a method that the trait does not declare
and, where `Completeness` asks for it, a method that is left without a body.

It is complete when it has as many bodies as the trait has methods; since it has bodies for declared
methods only, this is when no method is left without one.
-/

namespace TraitSystem

/-- When the methods of an implementation must have their bodies. -/
inductive Completeness where
  /-- All of them when the implementation is registered. -/
  | atRegistration
  /-- Each one when it is called. -/
  | atFirstCall
  deriving DecidableEq, Repr

/-- Why an implementation is not registered. -/
inductive ImplementError where
  /-- The target implements the trait already. -/
  | duplicate (target trait : String)
  /-- The target does not implement an ancestor of the trait. -/
  | missingParent (target trait ancestor : String)
  /-- An override is for a method that the trait does not declare. -/
  | unknownMethod (method trait : String)
  /-- A method is left without a body. -/
  | missingMethod (method trait target : String)
  deriving DecidableEq, Repr

namespace ImplementError

/-- The text of the error. -/
def message : ImplementError → String
  | duplicate target trait => target ++ " already implements " ++ trait
  | missingParent target trait ancestor =>
    target ++ " must implement " ++ ancestor ++ " before it can implement " ++ trait
  | unknownMethod method trait =>
    "trait " ++ trait ++ " does not declare a method `" ++ method ++ "`"
  | missingMethod method trait target =>
    "implementation of " ++ trait ++ " for " ++ target ++ " is missing method `" ++ method ++ "`"

end ImplementError

/-- Bodies by method name. -/
abbrev Overrides := Table String Method

/-- The bodies of a trait's methods for one target. -/
structure Implementation where
  /-- The trait that is implemented. -/
  trait : Trait
  /-- The body of each method that has one. -/
  bodies : Table String Method

namespace Implementation

/-- The body of a method. -/
def body? (implementation : Implementation) (method : String) : Option Method :=
  implementation.bodies.find? method

/-- The methods with a body, in the order in which the trait declares them. -/
def names (implementation : Implementation) : List String :=
  implementation.trait.methods.keys.filter implementation.bodies.contains

/-- The number of bodies. -/
def size (implementation : Implementation) : Nat := implementation.bodies.size

/-- Whether there are as many bodies as declared methods. -/
def isComplete (implementation : Implementation) : Bool :=
  implementation.size == implementation.trait.methods.size

/-- Puts overrides over the bodies, as far as the trait declares their methods. -/
def override (implementation : Implementation) :
    List (String × Method) → Except ImplementError Implementation
  | [] => .ok implementation
  | (name, method) :: rest =>
    if implementation.trait.declares name then
      override { implementation with bodies := implementation.bodies.insert name method } rest
    else .error (.unknownMethod name implementation.trait.name)

/-- The implementation by the default bodies alone. -/
def ofDefaults (trait : Trait) : Implementation := ⟨trait, Table.ofList trait.defaults⟩

/-- The first declared method without a body. -/
def missing? (implementation : Implementation) : Option String :=
  implementation.trait.methods.keys.find? fun method => !implementation.bodies.contains method

/-- The implementation by default bodies and overrides, if it is admissible. -/
def ofOverrides (targetName : String) (trait : Trait) (overrides : Overrides)
    (completeness : Completeness) : Except ImplementError Implementation :=
  match (ofDefaults trait).override overrides.entries with
  | .error error => .error error
  | .ok implementation =>
    match completeness, implementation.missing? with
    | .atRegistration, some method => .error (.missingMethod method trait.name targetName)
    | _, _ => .ok implementation

end Implementation

end TraitSystem
