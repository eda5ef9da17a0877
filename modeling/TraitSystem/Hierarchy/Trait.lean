import TraitSystem.Identity
import TraitSystem.Method

/-!
# Traits

A `Trait` is what a registry knows of a trait once it has been defined: its identity, the methods it
declares with their default bodies, and the traits it extends.  The list of ancestors holds all of
them, each one after its own ancestors.
-/

namespace TraitSystem

/-- The methods a trait declares, in order of declaration, each with its default body if it has
one. -/
abbrev Declarations := Table String (Option Method)

/-- A trait as it was defined. -/
structure Trait where
  /-- The token of the type that declares the trait. -/
  identity : Token
  /-- The name under which the trait is shown. -/
  name : String
  /-- The declared methods. -/
  methods : Declarations
  /-- The identities of the traits that this one extends directly. -/
  parents : List Token
  /-- All traits that this one extends, each one after its own ancestors. -/
  ancestors : List Trait
  /-- No two traits are built under the same number. -/
  serial : Nat

namespace Trait

/-- Whether two traits are one and the same, and not only defined alike. -/
def same (a b : Trait) : Bool := a.serial == b.serial

/-- Whether the trait itself declares a method. -/
def declares (trait : Trait) (method : String) : Bool := trait.methods.contains method

/-- Whether the trait leaves the body of a method to its implementations; of methods that it does
not declare there is no answer. -/
def requires? (trait : Trait) (method : String) : Option Bool :=
  (trait.methods.find? method).map Option.isNone

/-- The default body of a method. -/
def default? (trait : Trait) (method : String) : Option Method :=
  (trait.methods.find? method).join

/-- The default bodies of the declared methods. -/
def defaults (trait : Trait) : List (String × Method) :=
  trait.methods.entries.filterMap fun entry => entry.2.map (entry.1, ·)

/-- Whether the trait extends another one, directly or not. -/
def hasAncestor (trait other : Trait) : Bool :=
  trait.ancestors.any fun ancestor => ancestor.identity == other.identity

/-- The trait of the hierarchy that declares a method: the trait itself, or else the last of its
ancestors to do so. -/
def declaring? (trait : Trait) (method : String) : Option Trait :=
  if trait.declares method then some trait
  else trait.ancestors.reverse.find? fun ancestor => ancestor.declares method

end Trait

end TraitSystem
