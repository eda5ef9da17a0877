import TraitSystem.Hierarchy.Walk

/-!
# Hierarchies

A `Hierarchy` holds the traits that have been defined in one registry, by identity.  Defining a
trait defines its ancestors too, so the ancestors of a trait in the hierarchy are in it as well.  A
definition is made once: asking for a defined trait again gives the same trait, whatever its
signature says by then.

A definition that fails leaves the hierarchy as it was.  It may leave new tokens behind, because the
walk asks for the identity of every trait it meets.
-/

namespace TraitSystem

/-- The traits defined in a registry. -/
structure Hierarchy where
  /-- The defined traits by identity. -/
  traits : Table Token Trait := ∅
  deriving Inhabited

/-- What asking for a trait results in. -/
structure Definition where
  /-- The trait, or why it cannot be defined. -/
  result : Except DefineError Trait
  /-- The hierarchy afterwards. -/
  hierarchy : Hierarchy
  /-- The tokens afterwards. -/
  identities : Identities
  /-- The next serial number afterwards. -/
  nextSerial : Nat

namespace Hierarchy

/-- The hierarchy without traits. -/
def empty : Hierarchy := {}

/-- The number of defined traits. -/
def size (hierarchy : Hierarchy) : Nat := hierarchy.traits.size

/-- The defined trait with the given identity. -/
def find? (hierarchy : Hierarchy) (identity : Token) : Option Trait :=
  hierarchy.traits.find? identity

/-- Whether the trait with the given identity is defined. -/
def contains (hierarchy : Hierarchy) (identity : Token) : Bool :=
  hierarchy.traits.contains identity

/-- The earlier of two traits in the order of identities. -/
def earlier (first second : Trait) : Trait :=
  if second.identity.raw < first.identity.raw then second else first

/-- The defined trait with the smallest identity among those that declare a method. -/
def declaring? (hierarchy : Hierarchy) (method : String) : Option Trait :=
  match hierarchy.traits.values.filter fun trait => trait.declares method with
  | [] => none
  | first :: rest => some (rest.foldl earlier first)

/-- The trait of a key, defined with all of its ancestors unless it is already. -/
def define (hierarchy : Hierarchy) (signatures : Signatures) (policy : CyclePolicy)
    (key : TraitKey) (identities : Identities) (nextSerial : Nat) : Definition :=
  let (token, identities) := identities.ofType (.trait key)
  match hierarchy.find? token with
  | some trait => { result := .ok trait, hierarchy, identities, nextSerial }
  | none =>
    let setting : Setting := { signatures, policy, known := hierarchy.traits }
    match Walk.resolve setting [] key List.not_mem_nil { identities, nextSerial } with
    | (.error error, walk) =>
      { result := .error error, hierarchy, identities := walk.identities,
        nextSerial := walk.nextSerial }
    | (.ok trait, walk) =>
      { result := .ok trait,
        hierarchy := ⟨hierarchy.traits.insertAll walk.built.entries⟩,
        identities := walk.identities, nextSerial := walk.nextSerial }

end Hierarchy

end TraitSystem
