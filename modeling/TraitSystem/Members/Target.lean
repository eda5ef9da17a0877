import TraitSystem.Members.Implementation

/-!
# Targets

A `Target` is all that is registered for one identity: its implementations, the members it defines
natively, and the members it forwards to implementations.  The order in which the implementations
were registered is kept beside them.

Registering an implementation installs a forward for every method of the trait, unless the target
has a member of that name: among traits that share a method name, the one implemented first keeps
it.  A native member hides the forward of its name, and a later native replaces an earlier one.
-/

namespace TraitSystem

/-- What a name stands for on a target. -/
inductive Member where
  /-- A method that the target defines itself. -/
  | native (method : Method)
  /-- The method of that name in the target's implementation of a trait. -/
  | forward (trait : Trait)

/-- What is registered for an identity. -/
structure Target where
  /-- The implementations by the identity of their trait. -/
  implementations : Table Token Implementation := ∅
  /-- The identities of the implemented traits, in the order of registration. -/
  order : List Token := []
  /-- The native members. -/
  natives : Table String Method := ∅
  /-- The traits to which the other members are forwarded. -/
  forwards : Table String Trait := ∅
  /-- What is implemented has a place in the order, and nothing else has. -/
  mem_order_iff : ∀ token, token ∈ order ↔ implementations.contains token

namespace Target

/-- The target for which nothing is registered. -/
def empty : Target where
  implementations := ∅
  order := []
  mem_order_iff _ := iff_of_false List.not_mem_nil Bool.false_ne_true

/-- What a name stands for. -/
def member? (target : Target) (name : String) : Option Member :=
  match target.natives.find? name with
  | some method => some (.native method)
  | none => (target.forwards.find? name).map .forward

/-- Whether a name stands for anything. -/
def hasMember (target : Target) (name : String) : Bool :=
  target.natives.contains name || target.forwards.contains name

/-- Whether a trait is implemented. -/
def doesImplement (target : Target) (trait : Trait) : Bool :=
  target.implementations.contains trait.identity

/-- The implemented traits in the order of registration. -/
def traits (target : Target) : List Trait :=
  (target.order.filterMap target.implementations.find?).map Implementation.trait

/-- Why a trait cannot be implemented in the present state, whatever the bodies: it is implemented
already, or one of its ancestors is not. -/
def refusal? (target : Target) (targetName : String) (trait : Trait) : Option ImplementError :=
  if target.doesImplement trait then some (.duplicate targetName trait.name)
  else
    (trait.ancestors.find? fun ancestor => !target.doesImplement ancestor).map fun ancestor =>
      .missingParent targetName trait.name ancestor.name

/-- Forwards a name to a trait, unless it stands for something. -/
def forward (target : Target) (trait : Trait) (name : String) : Target :=
  if target.hasMember name then target
  else { target with forwards := target.forwards.insert name trait }

/-- Adds an implementation, which comes last. -/
def add (target : Target) (implementation : Implementation) : Target :=
  let token := implementation.trait.identity
  { target with
    implementations := target.implementations.insert token implementation
    order := target.order ++ [token]
    mem_order_iff := fun other => by
      rw [List.mem_append, List.mem_singleton, target.mem_order_iff, Table.contains_insert,
        Bool.or_eq_true, decide_eq_true_iff, or_comm, eq_comm (a := other)] }

/-- Adds an implementation and forwards the names of its trait. -/
def register (target : Target) (implementation : Implementation) : Target :=
  let trait := implementation.trait
  trait.methods.keys.foldl (fun target name => target.forward trait name)
    (target.add implementation)

/-- Defines a native member. -/
def defineNative (target : Target) (name : String) (method : Method) : Target :=
  { target with natives := target.natives.insert name method }

end Target

end TraitSystem
