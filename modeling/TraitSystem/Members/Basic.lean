import TraitSystem.Members.Target

/-!
# Members of all targets

`Members` holds the target of every identity for which something was registered.  An identity for
which nothing was registered is treated as the empty target.

Whether a trait can be implemented is asked twice, before its bodies are put together and when the
target is about to be written.  The first question keeps what is refused from leaving anything
behind, and between the two nothing happens that could give the second one another answer.

Beside the targets stands the history of all registrations that were accepted.  It answers no
question; it is there so that one can say what the targets have to do with it.
-/

namespace TraitSystem

/-- Something that was registered for an identity. -/
inductive Registration where
  /-- An implementation of a trait. -/
  | implementation (identity : Token) (trait : Trait) (overrides : Overrides)
      (completeness : Completeness)
  /-- A native member. -/
  | native (identity : Token) (name : String) (method : Method)

/-- What is registered, by identity. -/
structure Members where
  /-- The targets for which anything is registered. -/
  targets : Table Token Target := ∅
  /-- All registrations that were accepted, in order. -/
  history : List Registration := []
  deriving Inhabited

namespace Members

/-- The registrations before any was made. -/
def empty : Members := {}

/-- What is registered for an identity. -/
def target (members : Members) (identity : Token) : Target :=
  (members.targets.find? identity).getD .empty

/-- The implementation of a trait for an identity. -/
def implementation? (members : Members) (identity trait : Token) : Option Implementation :=
  (members.target identity).implementations.find? trait

/-- Whether a trait is implemented for an identity. -/
def contains (members : Members) (identity trait : Token) : Bool :=
  (members.implementation? identity trait).isSome

/-- What a name stands for on an identity. -/
def member? (members : Members) (identity : Token) (name : String) : Option Member :=
  (members.target identity).member? name

/-- The traits implemented for an identity, in the order of registration. -/
def traitsOf (members : Members) (identity : Token) : List Trait :=
  (members.target identity).traits

/-- The number of implementations of all targets. -/
def size (members : Members) : Nat :=
  members.targets.values.foldl (fun total target => total + target.implementations.size) 0

/-- The number of targets for which anything is registered. -/
def targetCount (members : Members) : Nat := members.targets.size

/-- Tracks the target of an identity, even if nothing is registered for it. -/
def track (members : Members) (identity : Token) : Members :=
  { members with targets := members.targets.insert identity (members.target identity) }

/-- Puts a target in its place and notes the registration that it comes from. -/
def enter (members : Members) (identity : Token) (target : Target) (registration : Registration) :
    Members where
  targets := members.targets.insert identity target
  history := members.history ++ [registration]

/-- Registers an implementation for an identity, if it is admissible.  The name is the one by which
errors call the target. -/
def tryImplement (members : Members) (identity : Token) (targetName : String) (trait : Trait)
    (overrides : Overrides) (completeness : Completeness) : Except ImplementError Unit × Members :=
  match (members.target identity).refusal? targetName trait with
  | some error => (.error error, members)
  | none =>
    match Implementation.ofOverrides targetName trait overrides completeness with
    | .error error => (.error error, members)
    | .ok implementation =>
      let tracked := members.track identity
      let target := tracked.target identity
      match target.refusal? targetName trait with
      | some error => (.error error, tracked)
      | none =>
        (.ok (), tracked.enter identity (target.register implementation)
          (.implementation identity trait overrides completeness))

/-- The members with an implementation registered, if it is admissible. -/
def implement (members : Members) (identity : Token) (targetName : String) (trait : Trait)
    (overrides : Overrides) (completeness : Completeness) : Except ImplementError Members :=
  let (answer, after) := members.tryImplement identity targetName trait overrides completeness
  answer.map fun _ => after

/-- Defines a native member of an identity. -/
def defineNative (members : Members) (identity : Token) (name : String) (method : Method) :
    Members :=
  let tracked := members.track identity
  tracked.enter identity ((tracked.target identity).defineNative name method)
    (.native identity name method)

end Members

end TraitSystem
