import TraitSystem.Registry

/-!
# Sessions

A `Session` is everything that operations read and change: the identities, which all registries
share, what is said about custom traits, and the registries.

The operations of this module run no method bodies.  Each is an action on the session that answers
with its result; an operation that fails says so in its answer, and the session goes on from what
it left.
-/

namespace TraitSystem

/-- The state of a session. -/
structure Session where
  /-- The tokens of all types. -/
  identities : Identities := .empty
  /-- What the traits declare at present. -/
  signatures : Signatures := {}
  /-- The registries, all of which exist from the start. -/
  registry : RegistryId → Registry := fun _ => {}
  /-- The number under which the next method or trait is built. -/
  nextSerial : Nat := 0
  deriving Inhabited

namespace Session

/-- A session in which nothing has happened, with numbered registries of the given options.  All
other registries have default options. -/
def start (options : List Options) : Session where
  registry
    | .shared => {}
    | .numbered index => { options := options[index]?.getD {} }

/-! ## Registries -/

/-- Replaces a registry. -/
def setRegistry (session : Session) (id : RegistryId) (registry : Registry) : Session :=
  let before := session.registry
  { session with registry := fun other => if other = id then registry else before other }

@[simp] theorem registry_setRegistry_self (session : Session) (id : RegistryId)
    (registry : Registry) : (session.setRegistry id registry).registry id = registry :=
  if_pos rfl

theorem registry_setRegistry_of_ne (session : Session) {id other : RegistryId}
    (registry : Registry) (hne : other ≠ id) :
    (session.setRegistry id registry).registry other = session.registry other :=
  if_neg hne

/-- Setting a registry to what it is changes nothing. -/
theorem setRegistry_eq_self (session : Session) (id : RegistryId) :
    session.setRegistry id (session.registry id) = session := by
  have hsame : (fun other => if other = id then session.registry id else session.registry other) =
      session.registry := by
    funext other
    split
    · rename_i heq
      rw [heq]
    · rfl
  show { session with registry := _ } = session
  rw [hsame]

/-! ## Identities -/

/-- Asks for the identity of a type by name. -/
def identify (type : Ty) : StateM Session Token := fun session =>
  let (token, identities) := session.identities.ofType type
  (token, { session with identities })

/-- Asks for the identity of the type of a value. -/
def identifyValue (value : Value) : StateM Session Token := fun session =>
  let (token, identities) := session.identities.ofValue value
  (token, { session with identities })

/-- Asks for the identity of the type of a value that may be absent. -/
def identifyValue? : Option Value → StateM Session (Except TargetError Token)
  | none => pure (.error .absentValue)
  | some value => .ok <$> identifyValue value

/-- Asks for the identity of a type, by name, applied to arguments. -/
def identifyGeneric (type : Ty) (args : List TypeArg) :
    StateM Session (Except TargetError Token) := fun session =>
  let (result, identities) := session.identities.ofGeneric type args
  (result, { session with identities })

/-- Asks for the identity of what a token stands for, applied to arguments. -/
def instantiate (base : Token) (args : TypeArgs) : StateM Session Token := fun session =>
  let (token, identities) := session.identities.instantiate base args
  (token, { session with identities })

/-! ## Methods -/

/-- Builds a method. -/
def newMethod (body : Body) : StateM Session Method := fun session =>
  (⟨session.nextSerial, body⟩, { session with nextSerial := session.nextSerial + 1 })

/-- Builds overrides from bodies, of which the last one for a method counts. -/
def newOverrides (bodies : List (String × Body)) : StateM Session Overrides := fun session =>
  (Table.ofList <| (bodies.zipIdx session.nextSerial).map fun ((name, body), serial) =>
      (name, ⟨serial, body⟩),
    { session with nextSerial := session.nextSerial + bodies.length })

/-! ## Traits -/

/-- Replaces what a custom trait declares.  Traits that are defined already stay as they are. -/
def declare (key : TraitKey) (signature : Signature) : StateM Session Unit := fun session =>
  ((), { session with signatures := session.signatures.declare key signature })

/-- Asks for a trait in a hierarchy of one's own and answers with the hierarchy it leaves. -/
def defineIn (hierarchy : Hierarchy) (key : TraitKey) (policy : CyclePolicy) :
    StateM Session (Except DefineError Trait × Hierarchy) := fun session =>
  let definition :=
    hierarchy.define session.signatures policy key session.identities session.nextSerial
  ((definition.result, definition.hierarchy),
    { session with
      identities := definition.identities
      nextSerial := definition.nextSerial })

/-- Asks for a trait in a registry under a policy of one's own. -/
def defineUnder (id : RegistryId) (key : TraitKey) (policy : CyclePolicy) :
    StateM Session (Except DefineError Trait) := do
  let registry := (← get).registry id
  let (result, hierarchy) ← defineIn registry.hierarchy key policy
  modify fun session => session.setRegistry id { registry with hierarchy }
  return result

/-- Asks for a trait in a registry. -/
def define (id : RegistryId) (key : TraitKey) : StateM Session (Except DefineError Trait) := do
  defineUnder id key ((← get).registry id).options.cycles

/-! ## Members -/

/-- Implements a trait for an identity under a name and completeness of one's own. -/
def implementAs (id : RegistryId) (identity : Token) (targetName : String) (trait : Trait)
    (overrides : Overrides) (completeness : Completeness) :
    StateM Session (Except ImplementError Unit) := fun session =>
  let registry := session.registry id
  let (answer, members) :=
    registry.members.tryImplement identity targetName trait overrides completeness
  (answer, session.setRegistry id { registry with members })

/-- Implements a trait for an identity. -/
def implement (id : RegistryId) (identity : Token) (trait : Trait) (overrides : Overrides) :
    StateM Session (Except ImplementError Unit) := do
  let session ← get
  implementAs id identity (session.identities.describe identity) trait overrides
    (session.registry id).options.completeness

/-- Defines a native member of an identity. -/
def defineNative (id : RegistryId) (identity : Token) (name : String) (method : Method) :
    StateM Session Unit := fun session =>
  let registry := session.registry id
  ((), session.setRegistry id
    { registry with members := registry.members.defineNative identity name method })

end Session

end TraitSystem
