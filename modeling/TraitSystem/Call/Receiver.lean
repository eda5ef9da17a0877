import TraitSystem.Call.Fault
import TraitSystem.Session

/-!
# Receivers, views and the methods they lead to

A `Receiver` is a value on which methods are called, with the identity under which it dispatches and
the registry in which they are looked up.  The identity is that of the value's type unless the
receiver was made with another one.

Finding the body of a method runs nothing and changes nothing, so it is a function of the session:
`Receiver.member` for calls by name, `Receiver.method` for calls of a method of a known trait, and
`View.method` for calls through a view.  A view keeps the implementation it was taken of.  Since
implementations are never replaced, looking the trait up again leads to the same body.
-/

namespace TraitSystem

/-- A value on which methods are called. -/
structure Receiver where
  /-- The value. -/
  value : Value
  /-- The identity under which it dispatches. -/
  identity : Token
  /-- The registry in which its methods are looked up. -/
  registry : RegistryId

namespace Receiver

/-- The data of a receiver at an expected type. -/
def data (receiver : Receiver) (expected : Ty) : Except CallError expected.Carrier :=
  match receiver.value.downcast? expected with
  | some data => .ok data
  | none => .error (.receiverType expected.name)

/-- The error for a method of a trait for which the receiver has no body. -/
def notImplemented (receiver : Receiver) (session : Session) (trait : Trait) (method : String) :
    CallError :=
  .notImplemented method trait.name (session.identities.describe receiver.identity)

/-- The implementation of a trait that the receiver dispatches to. -/
def implementation? (receiver : Receiver) (session : Session) (trait : Trait) :
    Option Implementation :=
  (session.registry receiver.registry).members.implementation? receiver.identity trait.identity

/-- The body of a method of a trait, whatever else the receiver calls by that name. -/
def method (receiver : Receiver) (session : Session) (trait : Trait) (method : String) :
    Except CallError Method :=
  if trait.declares method then
    match (receiver.implementation? session trait).bind fun found => found.body? method with
    | some body => .ok body
    | none => .error (receiver.notImplemented session trait method)
  else .error (.unknownMethod method trait.name)

/-- The body of a member.  Where the receiver has none, a trait that declares the method is blamed
if there is one. -/
def member (receiver : Receiver) (session : Session) (name : String) : Except CallError Method :=
  let registry := session.registry receiver.registry
  match registry.members.member? receiver.identity name with
  | some (.native body) => .ok body
  | some (.forward trait) => receiver.method session trait name
  | none =>
    match registry.hierarchy.declaring? name with
    | some trait => .error (receiver.notImplemented session trait name)
    | none => .error (.missingMember name (session.identities.describe receiver.identity))

end Receiver

/-! ## Views -/

/-- A receiver together with its implementation of one trait. -/
structure View where
  /-- The receiver of every call through the view. -/
  receiver : Receiver
  /-- The implementation to which the calls go. -/
  implementation : Implementation

namespace View

/-- The body of a method of the view's trait. -/
def method (view : View) (session : Session) (method : String) : Except CallError Method :=
  if view.implementation.trait.declares method then
    match view.implementation.body? method with
    | some body => .ok body
    | none =>
      .error (view.receiver.notImplemented session view.implementation.trait method)
  else .error (.unknownMethod method view.implementation.trait.name)

end View

/-- The view of the receiver's implementation of a trait, if it implements it. -/
def Receiver.view? (receiver : Receiver) (session : Session) (trait : Trait) : Option View :=
  (receiver.implementation? session trait).map fun implementation => ⟨receiver, implementation⟩

end TraitSystem
