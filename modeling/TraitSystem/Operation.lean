import TraitSystem.Call.Standard

/-!
# Operations

An `Operation α` is one thing that the user of a session can ask for, with an answer in `α`.  The
type lists everything that can change a session; what remains are questions, which are functions of
the session.  A method body can do no more than operations do, so a session is only ever what a
sequence of operations made of it.
-/

namespace TraitSystem

/-- How deeply method bodies may call each other. -/
def callDepth : Nat := 10000

/-- One thing to ask of a session, with an answer of the given type. -/
inductive Operation : Type → Type where
  /-- The identity of a type, by name. -/
  | identify (type : Ty) : Operation Token
  /-- The identity of the type of a value that may be absent. -/
  | identifyValue (value? : Option Value) : Operation (Except TargetError Token)
  /-- The identity of a type applied to arguments. -/
  | identifyGeneric (type : Ty) (args : List TypeArg) : Operation (Except TargetError Token)
  /-- The identity of anything that has one, applied to arguments. -/
  | instantiate (base : Token) (args : TypeArgs) : Operation Token
  /-- A new method. -/
  | newMethod (body : Body) : Operation Method
  /-- New overrides. -/
  | newOverrides (bodies : List (String × Body)) : Operation Overrides
  /-- Replaces the signature of a trait. -/
  | declare (key : TraitKey) (signature : Signature) : Operation Unit
  /-- A trait in a registry. -/
  | define (id : RegistryId) (key : TraitKey) : Operation (Except DefineError Trait)
  /-- A trait in a registry, under another policy than the registry's. -/
  | defineUnder (id : RegistryId) (key : TraitKey) (policy : CyclePolicy) :
      Operation (Except DefineError Trait)
  /-- A trait in a hierarchy outside all registries. -/
  | defineIn (hierarchy : Hierarchy) (key : TraitKey) (policy : CyclePolicy) :
      Operation (Except DefineError Trait × Hierarchy)
  /-- An implementation of a trait. -/
  | implement (id : RegistryId) (identity : Token) (trait : Trait) (overrides : Overrides) :
      Operation (Except ImplementError Unit)
  /-- An implementation of a trait, under another name and completeness than the registry's. -/
  | implementAs (id : RegistryId) (identity : Token) (targetName : String) (trait : Trait)
      (overrides : Overrides) (completeness : Completeness) :
      Operation (Except ImplementError Unit)
  /-- A native member. -/
  | defineNative (id : RegistryId) (identity : Token) (name : String) (method : Method) :
      Operation Unit
  /-- The result of a member. -/
  | call (receiver : Receiver) (name : String) (args : Args) : Operation (Except Fault Value)
  /-- The result of a method of a trait. -/
  | callTrait (receiver : Receiver) (trait : Trait) (method : String) (args : Args) :
      Operation (Except Fault Value)
  /-- The result of a method of a view. -/
  | callView (view : View) (method : String) (args : Args) : Operation (Except Fault Value)
  /-- All standard traits. -/
  | standardTraits (id : RegistryId) : Operation (Except Fault (List Trait))
  /-- Whether two values are equal. -/
  | equal (id : RegistryId) (left right : Value) : Operation (Except Fault Bool)
  /-- Whether two values differ. -/
  | notEqual (id : RegistryId) (left right : Value) : Operation (Except Fault Bool)
  /-- How two values compare, if they do. -/
  | comparePartially (id : RegistryId) (left right : Value) :
      Operation (Except Fault (Option Ordering))
  /-- How two values compare. -/
  | compareTotally (id : RegistryId) (left right : Value) : Operation (Except Fault Ordering)
  /-- A value as text. -/
  | display (id : RegistryId) (value : Value) : Operation (Except Fault String)
  /-- The hash of a value. -/
  | hash (id : RegistryId) (value : Value) : Operation (Except Fault UInt64)
  /-- A copy of a value. -/
  | copy (id : RegistryId) (value : Value) : Operation (Except Fault Value)

namespace Operation

/-- Carries out an operation. -/
def run {α : Type} : Operation α → StateM Session α
  | identify type => Session.identify type
  | identifyValue value? => Session.identifyValue? value?
  | identifyGeneric type args => Session.identifyGeneric type args
  | instantiate base args => Session.instantiate base args
  | newMethod body => Session.newMethod body
  | newOverrides bodies => Session.newOverrides bodies
  | declare key signature => Session.declare key signature
  | define id key => Session.define id key
  | defineUnder id key policy => Session.defineUnder id key policy
  | defineIn hierarchy key policy => Session.defineIn hierarchy key policy
  | implement id identity trait overrides => Session.implement id identity trait overrides
  | implementAs id identity targetName trait overrides completeness =>
    Session.implementAs id identity targetName trait overrides completeness
  | defineNative id identity name method => Session.defineNative id identity name method
  | call receiver name args => (receiver.call (invoke callDepth) name args).run
  | callTrait receiver trait method args =>
    (receiver.callTrait (invoke callDepth) trait method args).run
  | callView view method args => (view.call (invoke callDepth) method args).run
  | standardTraits id => (TraitSystem.standardTraits id).run
  | equal id left right => (TraitSystem.equal (invoke callDepth) id left right).run
  | notEqual id left right => (TraitSystem.notEqual (invoke callDepth) id left right).run
  | comparePartially id left right =>
    (TraitSystem.comparePartially (invoke callDepth) id left right).run
  | compareTotally id left right =>
    (TraitSystem.compareTotally (invoke callDepth) id left right).run
  | display id value => (TraitSystem.display (invoke callDepth) id value).run
  | hash id value => (hashValue (invoke callDepth) id value).run
  | copy id value => (TraitSystem.copy (invoke callDepth) id value).run

end Operation

end TraitSystem
