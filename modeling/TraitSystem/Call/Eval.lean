import TraitSystem.Call.Receiver

/-!
# Running method bodies

A body runs in a `Frame`, the receiver and the arguments of its call, as an action on the session
(`CallM`).  What a body has done to the session stays done when it fails.

The evaluator is structural on the expression.  Bodies that it calls are not part of the expression,
so it takes the function that runs them as a parameter (`Invoke`), and `invoke` closes the circle:
it runs a method with calls nested at most so deep as a given number allows.  A deeper call is the
fault `Fault.tooDeep`, which no body can catch.
-/

namespace TraitSystem

/-- A computation that may call methods: it changes the session, and may end with a fault. -/
abbrev CallM := ExceptT Fault (StateM Session)

/-- A way to run a method on a receiver with arguments. -/
abbrev Invoke := Method → Receiver → Args → CallM Value

namespace CallM

/-- Ends with an error. -/
def raise {α : Type} (error : CallError) : CallM α := throw (.raised error)

/-- Answers with a result or ends with its error. -/
def ofExcept {α : Type} : Except CallError α → CallM α
  | .ok a => pure a
  | .error error => raise error

/-- Runs a computation and goes on after its errors, but not after other faults. -/
def attempt {α : Type} (action : CallM α) : CallM (Except CallError α) := fun session =>
  match action session with
  | (.ok a, after) => (.ok (.ok a), after)
  | (.error (.raised error), after) => (.ok (.error error), after)
  | (.error fault, after) => (.error fault, after)

end CallM

/-- What a body runs in. -/
structure Frame where
  receiver : Receiver
  args : Args

/-! ## Calls -/

section Calls

variable (invoke : Invoke)

/-- Calls a member of a receiver. -/
def Receiver.call (receiver : Receiver) (name : String) (args : Args) : CallM Value := do
  let body ← CallM.ofExcept (receiver.member (← get) name)
  invoke body receiver args

/-- Calls a method of a trait on a receiver. -/
def Receiver.callTrait (receiver : Receiver) (trait : Trait) (method : String) (args : Args) :
    CallM Value := do
  let body ← CallM.ofExcept (receiver.method (← get) trait method)
  invoke body receiver args

/-- Calls a method through a view. -/
def View.call (view : View) (method : String) (args : Args) : CallM Value := do
  let body ← CallM.ofExcept (view.method (← get) method)
  invoke body view.receiver args

end Calls

/-! ## Receivers and traits by need -/

/-- The receiver of a value, under the identity of its type. -/
def Receiver.ofValue (registry : RegistryId) (value : Value) : StateM Session Receiver := do
  return ⟨value, ← Session.identifyValue value, registry⟩

/-- A trait that a body asks for; if it cannot be defined, the body fails with the text of the
error. -/
def requestTrait (registry : RegistryId) (key : TraitKey) : CallM Trait := do
  match ← Session.define registry key with
  | .ok trait => return trait
  | .error error => CallM.raise (.failure error.message)

/-- A standard trait, of which it is certain that it can be defined. -/
def standardTrait (registry : RegistryId) (trait : Standard) : CallM Trait := do
  match ← Session.define registry (.standard trait) with
  | .ok trait => return trait
  | .error error => throw (.panic error.message)

/-! ## Derived comparisons -/

/-- Runs the default body of a derived comparison.  Values that do not compare are in no
relation. -/
def Derived.run (invoke : Invoke) (frame : Frame) : Derived → CallM Value
  | notEqual => do
    let trait ← standardTrait frame.receiver.registry .partialEq
    let answer ← frame.receiver.callTrait invoke trait "eq" frame.args
    let equal ← CallM.ofExcept (answer.result .bool)
    return ⟨.bool, !equal⟩
  | related relation => do
    let trait ← standardTrait frame.receiver.registry .partialOrd
    let answer ← frame.receiver.callTrait invoke trait "partial_cmp" frame.args
    let ordering ← CallM.ofExcept (answer.result (.option .ordering))
    return ⟨.bool, ordering.any relation.holds⟩

/-! ## Expressions -/

/-- Answers a comparison of two values of one type. -/
def Comparison.answer (type : Ty) (left right : type.Carrier) :
    Comparison → Except CallError Value
  | equality => .ok ⟨.bool, type.partialCompare left right == some .eq⟩
  | partialOrder => .ok ⟨.option .ordering, type.partialCompare left right⟩
  | totalOrder =>
    match type.partialCompare left right with
    | some ordering => .ok ⟨.ordering, ordering⟩
    | none => .error (.failure "incomparable")

mutual

/-- Computes the value of an expression. -/
def Expr.eval (invoke : Invoke) (frame : Frame) : Expr → CallM Value
  | .value value => pure value
  | .fail message => CallM.raise (.failure message)
  | .argument index type => do
    return ⟨type, ← CallM.ofExcept (frame.args.get index type)⟩
  | .hasArgument index => pure ⟨.bool, frame.args[index]?.isSome⟩
  | .argumentCount => pure ⟨.uint64, .ofNat frame.args.length⟩
  | .receiver type => do
    return ⟨type, ← CallM.ofExcept (frame.receiver.data type)⟩
  | .identity => pure ⟨.uint64, .ofNat frame.receiver.identity.raw⟩
  | .description => do
    return ⟨.string, (← get).identities.describe frame.receiver.identity⟩
  | .call method args => do
    let args ← args.eval invoke frame
    frame.receiver.call invoke method args
  | .callTrait key method args => do
    let trait ← requestTrait frame.receiver.registry key
    let args ← args.eval invoke frame
    frame.receiver.callTrait invoke trait method args
  | .callView key method args => do
    let trait ← requestTrait frame.receiver.registry key
    match frame.receiver.view? (← get) trait with
    | none => CallM.raise (.failure "absent")
    | some view =>
      let args ← args.eval invoke frame
      view.call invoke method args
  | .callOn value method args => do
    let args ← args.eval invoke frame
    let receiver ← Receiver.ofValue frame.receiver.registry value
    receiver.call invoke method args
  | .implements key => do
    let trait ← requestTrait frame.receiver.registry key
    return ⟨.bool, (frame.receiver.implementation? (← get) trait).isSome⟩
  | .define key => do
    let _ ← requestTrait frame.receiver.registry key
    return .unit
  | .implement key target overrides => do
    let registry := frame.receiver.registry
    let trait ← requestTrait registry key
    let overrides ← Session.newOverrides overrides
    let identity ← Session.identify target
    match ← Session.implement registry identity trait overrides with
    | .ok () => return .unit
    | .error error => CallM.raise (.failure error.message)
  | .defineNative target name body => do
    let method ← Session.newMethod body
    let identity ← Session.identify target
    Session.defineNative frame.receiver.registry identity name method
    return .unit
  | .convert type operand => do
    let value ← operand.eval invoke frame
    return ⟨type, ← CallM.ofExcept (value.result type)⟩
  | .concat operands => do
    let values ← evalAll invoke frame operands
    return ⟨.string, String.join (values.map Value.text)⟩
  | .subtract left right => do
    let left ← left.eval invoke frame
    let minuend : Int64 ← CallM.ofExcept (left.result .int64)
    let right ← right.eval invoke frame
    let subtrahend : Int64 ← CallM.ofExcept (right.result .int64)
    return ⟨.int64, minuend - subtrahend⟩
  | .not operand => do
    let value ← operand.eval invoke frame
    let truth : Bool ← CallM.ofExcept (value.result .bool)
    return ⟨.bool, !truth⟩
  | .cond test yes no => do
    let value ← test.eval invoke frame
    let truth : Bool ← CallM.ofExcept (value.result .bool)
    if truth then yes.eval invoke frame else no.eval invoke frame
  | .orElse operand fallback => do
    match ← CallM.attempt (operand.eval invoke frame) with
    | .ok value => return value
    | .error _ => fallback.eval invoke frame
  | .errorText operand => do
    match ← CallM.attempt (operand.eval invoke frame) with
    | .ok _ => return ⟨.string, "ok"⟩
    | .error error => return ⟨.string, error.message⟩
  | .sequence operands => do
    let values ← evalAll invoke frame operands
    return values.getLast?.getD .unit
  | .compare question type => do
    let left ← CallM.ofExcept (frame.receiver.data type)
    let right ← CallM.ofExcept (frame.args.get 0 type)
    CallM.ofExcept (question.answer type left right)

/-- Computes the arguments of a call. -/
def ArgSource.eval (invoke : Invoke) (frame : Frame) : ArgSource → CallM Args
  | .own => pure frame.args
  | .given operands => evalAll invoke frame operands

/-- Computes the values of expressions in order. -/
def evalAll (invoke : Invoke) (frame : Frame) : List Expr → CallM (List Value)
  | [] => pure []
  | first :: rest => do
    let value ← first.eval invoke frame
    let values ← evalAll invoke frame rest
    return value :: values

end

/-! ## Bodies -/

/-- Runs a method body. -/
def Body.run (invoke : Invoke) (frame : Frame) : Body → CallM Value
  | .untyped expr => expr.eval invoke frame
  | .typed receiver result expr => do
    let _ ← CallM.ofExcept (frame.receiver.data receiver)
    let value ← expr.eval invoke frame
    return ⟨result, ← CallM.ofExcept (value.result result)⟩
  | .derived comparison => comparison.run invoke frame

/-- Runs a method, with calls nested at most `depth` deep. -/
def invoke : (depth : Nat) → Invoke
  | 0, _, _, _ => throw .tooDeep
  | depth + 1, method, receiver, args => method.body.run (invoke depth) ⟨receiver, args⟩

end TraitSystem
