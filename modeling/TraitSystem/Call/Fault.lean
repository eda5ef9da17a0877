import TraitSystem.Data.Value

/-!
# What ends a call

A call that does not answer with a value ends with a `Fault`.  Errors are part of the game: a method
body can raise them and can go on after those of the calls it makes.  The other two faults end
everything that is under way.  A panic says that something is wrong with the program, not with the
call, and calls nested too deeply would never come to an end by themselves.
-/

namespace TraitSystem

/-- An error of a call. -/
inductive CallError where
  /-- The trait does not declare the method. -/
  | unknownMethod (method trait : String)
  /-- The receiver has no body for a method of the trait. -/
  | notImplemented (method trait target : String)
  /-- The receiver has no such member, and no trait declares one. -/
  | missingMember (member target : String)
  /-- There are fewer arguments than that. -/
  | missingArgument (index count : Nat)
  /-- The argument is of another type. -/
  | argumentType (index : Nat) (expected : String)
  /-- The receiver is of another type. -/
  | receiverType (expected : String)
  /-- The result is of another type. -/
  | returnType (expected : String)
  /-- What a method body failed with. -/
  | failure (message : String)
  deriving DecidableEq, Repr

namespace CallError

/-- The text of the error. -/
def message : CallError → String
  | unknownMethod method trait =>
    "trait " ++ trait ++ " does not declare a method `" ++ method ++ "`"
  | notImplemented method trait target =>
    target ++ " does not implement `" ++ method ++ "` from trait " ++ trait
  | missingMember member target => target ++ " has no member `" ++ member ++ "`"
  | missingArgument index count =>
    "missing argument " ++ toString index ++ ", only " ++ toString count ++ " were provided"
  | argumentType index expected =>
    "argument " ++ toString index ++ " is not of type " ++ expected
  | receiverType expected => "receiver is not of type " ++ expected
  | returnType expected => "returned value is not of type " ++ expected
  | failure message => message

end CallError

/-- What ends a call that does not answer with a value. -/
inductive Fault where
  /-- An error, after which a method body can go on. -/
  | raised (error : CallError)
  /-- A fault in the program. -/
  | panic (message : String)
  /-- Method bodies called each other more deeply than is allowed. -/
  | tooDeep
  deriving DecidableEq, Repr

/-! ## Data at an expected type -/

namespace Value

/-- The data of a result at the type its caller expects. -/
def result (value : Value) (expected : Ty) : Except CallError expected.Carrier :=
  match value.downcast? expected with
  | some data => .ok data
  | none => .error (.returnType expected.name)

/-- The data of a result at a type of which its caller is certain. -/
def take (value : Value) (expected : Ty) : Except Fault expected.Carrier :=
  (value.result expected).mapError fun error => .panic error.message

end Value

/-- The arguments of a call. -/
abbrev Args := List Value

namespace Args

/-- The argument at an index, at the type expected there. -/
def get (args : Args) (index : Nat) (expected : Ty) : Except CallError expected.Carrier :=
  match args[index]? with
  | none => .error (.missingArgument index args.length)
  | some value =>
    match value.downcast? expected with
    | some data => .ok data
    | none => .error (.argumentType index expected.name)

end Args

end TraitSystem
