import TraitSystem.Data.Value

/-!
# Method bodies

A method body computes a value from a receiver and a list of arguments, and on its way it may call
other methods, take views, define traits and register implementations in the registry of its
receiver.  Bodies are data: an `Expr` says what to do, and `TraitSystem.Call.Eval` does it.

A `Method` is a body with a serial number, so that two methods built apart are told apart even if
they do the same.
-/

namespace TraitSystem

/-- A relation of two values that can be read off the way they compare. -/
inductive Relation where
  | lt
  | le
  | gt
  | ge
  deriving DecidableEq, Repr

namespace Relation

/-- Whether the relation holds of values that compare in a given way. -/
def holds : Relation → Ordering → Bool
  | lt, ordering => ordering == .lt
  | le, ordering => ordering != .gt
  | gt, ordering => ordering == .gt
  | ge, ordering => ordering != .lt

end Relation

/-- The comparisons that the standard traits derive from a method the implementation supplies. -/
inductive Derived where
  /-- That two values differ, from the method that says whether they are equal. -/
  | notEqual
  /-- A relation of two values, from the method that compares them. -/
  | related (relation : Relation)
  deriving DecidableEq, Repr

/-- What is asked about two values of one type. -/
inductive Comparison where
  /-- Whether they are equal. -/
  | equality
  /-- How they compare, if they do. -/
  | partialOrder
  /-- How they compare, where it is a failure if they do not. -/
  | totalOrder
  deriving DecidableEq, Repr

mutual

/-- What a method body does.  An error in a part is the error of the whole, except in `orElse` and
`errorText`. -/
inductive Expr where
  /-- A value. -/
  | value (value : Value)
  /-- Fails with a message. -/
  | fail (message : String)
  /-- An argument, which must be present and of the given type. -/
  | argument (index : Nat) (type : Ty)
  /-- Whether an argument is present. -/
  | hasArgument (index : Nat)
  /-- The number of arguments. -/
  | argumentCount
  /-- The receiver, which must be of the given type. -/
  | receiver (type : Ty)
  /-- The identity under which the receiver dispatches, as a number. -/
  | identity
  /-- The description of that identity. -/
  | description
  /-- Calls a member of the receiver. -/
  | call (method : String) (args : ArgSource)
  /-- Calls a method of a trait on the receiver. -/
  | callTrait (key : TraitKey) (method : String) (args : ArgSource)
  /-- Calls a method through the view of the receiver's implementation of a trait. -/
  | callView (key : TraitKey) (method : String) (args : ArgSource)
  /-- Calls a member of another value. -/
  | callOn (value : Value) (method : String) (args : ArgSource)
  /-- Whether the receiver implements a trait. -/
  | implements (key : TraitKey)
  /-- Defines a trait. -/
  | define (key : TraitKey)
  /-- Implements a trait for a type. -/
  | implement (key : TraitKey) (target : Ty) (overrides : List (String × Body))
  /-- Defines a native member of a type. -/
  | defineNative (target : Ty) (name : String) (body : Body)
  /-- A value, which must be of the given type. -/
  | convert (type : Ty) (operand : Expr)
  /-- The texts of values, one after the other. -/
  | concat (operands : List Expr)
  /-- The difference of two numbers, taken modulo the size of their type. -/
  | subtract (left right : Expr)
  /-- The other truth value. -/
  | not (operand : Expr)
  /-- One of two values, by a truth value. -/
  | cond (test yes no : Expr)
  /-- A value, or another one where its computation fails. -/
  | orElse (operand fallback : Expr)
  /-- The text of the error with which a computation fails, or `ok`. -/
  | errorText (operand : Expr)
  /-- The last of several values. -/
  | sequence (operands : List Expr)
  /-- Compares the receiver with the first argument. -/
  | compare (question : Comparison) (type : Ty)

/-- Where the arguments of a call come from. -/
inductive ArgSource where
  /-- The arguments of the body itself. -/
  | own
  /-- The values of expressions, computed in order. -/
  | given (operands : List Expr)

/-- The body of a method. -/
inductive Body where
  /-- Computes the result by an expression. -/
  | untyped (expr : Expr)
  /-- The same for receivers of one type and results of one type only. -/
  | typed (receiver result : Ty) (expr : Expr)
  /-- The default body of a derived comparison. -/
  | derived (comparison : Derived)

end

/-- A method: a body together with the number under which it was built. -/
structure Method where
  /-- No two methods are built under the same number. -/
  serial : Nat
  /-- What the method does. -/
  body : Body

namespace Method

/-- Whether two methods are one and the same. -/
def same (a b : Method) : Bool := a.serial == b.serial

end Method

end TraitSystem
