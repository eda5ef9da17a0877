import TraitSystem.Call.Eval

/-!
# Using the standard traits

Code that compares, hashes, shows or copies values of unknown types does so through the standard
traits: each function here defines the trait it needs in the registry, if it is not defined there
yet, and calls one of its methods on the value.  No type implements a standard trait by itself.
-/

namespace TraitSystem

/-- Defines all standard traits in a registry. -/
def standardTraits (registry : RegistryId) : CallM (List Trait) :=
  Standard.all.mapM (standardTrait registry)

section

variable (invoke : Invoke) (registry : RegistryId)

/-- Calls a method of a standard trait on a value. -/
def callStandard (trait : Standard) (method : String) (value : Value) (args : Args) :
    CallM Value := do
  let trait ← standardTrait registry trait
  let receiver ← Receiver.ofValue registry value
  receiver.callTrait invoke trait method args

/-- Calls a method of a standard trait that answers with data of a given type. -/
def askStandard (trait : Standard) (method : String) (value : Value) (args : Args) (expected : Ty) :
    CallM expected.Carrier := do
  let answer ← callStandard invoke registry trait method value args
  CallM.ofExcept (answer.result expected)

/-- Whether two values are equal. -/
def equal (left right : Value) : CallM Bool :=
  askStandard invoke registry .partialEq "eq" left [right] .bool

/-- Whether two values differ. -/
def notEqual (left right : Value) : CallM Bool :=
  askStandard invoke registry .partialEq "ne" left [right] .bool

/-- How two values compare, if they do. -/
def comparePartially (left right : Value) : CallM (Option Ordering) :=
  askStandard invoke registry .partialOrd "partial_cmp" left [right] (.option .ordering)

/-- How two values compare. -/
def compareTotally (left right : Value) : CallM Ordering :=
  askStandard invoke registry .ord "cmp" left [right] .ordering

/-- A value as text. -/
def display (value : Value) : CallM String :=
  askStandard invoke registry .display "fmt" value [] .string

/-- The hash of a value. -/
def hashValue (value : Value) : CallM UInt64 :=
  askStandard invoke registry .hash "hash" value [] .uint64

/-- A copy of a value. -/
def copy (value : Value) : CallM Value :=
  callStandard invoke registry .clone "clone" value []

end

end TraitSystem
