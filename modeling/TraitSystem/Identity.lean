import TraitSystem.Data.Value
import TraitSystem.Table

/-!
# Identities

Registries do not know types but *tokens*: small numbers handed out in the order in which types are
first asked for.  A token stands for a `Referent`, which is either a type or the application of
something that has a token to a list of arguments.

`Identities` is the table of all tokens.  Asking twice for the same referent gives the same token.
Names are kept apart from tokens, because a type that is first met as the type of some value gets a
token without a name; the name is filled in when the type is asked for by name
(`Identities.ofType`), and never changes afterwards.  An application is named when its token is
handed out, from the descriptions its parts have then.
-/

namespace TraitSystem

/-! ## Tokens and what they stand for -/

/-- A number that stands for a type, or for the application of one to arguments. -/
structure Token where
  raw : Nat
  deriving DecidableEq, Repr

namespace Token

/-- The token in running text, where it stands in for a missing name. -/
def text (token : Token) : String := "#" ++ toString token.raw

end Token

/-- Why nothing can be identified. -/
inductive TargetError where
  /-- There is no value whose type could be meant. -/
  | absentValue
  /-- An argument of an application is named by the empty text. -/
  | unnamedArgument
  deriving DecidableEq, Repr

namespace TargetError

/-- The text of the error. -/
def message : TargetError → String
  | absentValue => "unable to resolve a type identity for an absent value"
  | unnamedArgument => "unable to resolve a type identity for a type argument with an empty name"

end TargetError

/-- An argument of an application: something that has a token, or anything else by a name. -/
inductive TypeArg where
  | token (token : Token)
  | named (name : String)
  deriving DecidableEq, Repr

/-- A list of arguments none of which has the empty name. -/
structure TypeArgs where
  /-- The arguments in order. -/
  toList : List TypeArg
  /-- No argument is named by the empty text. -/
  named : TypeArg.named "" ∉ toList
  deriving DecidableEq

namespace TypeArgs

/-- Checks the names of arguments. -/
def ofList? (args : List TypeArg) : Except TargetError TypeArgs :=
  if unnamed : TypeArg.named "" ∈ args then .error .unnamedArgument else .ok ⟨args, unnamed⟩

end TypeArgs

/-- What a token stands for. -/
inductive Referent where
  /-- A type. -/
  | type (type : Ty)
  /-- What has the given token, applied to arguments. -/
  | application (base : Token) (args : TypeArgs)
  deriving DecidableEq

/-! ## The table of tokens -/

/-- The tokens handed out so far and the names recorded for them. -/
structure Identities where
  /-- The token of each referent that has been asked for. -/
  tokens : Table Referent Token := ∅
  /-- The name of each token that has one. -/
  names : Table Token String := ∅
  /-- The number of the next token. -/
  next : Nat := 1
  deriving Inhabited

namespace Identities

/-- The table before anything has been asked for. -/
def empty : Identities := {}

/-- The number of tokens handed out. -/
def size (ids : Identities) : Nat := ids.tokens.size

/-- The token of a referent that has been asked for. -/
def find? (ids : Identities) (referent : Referent) : Option Token := ids.tokens.find? referent

/-- The recorded name of a token. -/
def nameOf? (ids : Identities) (token : Token) : Option String := ids.names.find? token

/-- The recorded name of a token, or else its number. -/
def describe (ids : Identities) (token : Token) : String := (ids.nameOf? token).getD token.text

/-- Records a name, unless the token has one. -/
def recordName (ids : Identities) (token : Token) (name : String) : Identities :=
  if ids.names.contains token then ids else { ids with names := ids.names.insert token name }

/-- Hands out the next token. -/
def assign (ids : Identities) (referent : Referent) : Token × Identities :=
  let token : Token := ⟨ids.next⟩
  (token, { ids with tokens := ids.tokens.insert referent token, next := ids.next + 1 })

/-- The token of a type met as the type of a value; this records no name. -/
def ofValueType (ids : Identities) (type : Ty) : Token × Identities :=
  match ids.find? (.type type) with
  | some token => (token, ids)
  | none => ids.assign (.type type)

/-- The token of a type asked for by name, which is recorded. -/
def ofType (ids : Identities) (type : Ty) : Token × Identities :=
  let (token, known) := ids.ofValueType type
  (token, known.recordName token type.name)

/-- The token of the type of a value. -/
def ofValue (ids : Identities) (value : Value) : Token × Identities := ids.ofValueType value.type

/-- An argument as the name of an application shows it. -/
def describeArg (ids : Identities) : TypeArg → String
  | .token token => ids.describe token
  | .named name => name

/-- The name of an application, from the present descriptions of its parts. -/
def describeApplication (ids : Identities) (base : Token) (args : TypeArgs) : String :=
  ids.describe base ++ "<" ++ ", ".intercalate (args.toList.map ids.describeArg) ++ ">"

/-- The token of an application.  Without arguments this is the token of the base; a new token is
named at once. -/
def instantiate (ids : Identities) (base : Token) (args : TypeArgs) : Token × Identities :=
  if args.toList = [] then (base, ids)
  else
    match ids.find? (.application base args) with
    | some token => (token, ids)
    | none =>
      let (token, known) := ids.assign (.application base args)
      (token, known.recordName token (ids.describeApplication base args))

/-- The token of a type asked for by name and applied to arguments.  The type gets its token even
when the arguments are refused. -/
def ofGeneric (ids : Identities) (type : Ty) (args : List TypeArg) :
    Except TargetError Token × Identities :=
  let (base, known) := ids.ofType type
  match TypeArgs.ofList? args with
  | .error error => (.error error, known)
  | .ok args =>
    let (token, known) := known.instantiate base args
    (.ok token, known)

end Identities

end TraitSystem
