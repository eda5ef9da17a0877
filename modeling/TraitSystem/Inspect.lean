import TraitSystem.Call.Eval

/-!
# Texts for inspection

The one-line texts under which the objects of a session show up in diagnostics.  A structure is
written with its name and its fields in braces (`inspectStructure`), and two dots stand for fields
that are not shown.
-/

namespace TraitSystem

/-- A structure with its fields, or with fewer fields and two dots. -/
def inspectStructure (name : String) (fields : List (String × String)) (hidden : Bool := false) :
    String :=
  let shown := fields.map fun (field, value) => field ++ ": " ++ value
  name ++ " \x7b " ++ ", ".intercalate (if hidden then shown ++ [".."] else shown) ++ " \x7d"

/-- Text in quotes; quotes and backslashes inside are escaped. -/
def quoted (text : String) : String :=
  let escaped := text.toList.flatMap fun c => if c = '"' || c = '\\' then ['\\', c] else [c]
  "\"" ++ String.ofList escaped ++ "\""

/-- A token. -/
def Token.inspect (token : Token) : String := "TypeToken(" ++ token.text ++ ")"

/-- The table of tokens. -/
def Identities.inspect (ids : Identities) : String :=
  inspectStructure "IdentityRegistry" [("len", toString ids.size)]

/-- What a trait is known by. -/
def TraitKey.inspect (key : TraitKey) : String :=
  inspectStructure "BlueprintRef" [("name", quoted key.name), ("type", quoted key.typeName)]

/-- An implementation, by the methods that have bodies. -/
def Implementation.inspect (implementation : Implementation) : String :=
  inspectStructure "ImplRecord"
    [("trait", implementation.trait.name),
      ("methods", "[" ++ ", ".intercalate implementation.names ++ "]")]

/-- A receiver, by its identity. -/
def Receiver.inspect (receiver : Receiver) : String :=
  inspectStructure "Receiver" [("identity", receiver.identity.inspect)] true

/-- A view, by its receiver and its implementation. -/
def View.inspect (view : View) : String :=
  inspectStructure "BoundView"
    [("receiver", view.receiver.inspect), ("record", view.implementation.inspect)]

/-- The arguments of a call, by their number. -/
def Args.inspect (args : Args) : String :=
  inspectStructure "Args" [("len", toString args.length)]

/-- A value, of which nothing is shown. -/
def Value.inspect (_ : Value) : String := "Value(..)"

/-- A method, of which nothing is shown. -/
def Method.inspect (_ : Method) : String := "Method(<body>)"

end TraitSystem
