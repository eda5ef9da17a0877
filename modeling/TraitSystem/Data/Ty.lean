import TraitSystem.Data.Binary64

/-!
# Types known at run time

Values, method receivers and arguments carry their type with them.  `Ty` is the collection of these
types and `Ty.Carrier` gives each one its data, so that a value of a known type is ordinary data.

Two kinds of types matter beyond their data.  Every trait is declared by a type of its own, written
`Ty.trait key`, whose `TraitKey` also fixes the name under which the trait is shown.  And some types
are only ever named and have no values of their own (`Ty.valueless`).

Types are compared by structure; their names, the text by which an identity is described, are given
by `Ty.name`.
-/

namespace TraitSystem

/-- The traits that every registry can define without being told what they declare. -/
inductive Standard where
  | partialEq
  | eq
  | partialOrd
  | ord
  | display
  | clone
  | hash
  deriving DecidableEq, Repr

namespace Standard

/-- The standard traits, parents before the traits that extend them. -/
def all : List Standard := [partialEq, eq, partialOrd, ord, display, clone, hash]

theorem mem_all (trait : Standard) : trait ∈ all := by cases trait <;> decide

/-- The name under which the trait is shown. -/
def name : Standard → String
  | partialEq => "PartialEq"
  | eq => "Eq"
  | partialOrd => "PartialOrd"
  | ord => "Ord"
  | display => "Display"
  | clone => "Clone"
  | hash => "Hash"

end Standard

/-- What a trait is known by before it is defined. -/
inductive TraitKey where
  /-- One of the standard traits. -/
  | standard (trait : Standard)
  /-- A trait of the user's, with the name of the type that declares it and the name it is shown
  under. -/
  | custom (typeName name : String)
  deriving DecidableEq, Repr

namespace TraitKey

/-- The name under which the trait is shown; different traits may share it. -/
def name : TraitKey → String
  | standard trait => trait.name
  | custom _ name => name

/-- The name of the type that declares the trait. -/
def typeName : TraitKey → String
  | standard trait => "runtime_traits::prelude::blueprints::" ++ trait.name
  | custom typeName _ => typeName

end TraitKey

/-- A type known at run time. -/
inductive Ty where
  | unit
  | bool
  | int64
  | uint64
  | uint32
  | binary64
  /-- Text that a value owns. -/
  | string
  /-- Text that lives as long as the program. -/
  | literal
  | ordering
  | option (content : Ty)
  | list (element : Ty)
  | pair (first second : Ty)
  /-- A type of the user's: the data of another type under a name of its own. -/
  | nominal (name : String) (content : Ty)
  /-- The type that declares a trait. -/
  | trait (key : TraitKey)
  /-- A type that can be named but has no values of its own. -/
  | valueless (name : String)
  deriving DecidableEq, Repr

namespace Ty

/-- The name of a type, as identities and errors give it. -/
def name : Ty → String
  | unit => "()"
  | bool => "bool"
  | int64 => "i64"
  | uint64 => "u64"
  | uint32 => "u32"
  | binary64 => "f64"
  | string => "alloc::string::String"
  | literal => "&str"
  | ordering => "core::cmp::Ordering"
  | option content => "core::option::Option<" ++ content.name ++ ">"
  | list element => "alloc::vec::Vec<" ++ element.name ++ ">"
  | pair first second => "(" ++ first.name ++ ", " ++ second.name ++ ")"
  | nominal name _ => name
  | trait key => key.typeName
  | valueless name => name

/-- The data of a type. -/
@[reducible] def Carrier : Ty → Type
  | unit => Unit
  | bool => Bool
  | int64 => Int64
  | uint64 => UInt64
  | uint32 => UInt32
  | binary64 => Binary64
  | string => String
  | literal => String
  | ordering => Ordering
  | option content => Option content.Carrier
  | list element => List element.Carrier
  | pair first second => first.Carrier × second.Carrier
  | nominal _ content => content.Carrier
  | trait _ => Unit
  | valueless _ => Empty

end Ty

end TraitSystem
