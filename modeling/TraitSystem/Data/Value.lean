import TraitSystem.Data.Ty

/-!
# Values that carry their type

A `Value` is data together with its type.  `Value.downcast?` recovers the data at an expected type,
and does so exactly when that is the type of the value (`downcast?_eq_some_iff`); types whose data
look alike are still different types.

The module also gives the two things that a method body can do with the data of any type: compare
it with other data of the same type (`Ty.partialCompare`) and show it as text (`Ty.text`).
-/

namespace TraitSystem

/-- Data together with its type. -/
structure Value where
  /-- The type of the value. -/
  type : Ty
  /-- Its data. -/
  data : type.Carrier

namespace Value

/-- The value of the type without information. -/
def unit : Value := ⟨.unit, ()⟩

/-- The data of a value whose type is the expected one. -/
def downcast? (value : Value) (expected : Ty) : Option expected.Carrier :=
  if same : value.type = expected then some (same ▸ value.data) else none

/-- A value has data of the expected type exactly when it is that data of that type. -/
theorem downcast?_eq_some_iff (value : Value) (expected : Ty) (data : expected.Carrier) :
    value.downcast? expected = some data ↔ value = ⟨expected, data⟩ := by
  obtain ⟨type, own⟩ := value
  unfold downcast?
  by_cases same : type = expected
  · subst same
    simp
  · simp [same]

@[simp] theorem downcast?_mk (type : Ty) (data : type.Carrier) :
    (⟨type, data⟩ : Value).downcast? type = some data :=
  (downcast?_eq_some_iff _ _ _).mpr rfl

theorem downcast?_isSome (value : Value) (expected : Ty) :
    (value.downcast? expected).isSome = decide (value.type = expected) := by
  unfold downcast?
  by_cases same : value.type = expected <;> simp [same]

end Value

/-! ## Order -/

/-- Compares two lists by the first place where they differ; a list that ends there comes first. -/
def lexicographic {α : Type} (order : α → α → Option Ordering) :
    List α → List α → Option Ordering
  | [], [] => some .eq
  | [], _ :: _ => some .lt
  | _ :: _, [] => some .gt
  | first :: firsts, second :: seconds =>
    match order first second with
    | some .eq => lexicographic order firsts seconds
    | different => different

namespace Ty

/-- Compares data of one type.  Only numbers that are no numbers, and what contains them, can fail
to compare.  Text is ordered by its characters, nothing comes before something, and composite data
is ordered by its first difference. -/
def partialCompare : (type : Ty) → type.Carrier → type.Carrier → Option Ordering
  | unit, _, _ => some .eq
  | bool, a, b => some (compare a.toNat b.toNat)
  | int64, a, b => some (compare a b)
  | uint64, a, b => some (compare a b)
  | uint32, a, b => some (compare a b)
  | binary64, a, b => a.partialCompare b
  | string, a, b => some (compare a b)
  | literal, a, b => some (compare a b)
  | ordering, a, b => some (compare a.ctorIdx b.ctorIdx)
  | option _, none, none => some .eq
  | option _, none, some _ => some .lt
  | option _, some _, none => some .gt
  | option content, some a, some b => content.partialCompare a b
  | list element, a, b => lexicographic element.partialCompare a b
  | pair first second, (a₁, a₂), (b₁, b₂) =>
    match first.partialCompare a₁ b₁ with
    | some .eq => second.partialCompare a₂ b₂
    | different => different
  | nominal _ content, a, b => content.partialCompare a b
  | trait _, _, _ => some .eq
  | valueless _, a, _ => a.elim

/-! ## Text -/

/-- The word for the outcome of a comparison. -/
def orderingText : Ordering → String
  | .lt => "lt"
  | .eq => "eq"
  | .gt => "gt"

/-- Shows data: text as it is, numbers in decimal, floating point numbers by their words, lists and
pairs in brackets, and what holds no information as `null`. -/
def text : (type : Ty) → type.Carrier → String
  | unit, _ => "null"
  | bool, b => if b then "true" else "false"
  | int64, n => toString n.toInt
  | uint64, n => toString n.toNat
  | uint32, n => toString n.toNat
  | binary64, x => x.text
  | string, s => s
  | literal, s => s
  | ordering, o => orderingText o
  | option _, none => "null"
  | option content, some a => content.text a
  | list element, elements => "[" ++ ",".intercalate (elements.map element.text) ++ "]"
  | pair first second, (a, b) => "[" ++ first.text a ++ "," ++ second.text b ++ "]"
  | nominal _ content, a => content.text a
  | trait _, _ => "null"
  | valueless _, a => a.elim

end Ty

/-- Shows the data of a value. -/
def Value.text (value : Value) : String := value.type.text value.data

end TraitSystem
