import TraitSystem.Hierarchy.Trait

/-!
# Signatures

The `Signature` of a trait is what the trait declares before it is defined: the traits it extends
and its methods.  A method may be declared more than once, the last declaration counts and keeps the
place of the first.

`Signatures` knows the signature of every trait.  Those of the standard traits are fixed; those of
custom traits can be replaced at any time, and a trait about which nothing was said declares
nothing.
-/

namespace TraitSystem

/-- The traits a trait extends and the methods it declares. -/
structure Signature where
  /-- The traits it extends directly, in order. -/
  parents : List TraitKey := []
  /-- Its declarations in order, with the default body where there is one. -/
  declarations : List (String × Option Body) := []

namespace Signature

/-- The declared methods, their default bodies built under consecutive serial numbers from the given
one. -/
def methods (signature : Signature) (serial : Nat) : Declarations :=
  Table.ofList <| (signature.declarations.zipIdx serial).map fun ((name, body?), number) =>
    (name, body?.map fun body => ⟨number, body⟩)

end Signature

/-! ## The standard traits -/

/-- The signature of a standard trait. -/
def Standard.signature : Standard → Signature
  | partialEq => ⟨[], [("eq", none), ("ne", some (.derived .notEqual))]⟩
  | eq => ⟨[.standard partialEq], []⟩
  | partialOrd =>
    ⟨[.standard partialEq],
      [("partial_cmp", none),
        ("lt", some (.derived (.related .lt))), ("le", some (.derived (.related .le))),
        ("gt", some (.derived (.related .gt))), ("ge", some (.derived (.related .ge)))]⟩
  | ord => ⟨[.standard eq, .standard partialOrd], [("cmp", none)]⟩
  | display => ⟨[], [("fmt", none)]⟩
  | clone => ⟨[], [("clone", none)]⟩
  | hash => ⟨[], [("hash", none)]⟩

/-! ## All signatures -/

/-- The signatures of all traits. -/
structure Signatures where
  /-- What was said about custom traits. -/
  custom : Table TraitKey Signature := ∅
  deriving Inhabited

namespace Signatures

/-- The signature of a trait. -/
def get (signatures : Signatures) : TraitKey → Signature
  | .standard trait => trait.signature
  | key => (signatures.custom.find? key).getD {}

/-- Replaces the signature of a custom trait; those of the standard traits stay. -/
def declare (signatures : Signatures) (key : TraitKey) (signature : Signature) : Signatures :=
  { signatures with custom := signatures.custom.insert key signature }

/-- The traits that may declare anything. -/
def keys (signatures : Signatures) : List TraitKey :=
  Standard.all.map .standard ++ signatures.custom.keys

/-- A trait outside `keys` extends nothing. -/
theorem parents_eq_nil_of_not_mem_keys (signatures : Signatures) {key : TraitKey}
    (hkey : key ∉ signatures.keys) : (signatures.get key).parents = [] := by
  cases key with
  | standard trait =>
      refine absurd (List.mem_append_left _ (List.mem_map_of_mem ?_)) hkey
      exact trait.mem_all
  | custom typeName name =>
      have hcustom : TraitKey.custom typeName name ∉ signatures.custom.keys := fun hmem =>
        hkey (List.mem_append_right _ hmem)
      rw [Table.mem_keys_iff, Table.contains, Option.not_isSome_iff_eq_none] at hcustom
      simp [get, hcustom]

/-! ## Traits off a path

A walk along parents follows a path without repetitions, so what is left to be put on it bounds how
much deeper the walk can go. -/

/-- The number of traits with a signature that are not on a path. -/
def offPath (signatures : Signatures) (path : List TraitKey) : Nat :=
  signatures.keys.countP (· ∉ path)

theorem offPath_cons_lt (signatures : Signatures) {key : TraitKey} {path : List TraitKey}
    (hkey : key ∈ signatures.keys) (fresh : key ∉ path) :
    signatures.offPath (key :: path) < signatures.offPath path := by
  unfold offPath
  generalize signatures.keys = keys at hkey
  induction keys with
  | nil => cases hkey
  | cons head rest ih =>
      have hle : rest.countP (· ∉ key :: path) ≤ rest.countP (· ∉ path) :=
        List.countP_mono_left fun other _ hother => by
          simp only [decide_eq_true_eq, List.mem_cons, not_or] at hother ⊢
          exact hother.2
      by_cases hhead : head = key
      · subst hhead
        rw [List.countP_cons_of_neg (by simp), List.countP_cons_of_pos (by simpa using fresh)]
        omega
      · have hrest := ih ((List.mem_cons.mp hkey).resolve_left (Ne.symm hhead))
        by_cases hpath : head ∈ path
        · rw [List.countP_cons_of_neg (by simp [hpath]), List.countP_cons_of_neg (by simpa using hpath)]
          exact hrest
        · rw [List.countP_cons_of_pos (by simp [hhead, hpath]),
            List.countP_cons_of_pos (by simpa using hpath)]
          omega

end Signatures

end TraitSystem
