/-!
# Tables that remember the order of insertion

A `Table κ α` is a finite map from `κ` to `α` whose entries keep the order in which their keys were
first inserted: writing to a key that is present replaces its entry where it stands, writing to a
new key appends.  Everything a registry stores by a key is stored in such a table.  The order shows
where the methods of a trait are listed as they were declared.

No key occurs twice, and that is part of the type (`Table.nodup`).  The laws below say what an
insertion does to the two views of a table, look-up (`find?_insert`) and keys in order
(`keys_insert`), and that the two views agree (`mem_entries_iff`, `mem_keys_iff`).
-/

namespace TraitSystem

variable {κ α : Type}

/-! ## Entries -/

namespace Table.Entries

variable [DecidableEq κ]

/-- The value of the first entry with the given key. -/
def find? (key : κ) : List (κ × α) → Option α
  | [] => none
  | (known, value) :: rest => if known = key then some value else find? key rest

/-- Replaces the entry of the key where it stands, or appends one. -/
def insert (key : κ) (value : α) : List (κ × α) → List (κ × α)
  | [] => [(key, value)]
  | (known, old) :: rest =>
    if known = key then (known, value) :: rest else (known, old) :: insert key value rest

theorem find?_insert (key : κ) (value : α) (entries : List (κ × α)) (other : κ) :
    find? other (insert key value entries) =
      if key = other then some value else find? other entries := by
  induction entries with
  | nil => simp [insert, find?]
  | cons entry rest ih =>
    obtain ⟨known, old⟩ := entry
    by_cases hknown : known = key
    · subst hknown
      by_cases hother : known = other <;> simp [insert, find?, hother]
    · by_cases hother : known = other
      · subst hother
        simp [insert, find?, hknown, Ne.symm hknown]
      · simp [insert, find?, hknown, hother, ih]

theorem find?_eq_none_iff (key : κ) (entries : List (κ × α)) :
    find? key entries = none ↔ key ∉ entries.map Prod.fst := by
  induction entries with
  | nil => simp [find?]
  | cons entry rest ih =>
    obtain ⟨known, old⟩ := entry
    by_cases hknown : known = key
    · simp [find?, hknown]
    · simp [find?, hknown, ih, Ne.symm hknown]

theorem map_fst_insert (key : κ) (value : α) (entries : List (κ × α)) :
    (insert key value entries).map Prod.fst =
      if key ∈ entries.map Prod.fst then entries.map Prod.fst
      else entries.map Prod.fst ++ [key] := by
  induction entries with
  | nil => simp [insert]
  | cons entry rest ih =>
    obtain ⟨known, old⟩ := entry
    by_cases hknown : known = key
    · simp [insert, hknown]
    · simp only [insert, hknown, if_false, List.map_cons, ih, List.mem_cons, Ne.symm hknown,
        false_or]
      split <;> rfl

theorem nodup_insert (key : κ) (value : α) {entries : List (κ × α)}
    (hnodup : (entries.map Prod.fst).Nodup) :
    ((insert key value entries).map Prod.fst).Nodup := by
  rw [map_fst_insert]
  split
  · exact hnodup
  · rename_i hnew
    refine List.nodup_append.mpr ⟨hnodup, by simp, ?_⟩
    intro a ha b hb
    rw [List.mem_singleton.mp hb]
    exact fun h => hnew (h ▸ ha)

theorem mem_iff_find? {entries : List (κ × α)} (hnodup : (entries.map Prod.fst).Nodup) (key : κ)
    (value : α) : (key, value) ∈ entries ↔ find? key entries = some value := by
  induction entries with
  | nil => simp [find?]
  | cons entry rest ih =>
    obtain ⟨known, old⟩ := entry
    rw [List.map_cons, List.nodup_cons] at hnodup
    by_cases hknown : known = key
    · subst hknown
      have hrest : (known, value) ∉ rest := fun hmem =>
        hnodup.1 (List.mem_map.mpr ⟨_, hmem, rfl⟩)
      simp [find?, hrest, eq_comm]
    · simp [find?, hknown, ih hnodup.2, Ne.symm hknown]

end Table.Entries

/-! ## Tables -/

/-- A finite map whose entries stand in the order in which their keys were first inserted. -/
structure Table (κ α : Type) where
  /-- The entries, the one inserted first in front. -/
  entries : List (κ × α)
  /-- No key has two entries. -/
  nodup : (entries.map Prod.fst).Nodup

namespace Table

/-- The table without entries. -/
def empty : Table κ α := ⟨[], List.nodup_nil⟩

instance : EmptyCollection (Table κ α) := ⟨empty⟩
instance : Inhabited (Table κ α) := ⟨empty⟩

/-- The keys in order of first insertion. -/
def keys (table : Table κ α) : List κ := table.entries.map Prod.fst

/-- The values, in the order of their keys. -/
def values (table : Table κ α) : List α := table.entries.map Prod.snd

/-- The number of entries. -/
def size (table : Table κ α) : Nat := table.entries.length

/-- The entries whose key and value pass the test, in their order. -/
def filter (keep : κ → α → Bool) (table : Table κ α) : Table κ α :=
  ⟨table.entries.filter fun entry => keep entry.1 entry.2,
    table.nodup.sublist (List.filter_sublist.map _)⟩

variable [DecidableEq κ]

/-- The value stored under a key. -/
def find? (table : Table κ α) (key : κ) : Option α := Entries.find? key table.entries

/-- Whether a value is stored under the key. -/
def contains (table : Table κ α) (key : κ) : Bool := (table.find? key).isSome

/-- Stores a value: in place if the key is present, at the end otherwise. -/
def insert (table : Table κ α) (key : κ) (value : α) : Table κ α :=
  ⟨Entries.insert key value table.entries, Entries.nodup_insert key value table.nodup⟩

/-- Stores the entries of a list one after the other, so that the last entry of a key wins. -/
def insertAll (table : Table κ α) (entries : List (κ × α)) : Table κ α :=
  entries.foldl (fun built entry => built.insert entry.1 entry.2) table

/-- The table of a list of entries, of which the last one of a key wins. -/
def ofList (entries : List (κ × α)) : Table κ α := (∅ : Table κ α).insertAll entries

/-! ## What an insertion does to the views -/

@[simp] theorem find?_empty (key : κ) : (∅ : Table κ α).find? key = none := rfl

omit [DecidableEq κ] in
@[simp] theorem keys_empty : (∅ : Table κ α).keys = [] := rfl

@[simp] theorem find?_insert (table : Table κ α) (key : κ) (value : α) (other : κ) :
    (table.insert key value).find? other = if key = other then some value else table.find? other :=
  Entries.find?_insert key value table.entries other

theorem contains_insert (table : Table κ α) (key : κ) (value : α) (other : κ) :
    (table.insert key value).contains other = (decide (key = other) || table.contains other) := by
  simp only [contains, find?_insert]
  by_cases hkey : key = other <;> simp [hkey]

/-- A key is listed exactly when a value is stored under it. -/
theorem mem_keys_iff (table : Table κ α) (key : κ) : key ∈ table.keys ↔ table.contains key := by
  have := Entries.find?_eq_none_iff key table.entries
  simp only [contains, find?, keys, Option.isSome_iff_ne_none, ne_eq, this, Decidable.not_not]

/-- An entry is listed exactly when looking up its key gives its value. -/
theorem mem_entries_iff (table : Table κ α) (key : κ) (value : α) :
    (key, value) ∈ table.entries ↔ table.find? key = some value :=
  Entries.mem_iff_find? table.nodup key value

/-- Inserting keeps the order of the keys, and a new key comes last. -/
theorem keys_insert (table : Table κ α) (key : κ) (value : α) :
    (table.insert key value).keys =
      if table.contains key then table.keys else table.keys ++ [key] := by
  have := Entries.map_fst_insert key value table.entries
  simp only [← mem_keys_iff]
  exact this

omit [DecidableEq κ] in
theorem length_keys (table : Table κ α) : table.keys.length = table.size :=
  List.length_map ..

theorem size_insert (table : Table κ α) (key : κ) (value : α) :
    (table.insert key value).size = if table.contains key then table.size else table.size + 1 := by
  rw [← length_keys, ← length_keys, keys_insert]
  split <;> simp

end Table

end TraitSystem
