import TraitSystem.Proofs.List
import TraitSystem.Table
import Mathlib.Algebra.GroupWithZero.Nat

/-!
# Growing tables

Tables are only ever written to, never shortened.  This file says what an insertion under a new key
does to the entries as a list, what remains of a table after another one has been written over it
(`find?_insertAll`), and what the entries of a list come to: the last entry of a key is what is
stored under it (`find?_ofList_eq_latest?`), and the keys stand in the order in which they occur
first (`keys_ofList`).
-/

namespace TraitSystem.Table

variable {κ α : Type} [DecidableEq κ]

/-! ## One insertion -/

theorem find?_insert_self (table : Table κ α) (key : κ) (value : α) :
    (table.insert key value).find? key = some value := by
  rw [find?_insert, if_pos rfl]

theorem find?_insert_of_ne (table : Table κ α) {key other : κ} (value : α) (hne : key ≠ other) :
    (table.insert key value).find? other = table.find? other := by
  rw [find?_insert, if_neg hne]

/-- Of two insertions under the same key the second one counts. -/
theorem insert_insert_self (table : Table κ α) (key : κ) (old value : α) :
    (table.insert key old).insert key value = table.insert key value := by
  have hentries (entries : List (κ × α)) :
      Entries.insert key value (Entries.insert key old entries) =
        Entries.insert key value entries := by
    induction entries with
    | nil => simp [Entries.insert]
    | cons entry rest ih =>
        obtain ⟨known, other⟩ := entry
        by_cases hknown : known = key
        · simp [Entries.insert, hknown]
        · simp [Entries.insert, hknown, ih]
  simp only [insert, hentries]

/-- Inserting under a new key keeps what is stored. -/
theorem find?_insert_of_find?_eq_none (table : Table κ α) {key other : κ} {old : α} (value : α)
    (hnew : table.find? key = none) (hother : table.find? other = some old) :
    (table.insert key value).find? other = some old := by
  have hne : key ≠ other := by
    rintro rfl
    rw [hnew] at hother
    cases hother
  rw [find?_insert_of_ne table value hne, hother]

theorem contains_eq_false_iff (table : Table κ α) (key : κ) :
    table.contains key = false ↔ table.find? key = none := by
  simp [contains]

private theorem entries_insert_of_notMem (key : κ) (value : α) {entries : List (κ × α)}
    (hnew : key ∉ entries.map Prod.fst) :
    Entries.insert key value entries = entries ++ [(key, value)] := by
  induction entries with
  | nil => rfl
  | cons entry rest ih =>
      rw [List.map_cons, List.mem_cons, not_or] at hnew
      simp only [Entries.insert, if_neg (Ne.symm hnew.1), ih hnew.2, List.cons_append]

/-- A new key gets the last entry. -/
theorem entries_insert (table : Table κ α) {key : κ} (value : α)
    (hnew : table.find? key = none) :
    (table.insert key value).entries = table.entries ++ [(key, value)] := by
  refine entries_insert_of_notMem key value fun hmem => ?_
  have hcontains : table.contains key := (table.mem_keys_iff key).mp hmem
  rw [contains, hnew] at hcontains
  cases hcontains

/-- What is stored under a key does not depend on the order of the entries. -/
theorem find?_eq_of_perm {table rearranged : Table κ α}
    (hperm : rearranged.entries.Perm table.entries) (key : κ) :
    rearranged.find? key = table.find? key := by
  apply Option.ext
  intro value
  rw [← mem_entries_iff, ← mem_entries_iff, hperm.mem_iff]

omit [DecidableEq κ] in
theorem nodup_entries (table : Table κ α) : table.entries.Nodup :=
  List.Pairwise.of_map Prod.fst (fun _ _ hne hsame => hne (congrArg Prod.fst hsame)) table.nodup

/-- Tables that store the same have the same entries, in some order. -/
theorem perm_of_find?_eq {table rearranged : Table κ α}
    (hsame : ∀ key, rearranged.find? key = table.find? key) :
    rearranged.entries.Perm table.entries := by
  refine (List.perm_ext_iff_of_nodup rearranged.nodup_entries table.nodup_entries).mpr ?_
  rintro ⟨key, value⟩
  rw [mem_entries_iff, mem_entries_iff, hsame]

/-- Insertions under two keys come to the same in either order, but for the order of the entries. -/
theorem perm_insert_insert (table : Table κ α) {first second : κ} (hne : first ≠ second)
    (value other : α) :
    ((table.insert second other).insert first value).entries.Perm
      ((table.insert first value).insert second other).entries := by
  apply perm_of_find?_eq
  intro key
  simp only [find?_insert]
  by_cases hfirst : first = key
  · subst hfirst
    rw [if_pos rfl, if_pos rfl, if_neg (Ne.symm hne)]
  · rw [if_neg hfirst, if_neg hfirst]

/-- A value is listed exactly when it is stored under some key. -/
theorem mem_values_iff (table : Table κ α) (value : α) :
    value ∈ table.values ↔ ∃ key, table.find? key = some value := by
  constructor
  · intro hmem
    obtain ⟨⟨key, _⟩, hentry, rfl⟩ := List.mem_map.mp hmem
    exact ⟨key, (table.mem_entries_iff key _).mp hentry⟩
  · rintro ⟨key, hfind⟩
    exact List.mem_map.mpr ⟨(key, value), (table.mem_entries_iff key value).mpr hfind, rfl⟩

/-- What the values come to in sum: an insertion takes off the value it replaces and adds its
own. -/
theorem sum_map_values_insert (table : Table κ α) (key : κ) (value : α) (weight : α → Nat) :
    ((table.insert key value).values.map weight).sum + (table.find? key).elim 0 weight =
      (table.values.map weight).sum + weight value := by
  show (((Entries.insert key value table.entries).map Prod.snd).map weight).sum +
      (Entries.find? key table.entries).elim 0 weight =
    ((table.entries.map Prod.snd).map weight).sum + weight value
  generalize table.entries = entries
  induction entries with
  | nil => simp [Entries.insert, Entries.find?]
  | cons entry rest ih =>
      obtain ⟨known, old⟩ := entry
      by_cases hknown : known = key
      · simp only [Entries.insert, Entries.find?, if_pos hknown, List.map_cons, List.sum_cons,
          Option.elim_some]
        omega
      · simp only [Entries.insert, Entries.find?, if_neg hknown, List.map_cons, List.sum_cons]
        omega

/-! ## Many insertions -/

namespace Entries

/-- The value of the last entry with the given key. -/
def latest? (key : κ) (entries : List (κ × α)) : Option α := find? key entries.reverse

theorem find?_append (key : κ) (first second : List (κ × α)) :
    find? key (first ++ second) = (find? key first).or (find? key second) := by
  induction first with
  | nil => rfl
  | cons entry rest ih =>
      obtain ⟨known, value⟩ := entry
      by_cases hknown : known = key <;> simp [find?, hknown, ih]

theorem latest?_cons (key : κ) (entry : κ × α) (rest : List (κ × α)) :
    latest? key (entry :: rest) =
      (latest? key rest).or (if entry.1 = key then some entry.2 else none) := by
  unfold latest?
  rw [List.reverse_cons, find?_append]
  rfl

/-- Where no key is repeated, the last entry of a key is the first. -/
theorem latest?_eq_find? {entries : List (κ × α)} (hnodup : (entries.map Prod.fst).Nodup)
    (key : κ) : latest? key entries = find? key entries := by
  have hreverse : (entries.reverse.map Prod.fst).Nodup := by
    rw [List.map_reverse, List.nodup_reverse]
    exact hnodup
  apply Option.ext
  intro value
  rw [latest?, ← mem_iff_find? hreverse, ← mem_iff_find? hnodup, List.mem_reverse]

end Entries

/-- The last entry of a key is what is stored under it. -/
theorem find?_insertAll_eq_latest? (table : Table κ α) (entries : List (κ × α)) (key : κ) :
    (table.insertAll entries).find? key = (Entries.latest? key entries).or (table.find? key) := by
  induction entries generalizing table with
  | nil => rfl
  | cons entry rest ih =>
      show ((table.insert entry.1 entry.2).insertAll rest).find? key = _
      rw [ih, Entries.latest?_cons, find?_insert, Option.or_assoc]
      split <;> rfl

theorem find?_ofList_eq_latest? (entries : List (κ × α)) (key : κ) :
    (ofList entries).find? key = Entries.latest? key entries := by
  unfold ofList
  rw [find?_insertAll_eq_latest?, find?_empty, Option.or_none]

/-- In a list of entries without repeated keys, none wins over another. -/
theorem find?_ofList {entries : List (κ × α)} (hnodup : (entries.map Prod.fst).Nodup) (key : κ) :
    (ofList entries).find? key = Entries.find? key entries := by
  rw [find?_ofList_eq_latest?, Entries.latest?_eq_find? hnodup]

/-- What is stored after writing all entries of another table is what the other one has, and else
what was there before. -/
theorem find?_insertAll (table other : Table κ α) (key : κ) :
    (table.insertAll other.entries).find? key = (other.find? key).or (table.find? key) := by
  rw [find?_insertAll_eq_latest?, Entries.latest?_eq_find? other.nodup]
  rfl

/-- Which entries there are after many insertions does not depend on the order of anything. -/
theorem perm_insertAll {table rearranged added : Table κ α} {entries : List (κ × α)}
    (hperm : rearranged.entries.Perm table.entries) (hentries : entries.Perm added.entries) :
    (rearranged.insertAll entries).entries.Perm (table.insertAll added.entries).entries := by
  have hnodup : (entries.map Prod.fst).Nodup := (hentries.map Prod.fst).nodup_iff.mpr added.nodup
  let other : Table κ α := ⟨entries, hnodup⟩
  refine perm_of_find?_eq fun key => ?_
  calc (rearranged.insertAll other.entries).find? key
      = (other.find? key).or (rearranged.find? key) := find?_insertAll _ _ _
    _ = (added.find? key).or (table.find? key) := by
        rw [find?_eq_of_perm hentries, find?_eq_of_perm hperm]
    _ = (table.insertAll added.entries).find? key := (find?_insertAll _ _ _).symm

theorem keys_insert_eq_appendNew (table : Table κ α) (key : κ) (value : α) :
    (table.insert key value).keys = appendNew table.keys key := by
  unfold appendNew
  simp only [keys_insert, mem_keys_iff]

theorem keys_insertAll (table : Table κ α) (entries : List (κ × α)) :
    (table.insertAll entries).keys = mergeNew table.keys (entries.map Prod.fst) := by
  induction entries generalizing table with
  | nil => rfl
  | cons entry rest ih =>
      show ((table.insert entry.1 entry.2).insertAll rest).keys = _
      rw [ih, keys_insert_eq_appendNew]
      rfl

/-- The keys of a list are listed once each, in the order in which they occur first. -/
theorem keys_ofList (entries : List (κ × α)) :
    (ofList entries).keys = (entries.map Prod.fst).eraseDups := by
  unfold ofList
  rw [keys_insertAll, keys_empty, mergeNew_nil_eq_eraseDups]

/-! ## Tables of lists -/

section OfList

variable {β : Type}

private theorem map_insert_entries (change : α → β) (key : κ) (value : α) (entries : List (κ × α)) :
    (Entries.insert key value entries).map (Prod.map id change) =
      Entries.insert key (change value) (entries.map (Prod.map id change)) := by
  induction entries with
  | nil => rfl
  | cons entry rest ih =>
      obtain ⟨known, old⟩ := entry
      by_cases hknown : known = key
      · simp [Entries.insert, hknown]
      · simp [Entries.insert, hknown, ih]

/-- Changing all values of a list of entries changes the values of the table that it makes. -/
theorem entries_ofList_map (change : α → β) (entries : List (κ × α)) :
    (ofList (entries.map (Prod.map id change))).entries =
      (ofList entries).entries.map (Prod.map id change) := by
  have hinsertAll : ∀ (table : Table κ α) (changed : Table κ β),
      changed.entries = table.entries.map (Prod.map id change) →
        (changed.insertAll (entries.map (Prod.map id change))).entries =
          (table.insertAll entries).entries.map (Prod.map id change) := by
    induction entries with
    | nil => exact fun _ _ h => h
    | cons entry rest ih =>
        intro table changed hchanged
        refine ih (table.insert entry.1 entry.2) (changed.insert entry.1 (change entry.2)) ?_
        show Entries.insert entry.1 (change entry.2) changed.entries = _
        rw [hchanged]
        exact (map_insert_entries change entry.1 entry.2 table.entries).symm
  exact hinsertAll ∅ ∅ rfl

theorem mem_keys_ofList (entries : List (κ × α)) (key : κ) :
    key ∈ (ofList entries).keys ↔ key ∈ entries.map Prod.fst := by
  rw [keys_ofList, List.mem_eraseDups]

end OfList

end TraitSystem.Table
