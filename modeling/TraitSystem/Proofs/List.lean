import Mathlib.Data.List.Basic
import Mathlib.Data.List.Forall2
import Mathlib.Data.List.Induction
import Mathlib.Data.List.Nodup

/-!
# Lists that grow at their end

The lists of traits of this development only ever get new elements at the end.  What every element
has to do with those before it (`fits`) is then checked once, when the element is added.

Lists of ancestors get the elements of other lists in this way, without those that they have already
(`mergeNew`).  It makes no difference whether these are merged with each other before
(`mergeNew_mergeNew`).

Two lists whose elements match one by one have matching elements wherever one is picked from both
in the same way (`rel_find?_of_forall₂`).  In a rearranged list a test finds the same element first
if it holds of no other (`find?_eq_of_perm`).
-/

namespace TraitSystem

/-- Elements that fit those before them still do when one more is added that fits all of them. -/
theorem fits_concat {α : Type} (fits : List α → α → Prop) {elements : List α}
    (hfits : ∀ (i : ℕ) (hi : i < elements.length), fits (elements.take i) elements[i]) {last : α}
    (hlast : fits elements last) (i : ℕ) (hi : i < (elements ++ [last]).length) :
    fits ((elements ++ [last]).take i) (elements ++ [last])[i] := by
  rw [List.length_append, List.length_singleton] at hi
  rcases Nat.lt_succ_iff_lt_or_eq.mp hi with hlt | heq
  · rw [List.getElem_append_left hlt, List.take_append_of_le_length (Nat.le_of_lt hlt)]
    exact hfits i hlt
  · subst heq
    rw [List.getElem_concat_length rfl, List.take_left]
    exact hlast

/-! ## Merging -/

section Merging

variable {α : Type} [DecidableEq α]

/-- Appends an element, unless it is in the list. -/
def appendNew (list : List α) (element : α) : List α :=
  if element ∈ list then list else list ++ [element]

/-- Appends the elements of a list one after the other, unless they are there already. -/
def mergeNew (list added : List α) : List α := added.foldl appendNew list

theorem mem_appendNew {list : List α} {element other : α} :
    other ∈ appendNew list element ↔ other ∈ list ∨ other = element := by
  unfold appendNew
  split
  · rename_i hmem
    constructor
    · exact Or.inl
    · rintro (hother | rfl)
      · exact hother
      · exact hmem
  · rw [List.mem_append, List.mem_singleton]

theorem nodup_appendNew {list : List α} (hnodup : list.Nodup) (element : α) :
    (appendNew list element).Nodup := by
  unfold appendNew
  split
  · exact hnodup
  · rename_i hnew
    rw [← List.concat_eq_append]
    exact hnodup.concat hnew

@[simp] theorem mergeNew_nil (list : List α) : mergeNew list [] = list := rfl

@[simp] theorem mergeNew_cons (list : List α) (first : α) (rest : List α) :
    mergeNew list (first :: rest) = mergeNew (appendNew list first) rest := rfl

theorem mergeNew_concat (list added : List α) (last : α) :
    mergeNew list (added ++ [last]) = appendNew (mergeNew list added) last :=
  List.foldl_append

theorem mergeNew_append (list first second : List α) :
    mergeNew list (first ++ second) = mergeNew (mergeNew list first) second :=
  List.foldl_append

theorem mem_mergeNew {list added : List α} {other : α} :
    other ∈ mergeNew list added ↔ other ∈ list ∨ other ∈ added := by
  induction added generalizing list with
  | nil => simp
  | cons first rest ih => rw [mergeNew_cons, ih, mem_appendNew, List.mem_cons, or_assoc]

theorem nodup_mergeNew {list : List α} (hnodup : list.Nodup) (added : List α) :
    (mergeNew list added).Nodup := by
  induction added generalizing list with
  | nil => exact hnodup
  | cons first rest ih => exact ih (nodup_appendNew hnodup first)

theorem prefix_mergeNew (list added : List α) : list <+: mergeNew list added := by
  induction added generalizing list with
  | nil => exact List.prefix_rfl
  | cons first rest ih =>
      rw [mergeNew_cons]
      refine List.IsPrefix.trans ?_ (ih _)
      unfold appendNew
      split
      · exact List.prefix_rfl
      · exact List.prefix_append list [first]

theorem mergeNew_of_subset {list added : List α} (hsubset : ∀ element ∈ added, element ∈ list) :
    mergeNew list added = list := by
  induction added with
  | nil => rfl
  | cons first rest ih =>
      have hfirst : appendNew list first = list := if_pos (hsubset first List.mem_cons_self)
      rw [mergeNew_cons, hfirst]
      exact ih fun element helement => hsubset element (List.mem_cons_of_mem _ helement)

theorem mergeNew_of_nodup {list added : List α} (hnodup : (list ++ added).Nodup) :
    mergeNew list added = list ++ added := by
  induction added generalizing list with
  | nil => simp
  | cons first rest ih =>
      have hnew : first ∉ list := fun hmem =>
        (List.nodup_append.mp hnodup).2.2 first hmem first List.mem_cons_self rfl
      have hfirst : appendNew list first = list ++ [first] := if_neg hnew
      rw [List.append_cons] at hnodup ⊢
      rw [mergeNew_cons, hfirst]
      exact ih hnodup

/-- What is merged one after the other may be merged beforehand. -/
theorem mergeNew_mergeNew (list first second : List α) :
    mergeNew list (mergeNew first second) = mergeNew (mergeNew list first) second := by
  induction second generalizing first with
  | nil => rfl
  | cons element rest ih =>
      have hstep : mergeNew list (appendNew first element) =
          appendNew (mergeNew list first) element := by
        by_cases hmem : element ∈ first
        · have hthere : element ∈ mergeNew list first := mem_mergeNew.mpr (Or.inr hmem)
          unfold appendNew
          rw [if_pos hmem, if_pos hthere]
        · have happend : appendNew first element = first ++ [element] := if_neg hmem
          rw [happend, mergeNew_concat]
      rw [mergeNew_cons, ih, hstep, mergeNew_cons]

/-- Merged with nothing, a list keeps each of its elements where it occurs first. -/
theorem mergeNew_nil_eq_eraseDups (added : List α) : mergeNew [] added = added.eraseDups := by
  induction added using List.reverseRecOn with
  | nil => rfl
  | append_singleton front last ih =>
      rw [mergeNew_concat, ih, List.eraseDups_append]
      by_cases hmem : last ∈ front <;> simp [appendNew, List.removeAll, List.eraseDups_cons, hmem]

/-- Renaming apart what is merged makes no difference. -/
theorem map_mergeNew {β : Type} [DecidableEq β] {rename : α → β}
    (hinjective : Function.Injective rename) (list added : List α) :
    (mergeNew list added).map rename = mergeNew (list.map rename) (added.map rename) := by
  induction added generalizing list with
  | nil => rfl
  | cons first rest ih =>
      have hfirst : (appendNew list first).map rename =
          appendNew (list.map rename) (rename first) := by
        unfold appendNew
        simp only [List.mem_map_of_injective hinjective]
        split <;> simp
      rw [mergeNew_cons, ih, hfirst, List.map_cons, mergeNew_cons]

end Merging

/-! ## Matching lists -/

section Matching

variable {α β : Type} {relates : α → β → Prop} {list : List α} {others : List β}

/-- Every element of a list matches one of a matching list. -/
theorem exists_of_forall₂ (hlist : List.Forall₂ relates list others) {element : α}
    (hmem : element ∈ list) : ∃ other ∈ others, relates element other := by
  induction hlist with
  | nil => cases hmem
  | @cons first other _ _ hfirst _ ih =>
      rcases List.mem_cons.mp hmem with rfl | hrest
      · exact ⟨other, List.mem_cons_self, hfirst⟩
      · obtain ⟨later, hlater, hrelates⟩ := ih hrest
        exact ⟨later, List.mem_cons_of_mem _ hlater, hrelates⟩

/-- Tests that do not tell matching elements apart find matching elements first. -/
theorem rel_find?_of_forall₂ {test : α → Bool} {otherTest : β → Bool}
    (htest : ∀ a b, relates a b → test a = otherTest b)
    (hlist : List.Forall₂ relates list others) :
    Option.Rel relates (list.find? test) (others.find? otherTest) := by
  induction hlist with
  | nil => exact .none
  | @cons element other _ _ hfirst _ ih =>
      have hsame := htest element other hfirst
      cases hother : otherTest other with
      | true =>
          rw [List.find?_cons_of_pos (hsame.trans hother), List.find?_cons_of_pos hother]
          exact .some hfirst
      | false =>
          have helement : test element = false := hsame.trans hother
          simp only [List.find?_cons, helement, hother]
          exact ih

end Matching

/-! ## Rearranged lists -/

theorem find?_eq_of_perm {α : Type} {list rearranged : List α} (hperm : rearranged.Perm list)
    {test : α → Bool} (hfew : list.countP test ≤ 1) : rearranged.find? test = list.find? test := by
  have hfiltered := hperm.filter test
  rw [List.countP_eq_length_filter] at hfew
  rw [← List.head?_filter, ← List.head?_filter]
  -- a list with one element at most cannot be rearranged
  cases hkept : list.filter test with
  | nil =>
      rw [hkept] at hfiltered
      rw [hfiltered.eq_nil]
  | cons only rest =>
      rw [hkept, List.length_cons] at hfew
      have hrest : rest = [] := List.length_eq_zero_iff.mp (by omega)
      rw [hkept, hrest] at hfiltered
      rw [hfiltered.eq_singleton, hrest]

end TraitSystem
