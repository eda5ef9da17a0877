import TraitSystem.Proofs.Hierarchy.Outline.Postorder

/-!
# Traits in pre-order

`Signatures.preorder` lists what a depth-first walk along parents meets, each trait when the walk
first comes to it: the trait at which it starts, then its first parent with all that is met below
it, then the next parent.  Below some traits the walk does not go; they are met, but their parents
are not looked at.

What is still to be met stands in a list, with that in front which comes next.
-/

namespace TraitSystem.Signatures

variable (signatures : Signatures) (known : TraitKey → Bool)

/-- Where on a path a trait stands makes no difference. -/
theorem offPath_concat (key : TraitKey) (path : List TraitKey) :
    signatures.offPath (path ++ [key]) = signatures.offPath (key :: path) := by
  unfold offPath
  exact List.countP_congr fun other _ => by simp [and_comm]

/-- The traits to which a walk goes on from one. -/
def onward (key : TraitKey) : List TraitKey :=
  if known key then [] else (signatures.get key).parents

theorem onward_eq_nil_of_not_mem_keys {key : TraitKey} (hkey : key ∉ signatures.keys) :
    signatures.onward known key = [] := by
  unfold onward
  rw [signatures.parents_eq_nil_of_not_mem_keys hkey, ite_self]

/-- Goes on with a depth-first walk: the traits that are to be met, and those met so far. -/
def meet : List TraitKey → List TraitKey → List TraitKey
  | [], met => met
  | key :: rest, met =>
    if key ∈ met then meet rest met
    else meet (signatures.onward known key ++ rest) (met ++ [key])
termination_by ahead met => (signatures.offPath met, ahead.length)
decreasing_by
  · exact .right _ (Nat.lt_add_one _)
  · rename_i fresh
    rw [signatures.offPath_concat]
    by_cases hkey : key ∈ signatures.keys
    · exact .left _ _ (signatures.offPath_cons_lt hkey fresh)
    · rw [signatures.offPath_cons_of_not_mem_keys hkey,
        signatures.onward_eq_nil_of_not_mem_keys known hkey]
      exact .right _ (Nat.lt_add_one _)

/-- What a depth-first walk from a trait meets, in order. -/
def preorder (key : TraitKey) : List TraitKey := signatures.meet known [key] []

/-! ## One trait at a time -/

section

variable {known} {key : TraitKey} {rest met : List TraitKey}

@[simp] theorem meet_nil : signatures.meet known [] met = met := by
  rw [meet]

theorem meet_of_mem (hmet : key ∈ met) :
    signatures.meet known (key :: rest) met = signatures.meet known rest met := by
  rw [meet, if_pos hmet]

theorem meet_of_not_mem (hmet : key ∉ met) :
    signatures.meet known (key :: rest) met =
      signatures.meet known (signatures.onward known key ++ rest) (met ++ [key]) := by
  rw [meet, if_neg hmet]

/-- Meeting a trait below which the walk does not go. -/
theorem meet_of_known (hknown : known key) :
    signatures.meet known (key :: rest) met = signatures.meet known rest (appendNew met key) := by
  unfold appendNew
  by_cases hmet : key ∈ met
  · rw [signatures.meet_of_mem hmet, if_pos hmet]
  · rw [signatures.meet_of_not_mem hmet, if_neg hmet, onward, if_pos hknown, List.nil_append]

/-- What has been met stays in front. -/
theorem prefix_meet (ahead met : List TraitKey) : met <+: signatures.meet known ahead met := by
  induction ahead, met using meet.induct signatures known with
  | case1 met => simp
  | case2 key rest met hmet ih => rwa [signatures.meet_of_mem hmet]
  | case3 key rest met hmet ih =>
      rw [signatures.meet_of_not_mem hmet]
      exact (List.prefix_append met [key]).trans ih

theorem reaches_of_mem_onward {start other : TraitKey} (hreaches : signatures.Reaches start key)
    (hother : other ∈ signatures.onward known key) : signatures.Reaches start other := by
  unfold onward at hother
  split at hother
  · cases hother
  · exact hreaches.trans (Extends.ancestor hother).reaches

/-- Nothing is met that is not reached from what was to be met. -/
theorem reaches_of_mem_meet {start : TraitKey} (ahead met : List TraitKey)
    (hahead : ∀ key ∈ ahead, signatures.Reaches start key)
    (hmet : ∀ key ∈ met, signatures.Reaches start key) :
    ∀ key ∈ signatures.meet known ahead met, signatures.Reaches start key := by
  induction ahead, met using meet.induct signatures known with
  | case1 met => rwa [meet_nil]
  | case2 key rest met hmem ih =>
      rw [signatures.meet_of_mem hmem]
      exact ih (List.forall_mem_cons.mp hahead).2 hmet
  | case3 key rest met hmem ih =>
      rw [signatures.meet_of_not_mem hmem]
      obtain ⟨hkey, hrest⟩ := List.forall_mem_cons.mp hahead
      exact ih
        (List.forall_mem_append.mpr ⟨fun _ => signatures.reaches_of_mem_onward hkey, hrest⟩)
        (List.forall_mem_append.mpr ⟨hmet, List.forall_mem_singleton.mpr hkey⟩)

theorem reaches_of_mem_preorder {start : TraitKey} :
    ∀ key ∈ signatures.preorder known start, signatures.Reaches start key :=
  signatures.reaches_of_mem_meet [start] [] (List.forall_mem_singleton.mpr (Reaches.refl start))
    (List.forall_mem_nil _)

end

end TraitSystem.Signatures
