import TraitSystem.Proofs.Hierarchy.Outline.Meaning

/-!
# Outlines are in post-order

Outlines merge the lists of parents, each of which was put together in the same way.  The traits
come in the order of a single depth-first walk all the same: `Signatures.postorder` goes down the
parents in their order, passes over what was met before, and lists every trait when it is left
(`Outlines.postorder_eq`).

What makes merging right is that nothing of what a trait reaches is on the way to it.  So what the
walk has met and the trait reaches is left already, with all that is below it (`Ready`).
-/

namespace TraitSystem

variable {signatures : Signatures}

/-! ## The walk -/

/-- What is left to be done on a depth-first walk. -/
inductive Visit where
  /-- A trait is to be met. -/
  | enter (key : TraitKey)
  /-- All parents of a trait have been seen to. -/
  | leave (key : TraitKey)

/-- How much is left to be done, if meeting a trait without parents comes to leaving it. -/
def Visit.work : List Visit → Nat
  | [] => 0
  | .enter _ :: rest => work rest + 2
  | .leave _ :: rest => work rest + 1

namespace Signatures

/-- A trait without a signature counts nowhere. -/
theorem offPath_cons_of_not_mem_keys (signatures : Signatures) {key : TraitKey}
    (hkey : key ∉ signatures.keys) (visited : List TraitKey) :
    signatures.offPath (key :: visited) = signatures.offPath visited := by
  unfold offPath
  refine List.countP_congr fun other hother => ?_
  have hne : other ≠ key := fun heq => hkey (heq ▸ hother)
  simp [hne]

/-- Goes on with a depth-first walk: the traits met so far, and those left so far in order. -/
def traverse (signatures : Signatures) :
    List Visit → (visited finished : List TraitKey) → List TraitKey
  | [], _, finished => finished
  | .leave key :: rest, visited, finished => traverse signatures rest visited (finished ++ [key])
  | .enter key :: rest, visited, finished =>
    if key ∈ visited then traverse signatures rest visited finished
    else traverse signatures ((signatures.get key).parents.map .enter ++ .leave key :: rest)
      (key :: visited) finished
termination_by tasks visited => (signatures.offPath visited, Visit.work tasks)
decreasing_by
  · exact .right _ (Nat.lt_add_one _)
  · exact .right _ (Nat.lt_add_of_pos_right Nat.two_pos)
  · rename_i fresh
    by_cases hkey : key ∈ signatures.keys
    · exact .left _ _ (signatures.offPath_cons_lt hkey fresh)
    · rw [signatures.offPath_cons_of_not_mem_keys hkey,
        signatures.parents_eq_nil_of_not_mem_keys hkey]
      exact .right _ (Nat.lt_add_one _)

section

variable (signatures : Signatures) (rest : List Visit) (visited finished : List TraitKey)

@[simp] theorem traverse_nil : signatures.traverse [] visited finished = finished := by
  rw [traverse]

@[simp] theorem traverse_leave (key : TraitKey) :
    signatures.traverse (.leave key :: rest) visited finished =
      signatures.traverse rest visited (finished ++ [key]) := by
  rw [traverse]

theorem traverse_enter_of_mem {key : TraitKey} (hvisited : key ∈ visited) :
    signatures.traverse (.enter key :: rest) visited finished =
      signatures.traverse rest visited finished := by
  rw [traverse, if_pos hvisited]

theorem traverse_enter_of_not_mem {key : TraitKey} (hvisited : key ∉ visited) :
    signatures.traverse (.enter key :: rest) visited finished =
      signatures.traverse ((signatures.get key).parents.map .enter ++ .leave key :: rest)
        (key :: visited) finished := by
  rw [traverse, if_neg hvisited]

end

/-- What a trait reaches, in the order in which a depth-first walk along parents leaves it. -/
def postorder (signatures : Signatures) (key : TraitKey) : List TraitKey :=
  signatures.traverse [.enter key] [] []

end Signatures

/-! ## Meeting a trait with an outline -/

/-- What the walk has met of the traits ahead it has left, with all that is below. -/
structure Ready (signatures : Signatures) (ahead : TraitKey → Prop)
    (visited finished : List TraitKey) : Prop where
  met : ∀ key ∈ finished, key ∈ visited
  closed : ∀ key ∈ finished, ∀ below, signatures.Reaches key below → below ∈ finished
  left : ∀ key, ahead key → key ∈ visited → key ∈ finished

namespace Ready

variable {ahead nearer : TraitKey → Prop} {visited visited' finished : List TraitKey}
  {key : TraitKey}

theorem nil : Ready signatures ahead [] [] where
  met := List.forall_mem_nil _
  closed := List.forall_mem_nil _
  left _ _ hmem := absurd hmem List.not_mem_nil

theorem mono (hready : Ready signatures ahead visited finished)
    (hnearer : ∀ other, nearer other → ahead other) : Ready signatures nearer visited finished where
  met := hready.met
  closed := hready.closed
  left other hother := hready.left other (hnearer other hother)

/-- The walk may go on to the parents of a trait that does not extend itself. -/
theorem enter (hready : Ready signatures (signatures.Reaches key) visited finished)
    (hacyclic : ¬ signatures.Ancestor key key) :
    Ready signatures (signatures.Ancestor key) (key :: visited) finished where
  met other hother := List.mem_cons_of_mem _ (hready.met other hother)
  closed := hready.closed
  left other hother hmem := by
    rcases List.mem_cons.mp hmem with rfl | hvisited
    · exact absurd hother hacyclic
    · exact hready.left other hother.reaches hvisited

/-- When all that a trait reaches is listed, the walk may go on to what is ahead besides. -/
theorem merge (hready : Ready signatures ahead visited finished) {own : Outline}
    (hown : own.Sound signatures key)
    (hvisited : ∀ other, other ∈ visited' ↔ other ∈ visited ∨ signatures.Reaches key other) :
    Ready signatures ahead visited' (mergeNew finished (own.ancestors ++ [key])) := by
  have hmem : ∀ other, other ∈ mergeNew finished (own.ancestors ++ [key]) ↔
      other ∈ finished ∨ signatures.Reaches key other := by
    intro other
    rw [mem_mergeNew, hown.mem_concat_iff]
  refine ⟨?_, ?_, ?_⟩
  · intro other hother
    rw [hvisited]
    exact ((hmem other).mp hother).imp_left (hready.met other)
  · intro other hother below hbelow
    rw [hmem] at hother ⊢
    exact hother.imp (hready.closed other · below hbelow) (·.trans hbelow)
  · intro other hahead hother
    rw [hmem]
    exact ((hvisited other).mp hother).imp_left (hready.left other hahead)

end Ready

mutual

/-- Meeting a trait with an outline lists what it reaches, without what is listed already. -/
theorem Outlines.traverse_enter {path : List TraitKey} {key : TraitKey} {ids after : Identities}
    {result : Except DefineError Outline} :
    Outlines signatures path key ids result after → ∀ own, result = .ok own →
      ∀ (rest : List Visit) (visited finished : List TraitKey),
        Ready signatures (signatures.Reaches key) visited finished → ∃ visited',
          signatures.traverse (.enter key :: rest) visited finished =
              signatures.traverse rest visited' (mergeNew finished (own.ancestors ++ [key])) ∧
            ∀ other, other ∈ visited' ↔ other ∈ visited ∨ signatures.Reaches key other
  | .stopped _ => nofun
  | .conflicting _ _ => nofun
  | @Outlines.outlined _ _ _ _ _ outline parents hconflict => by
      intro _ hresult rest visited finished hready
      cases hresult
      obtain ⟨hsound, -⟩ := (Outlines.outlined parents hconflict).sound outline rfl
      have hacyclic := hsound.definable.acyclic key (Signatures.Reaches.refl key)
      have hahead : ∀ other, signatures.Ancestor key other ↔
          ∃ parent ∈ (signatures.get key).parents, signatures.Reaches parent other := fun _ =>
        Signatures.ancestor_iff_parent
      by_cases hvisited : key ∈ visited
      · -- what was met before has been left, with all that is below
        have hlisted : ∀ other, signatures.Reaches key other → other ∈ finished :=
          hready.closed key (hready.left key (Signatures.Reaches.refl key) hvisited)
        refine ⟨visited, ?_, fun other => ?_⟩
        · rw [signatures.traverse_enter_of_mem _ _ _ hvisited, mergeNew_of_subset]
          intro other hother
          exact hlisted other ((hsound.mem_concat_iff other).mp hother)
        · rw [or_iff_left_of_imp]
          exact fun hother => hready.met other (hlisted other hother)
      · -- the parents are seen to first, and nothing on the way leads back here
        have hparents := (hready.enter hacyclic).mono fun other => (hahead other).mpr
        obtain ⟨visited', htraverse, hmem⟩ := parents.traverse_enter outline rfl
          (.leave key :: rest) (key :: visited) finished hparents
        have hnew : key ∉ mergeNew finished outline.ancestors := by
          rw [mem_mergeNew, hsound.mem_iff, not_or]
          exact ⟨mt (hready.met key) hvisited, hacyclic⟩
        have hlast : mergeNew finished (outline.ancestors ++ [key]) =
            mergeNew finished outline.ancestors ++ [key] :=
          (mergeNew_concat ..).trans (if_neg hnew)
        refine ⟨visited', ?_, fun other => ?_⟩
        · rw [signatures.traverse_enter_of_not_mem _ _ _ hvisited, hlast]
          exact htraverse.trans (signatures.traverse_leave ..)
        · rw [hmem, ← hahead, List.mem_cons, Signatures.reaches_iff, or_assoc, or_left_comm]

/-- Meeting parents lists what they reach, without what is listed already. -/
theorem Collects.traverse_enter {path parents : List TraitKey} {outline : Outline}
    {ids after : Identities} {result : Except DefineError Outline} :
    Collects signatures path parents outline ids result after →
      ∀ gathered, result = .ok gathered →
        ∀ (rest : List Visit) (visited finished : List TraitKey),
          Ready signatures (fun other => ∃ parent ∈ parents, signatures.Reaches parent other)
              visited (mergeNew finished outline.ancestors) → ∃ visited',
            signatures.traverse (parents.map .enter ++ rest) visited
                (mergeNew finished outline.ancestors) =
              signatures.traverse rest visited' (mergeNew finished gathered.ancestors) ∧
            ∀ other, other ∈ visited' ↔
              other ∈ visited ∨ ∃ parent ∈ parents, signatures.Reaches parent other
  | .done => by
      intro gathered hresult rest visited finished _
      cases hresult
      exact ⟨visited, rfl, by simp⟩
  | .cyclic _ => nofun
  | .failed _ _ => nofun
  | @Collects.added _ _ siblings parent _ own _ _ _ _ _ first others => by
      intro gathered hresult rest visited finished hready
      obtain ⟨hown, -⟩ := first.sound own rfl
      obtain ⟨between, hfirst, hbetween⟩ := first.traverse_enter own rfl
        (siblings.map .enter ++ rest) visited (mergeNew finished outline.ancestors)
        (hready.mono fun other hother => ⟨parent, List.mem_cons_self, hother⟩)
      have hadded : mergeNew finished (outline.addParent parent own).ancestors =
          mergeNew (mergeNew finished outline.ancestors) (own.ancestors ++ [parent]) :=
        mergeNew_mergeNew ..
      have hafter := hready.merge hown hbetween
      rw [← hadded] at hfirst hafter
      obtain ⟨visited', hothers, hmem⟩ := others.traverse_enter gathered hresult rest between
        finished (hafter.mono fun other ⟨sibling, hsibling, hother⟩ =>
          ⟨sibling, List.mem_cons_of_mem _ hsibling, hother⟩)
      refine ⟨visited', hfirst.trans hothers, fun other => ?_⟩
      rw [hmem, hbetween, List.exists_mem_cons_iff, or_assoc]

end

/-- **An outline is what a depth-first walk lists** before the trait itself. -/
theorem Outlines.postorder_eq {key : TraitKey} {path : List TraitKey} {ids after : Identities}
    {outline : Outline} (houtlines : Outlines signatures path key ids (.ok outline) after) :
    signatures.postorder key = outline.ancestors ++ [key] := by
  obtain ⟨hsound, -⟩ := houtlines.sound outline rfl
  obtain ⟨visited, htraverse, -⟩ := houtlines.traverse_enter outline rfl [] [] [] .nil
  have hnodup : (outline.ancestors ++ [key]).Nodup := by
    rw [← List.concat_eq_append]
    exact hsound.nodup.concat hsound.not_self
  calc signatures.postorder key
      = mergeNew [] (outline.ancestors ++ [key]) := htraverse.trans (signatures.traverse_nil ..)
    _ = outline.ancestors ++ [key] := mergeNew_of_nodup hnodup

/-- The walk lists the ancestors, if the trait itself is left out. -/
theorem Outlines.filter_postorder {key : TraitKey} {path : List TraitKey} {ids after : Identities}
    {outline : Outline} (houtlines : Outlines signatures path key ids (.ok outline) after) :
    (signatures.postorder key).filter (· ≠ key) = outline.ancestors := by
  obtain ⟨hsound, -⟩ := houtlines.sound outline rfl
  have hothers : ∀ other ∈ outline.ancestors, decide (other ≠ key) := by
    intro other hother
    rw [decide_eq_true_iff]
    rintro rfl
    exact hsound.not_self hother
  rw [houtlines.postorder_eq, List.filter_append, List.filter_eq_self.mpr hothers]
  simp

end TraitSystem
