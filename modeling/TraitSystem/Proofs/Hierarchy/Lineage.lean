import TraitSystem.Hierarchy.Walk
import TraitSystem.Proofs.List
import Mathlib.Data.List.Nodup

/-!
# Lists of ancestors

The ancestors of a trait are merged from the lists of its parents, and what is in the list already
is skipped.  Skipping goes by identity, so it is only right if equal identities mean equal traits:
every trait of every list has to be the one that a common look-up finds under its identity
(`Listed.shared`).  Under that condition merging keeps the order in which every trait comes after
all of its own ancestors (`Listed.ordered`), and nothing but the parents and their ancestors gets
into the list (`WellFormed.covered`).
-/

namespace TraitSystem.Lineage

variable {lookup : Token → Option Trait}

/-! ## Lists that are closed and ordered -/

/-- A list of traits that a look-up knows, none of them twice, each one after its own ancestors. -/
structure Listed (lookup : Token → Option Trait) (ancestors : List Trait) : Prop where
  /-- Every trait of the list is the very one that is found under its identity. -/
  shared : ∀ ancestor ∈ ancestors, lookup ancestor.identity = some ancestor
  /-- No identity occurs twice. -/
  nodup : (ancestors.map Trait.identity).Nodup
  /-- All ancestors of a trait occur before it. -/
  ordered : ∀ (i : ℕ) (hi : i < ancestors.length), ∀ earlier ∈ ancestors[i].ancestors,
    earlier ∈ ancestors.take i

theorem listed_nil : Listed lookup [] where
  shared _ h := nomatch h
  nodup := List.nodup_nil
  ordered _ hi := absurd hi (Nat.not_lt_zero _)

/-- More traits may be known. -/
theorem Listed.mono {larger : Token → Option Trait} {ancestors : List Trait}
    (hlisted : Listed lookup ancestors)
    (hlarger : ∀ token trait, lookup token = some trait → larger token = some trait) :
    Listed larger ancestors where
  shared ancestor h := hlarger _ _ (hlisted.shared ancestor h)
  nodup := hlisted.nodup
  ordered := hlisted.ordered

/-- What an ancestor extends is in the list too. -/
theorem Listed.closed {ancestors : List Trait} (hlisted : Listed lookup ancestors)
    {ancestor earlier : Trait} (hancestor : ancestor ∈ ancestors)
    (hearlier : earlier ∈ ancestor.ancestors) : earlier ∈ ancestors := by
  obtain ⟨i, hi, rfl⟩ := List.mem_iff_getElem.mp hancestor
  exact List.mem_of_mem_take (hlisted.ordered i hi earlier hearlier)

/-- A new trait may come last if the traits that it extends are there. -/
theorem Listed.append {ancestors : List Trait} (hlisted : Listed lookup ancestors)
    {trait : Trait} (hshared : lookup trait.identity = some trait)
    (hnew : ∀ known ∈ ancestors, known.identity ≠ trait.identity)
    (hclosed : ∀ earlier ∈ trait.ancestors, earlier ∈ ancestors) :
    Listed lookup (ancestors ++ [trait]) := by
  refine ⟨?_, ?_, ?_⟩
  · intro known hknown
    rcases List.mem_append.mp hknown with hold | hlast
    · exact hlisted.shared known hold
    · rw [List.mem_singleton.mp hlast]
      exact hshared
  · rw [List.map_append, List.map_singleton, ← List.concat_eq_append]
    refine List.Nodup.concat ?_ hlisted.nodup
    intro hmem
    obtain ⟨known, hknown, hsame⟩ := List.mem_map.mp hmem
    exact hnew known hknown hsame
  · exact fits_concat (fun before (next : Trait) => ∀ earlier ∈ next.ancestors, earlier ∈ before)
      hlisted.ordered hclosed

/-- No trait of the list extends itself or a later one. -/
theorem Listed.not_hasAncestor {ancestors : List Trait} (hlisted : Listed lookup ancestors)
    {i j : ℕ} (hi : i < ancestors.length) (hj : j < ancestors.length) (hij : i ≤ j) :
    ¬ ancestors[i].hasAncestor ancestors[j] := by
  intro hhas
  obtain ⟨earlier, hearlier, hsame⟩ := List.any_eq_true.mp hhas
  obtain ⟨k, hk, rfl⟩ := List.mem_take_iff_getElem.mp (hlisted.ordered i hi earlier hearlier)
  have hdistinct := List.pairwise_iff_getElem.mp (List.pairwise_map.mp hlisted.nodup)
  exact hdistinct k j (by omega) hj (by omega) (eq_of_beq hsame)

/-! ## Merging -/

theorem mem_addAncestor {ancestors : List Trait} (hlisted : Listed lookup ancestors)
    {trait : Trait} (hshared : lookup trait.identity = some trait) (other : Trait) :
    other ∈ addAncestor ancestors trait ↔ other ∈ ancestors ∨ other = trait := by
  unfold addAncestor
  split
  · rename_i hany
    obtain ⟨known, hknown, hsame⟩ := List.any_eq_true.mp hany
    -- the trait that is known under the identity is the trait itself
    have heq : known = trait := by
      have hfind := hlisted.shared known hknown
      rw [eq_of_beq hsame, hshared] at hfind
      exact (Option.some_inj.mp hfind).symm
    subst heq
    constructor
    · exact Or.inl
    · rintro (hother | rfl)
      · exact hother
      · exact hknown
  · rw [List.mem_append, List.mem_singleton]

theorem Listed.addAncestor {ancestors : List Trait} (hlisted : Listed lookup ancestors)
    {trait : Trait} (hshared : lookup trait.identity = some trait)
    (hclosed : ∀ earlier ∈ trait.ancestors, earlier ∈ ancestors) :
    Listed lookup (addAncestor ancestors trait) := by
  unfold Lineage.addAncestor
  split
  · exact hlisted
  · rename_i hnone
    refine hlisted.append hshared ?_ hclosed
    intro known hknown hsame
    exact hnone (List.any_eq_true.mpr ⟨known, hknown, beq_iff_eq.mpr hsame⟩)

/-- Merging a list whose traits have their ancestors earlier in it, or in the list merged into. -/
private theorem Listed.foldl (added : List Trait) {ancestors : List Trait}
    (hlisted : Listed lookup ancestors)
    (hshared : ∀ trait ∈ added, lookup trait.identity = some trait)
    (hordered : ∀ (i : ℕ) (hi : i < added.length), ∀ earlier ∈ added[i].ancestors,
      earlier ∈ ancestors ∨ earlier ∈ added.take i) :
    Listed lookup (added.foldl Lineage.addAncestor ancestors) ∧
      ∀ other, other ∈ added.foldl Lineage.addAncestor ancestors ↔
        other ∈ ancestors ∨ other ∈ added := by
  induction added generalizing ancestors with
  | nil => exact ⟨hlisted, fun other => by simp⟩
  | cons first rest ih =>
      have hfirst := hshared first List.mem_cons_self
      have hmem := mem_addAncestor hlisted hfirst
      have hclosed : ∀ earlier ∈ first.ancestors, earlier ∈ ancestors := by
        intro earlier hearlier
        simpa using hordered 0 (Nat.zero_lt_succ _) earlier hearlier
      have hrest : ∀ (i : ℕ) (hi : i < rest.length), ∀ earlier ∈ rest[i].ancestors,
          earlier ∈ Lineage.addAncestor ancestors first ∨ earlier ∈ rest.take i := by
        intro i hi earlier hearlier
        rw [hmem earlier]
        rcases hordered (i + 1) (Nat.succ_lt_succ hi) earlier hearlier with hold | htake
        · exact Or.inl (Or.inl hold)
        · rw [List.take_succ_cons, List.mem_cons] at htake
          rcases htake with rfl | htake
          · exact Or.inl (Or.inr rfl)
          · exact Or.inr htake
      obtain ⟨hlisted', hmem'⟩ := ih (hlisted.addAncestor hfirst hclosed)
        (fun trait htrait => hshared trait (List.mem_cons_of_mem _ htrait)) hrest
      refine ⟨hlisted', fun other => ?_⟩
      rw [List.foldl_cons, hmem' other, hmem other, List.mem_cons, or_assoc]

/-! ## Well-formed lineages -/

/-- A lineage whose ancestors are its parents and what these extend. -/
structure WellFormed (lookup : Token → Option Trait) (lineage : Lineage) : Prop
    extends Listed lookup lineage.ancestors where
  /-- No parent is listed twice. -/
  parents_nodup : lineage.parents.Nodup
  /-- Every parent is an ancestor. -/
  parents_listed : ∀ parent ∈ lineage.parents,
    ∃ ancestor ∈ lineage.ancestors, ancestor.identity = parent
  /-- Every ancestor is a parent or an ancestor of a parent. -/
  covered : ∀ ancestor ∈ lineage.ancestors, ancestor.identity ∈ lineage.parents ∨
    ∃ parent ∈ lineage.ancestors, parent.identity ∈ lineage.parents ∧
      ancestor ∈ parent.ancestors

theorem wellFormed_empty : WellFormed lookup {} where
  toListed := listed_nil
  parents_nodup := List.nodup_nil
  parents_listed _ h := nomatch h
  covered _ h := nomatch h

theorem WellFormed.mono {larger : Token → Option Trait} {lineage : Lineage}
    (hlineage : WellFormed lookup lineage)
    (hlarger : ∀ token trait, lookup token = some trait → larger token = some trait) :
    WellFormed larger lineage where
  toListed := hlineage.toListed.mono hlarger
  parents_nodup := hlineage.parents_nodup
  parents_listed := hlineage.parents_listed
  covered := hlineage.covered

theorem mem_parents_addParent (lineage : Lineage) (parent : Trait) (identity : Token) :
    identity ∈ (lineage.addParent parent).parents ↔
      identity ∈ lineage.parents ∨ identity = parent.identity := by
  unfold addParent
  split
  · rename_i hmem
    constructor
    · exact Or.inl
    · rintro (hold | rfl)
      · exact hold
      · exact hmem
  · rw [List.mem_append, List.mem_singleton]

theorem nodup_parents_addParent {lineage : Lineage} (hnodup : lineage.parents.Nodup)
    (parent : Trait) : (lineage.addParent parent).parents.Nodup := by
  unfold addParent
  split
  · exact hnodup
  · rename_i hnew
    rw [← List.concat_eq_append]
    exact List.Nodup.concat hnew hnodup

private theorem ancestors_addParent {lineage : Lineage} (hlineage : Listed lookup lineage.ancestors)
    {parent : Trait} (hparent : Listed lookup parent.ancestors)
    (hshared : lookup parent.identity = some parent) :
    Listed lookup (lineage.addParent parent).ancestors ∧
      ∀ other, other ∈ (lineage.addParent parent).ancestors ↔
        other ∈ lineage.ancestors ∨ other ∈ parent.ancestors ∨ other = parent := by
  obtain ⟨hlisted, hmem⟩ := hlineage.foldl parent.ancestors hparent.shared
    fun i hi earlier hearlier => Or.inr (hparent.ordered i hi earlier hearlier)
  have hclosed : ∀ earlier ∈ parent.ancestors,
      earlier ∈ parent.ancestors.foldl addAncestor lineage.ancestors :=
    fun earlier hearlier => (hmem earlier).mpr (Or.inr hearlier)
  unfold addParent
  simp only [List.foldl_append, List.foldl_cons, List.foldl_nil]
  refine ⟨hlisted.addAncestor hshared hclosed, fun other => ?_⟩
  rw [mem_addAncestor hlisted hshared, hmem other, or_assoc]

theorem mem_ancestors_addParent {lineage : Lineage} (hlineage : Listed lookup lineage.ancestors)
    {parent : Trait} (hparent : Listed lookup parent.ancestors)
    (hshared : lookup parent.identity = some parent) (other : Trait) :
    other ∈ (lineage.addParent parent).ancestors ↔
      other ∈ lineage.ancestors ∨ other ∈ parent.ancestors ∨ other = parent :=
  (ancestors_addParent hlineage hparent hshared).2 other

/-- What merging adds to a list, whether or not equal identities mean equal traits. -/
private theorem of_mem_foldl (added : List Trait) {ancestors : List Trait} {other : Trait}
    (hother : other ∈ added.foldl addAncestor ancestors) : other ∈ ancestors ∨ other ∈ added := by
  induction added generalizing ancestors with
  | nil => exact Or.inl hother
  | cons first rest ih =>
      rcases ih hother with hmerged | hrest
      · unfold addAncestor at hmerged
        split at hmerged
        · exact Or.inl hmerged
        · rcases List.mem_append.mp hmerged with hold | hfirst
          · exact Or.inl hold
          · exact Or.inr (List.mem_cons.mpr (Or.inl (List.mem_singleton.mp hfirst)))
      · exact Or.inr (List.mem_cons_of_mem _ hrest)

/-- A parent brings nothing into a lineage but itself and its ancestors. -/
theorem of_mem_ancestors_addParent {lineage : Lineage} {parent other : Trait}
    (hother : other ∈ (lineage.addParent parent).ancestors) :
    other ∈ lineage.ancestors ∨ other ∈ parent.ancestors ∨ other = parent := by
  rcases of_mem_foldl (parent.ancestors ++ [parent]) hother with hold | hadded
  · exact Or.inl hold
  · exact Or.inr (by rwa [List.mem_append, List.mem_singleton] at hadded)

/-- **Adding a known parent keeps a lineage well-formed.** -/
theorem WellFormed.addParent {lineage : Lineage} (hlineage : WellFormed lookup lineage)
    {parent : Trait} (hparent : Listed lookup parent.ancestors)
    (hshared : lookup parent.identity = some parent) :
    WellFormed lookup (lineage.addParent parent) := by
  have hmem := mem_ancestors_addParent hlineage.toListed hparent hshared
  have hparents := mem_parents_addParent lineage parent
  refine ⟨(ancestors_addParent hlineage.toListed hparent hshared).1,
    nodup_parents_addParent hlineage.parents_nodup parent, ?_, ?_⟩
  · intro identity hidentity
    rcases (hparents identity).mp hidentity with hold | rfl
    · obtain ⟨ancestor, hancestor, hsame⟩ := hlineage.parents_listed identity hold
      exact ⟨ancestor, (hmem ancestor).mpr (Or.inl hancestor), hsame⟩
    · exact ⟨parent, (hmem parent).mpr (Or.inr (Or.inr rfl)), rfl⟩
  · intro ancestor hancestor
    rcases (hmem ancestor).mp hancestor with hold | hof | rfl
    · rcases hlineage.covered ancestor hold with hdirect | ⟨between, hbetween, hidentity, hextends⟩
      · exact Or.inl ((hparents _).mpr (Or.inl hdirect))
      · exact Or.inr ⟨between, (hmem between).mpr (Or.inl hbetween),
          (hparents _).mpr (Or.inl hidentity), hextends⟩
    · exact Or.inr ⟨parent, (hmem parent).mpr (Or.inr (Or.inr rfl)),
        (hparents _).mpr (Or.inr rfl), hof⟩
    · exact Or.inl ((hparents _).mpr (Or.inr rfl))

end TraitSystem.Lineage
