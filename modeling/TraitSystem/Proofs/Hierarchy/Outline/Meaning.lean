import TraitSystem.Proofs.Hierarchy.Outline.Basic

/-!
# What outlines mean

A trait with an outline is definable, and its outline lists what it extends (`Outlines.sound`).  An
error explains why a trait is not definable (`Outlines.explains`).  So the rules decide about the
graph of the signatures, although they follow single paths.

That a path is met again says more than that there is a circle somewhere: every trait on a path
extends those further down it.  Hence what is below a definable trait is never on a path to it, and
this is why its outline is the same on all of them (`Outlines.replay`).
-/

namespace TraitSystem

variable {signatures : Signatures}

/-! ## Traits with an outline -/

/-- A trait is definable if its parents are and it adds no obstacle of its own. -/
theorem Signatures.Definable.of_parents {key : TraitKey}
    (hparents : ∀ parent ∈ (signatures.get key).parents, signatures.Definable parent)
    (hacyclic : ¬ signatures.Ancestor key key)
    (hunshadowed : ∀ method, signatures.Declares key method → ∀ ancestor,
      signatures.Ancestor key ancestor → ¬ signatures.Declares ancestor method) :
    signatures.Definable key := by
  refine ⟨?_, ?_⟩
  · intro below hbelow
    rcases Signatures.reaches_iff.mp hbelow with rfl | hancestor
    · exact hacyclic
    · obtain ⟨parent, hparent, hreaches⟩ := Signatures.ancestor_iff_parent.mp hancestor
      exact (hparents parent hparent).acyclic below hreaches
  · intro below hbelow
    rcases Signatures.reaches_iff.mp hbelow with rfl | hancestor
    · exact hunshadowed
    · obtain ⟨parent, hparent, hreaches⟩ := Signatures.ancestor_iff_parent.mp hancestor
      exact (hparents parent hparent).unshadowed below hreaches

/-- The outline of a definable trait, which lists all that the trait extends. -/
structure Outline.Sound (signatures : Signatures) (key : TraitKey) (outline : Outline) : Prop where
  definable : signatures.Definable key
  mem_iff : ∀ other, other ∈ outline.ancestors ↔ signatures.Ancestor key other
  nodup : outline.ancestors.Nodup

/-- The outline together with the trait itself lists all that the trait reaches. -/
theorem Outline.Sound.mem_concat_iff {key : TraitKey} {outline : Outline}
    (hsound : outline.Sound signatures key) (other : TraitKey) :
    other ∈ outline.ancestors ++ [key] ↔ signatures.Reaches key other := by
  rw [List.mem_append, List.mem_singleton, hsound.mem_iff, Signatures.reaches_iff, or_comm]

/-- No trait is in its own outline. -/
theorem Outline.Sound.not_self {key : TraitKey} {outline : Outline}
    (hsound : outline.Sound signatures key) : key ∉ outline.ancestors := fun hself =>
  hsound.definable.acyclic key (Signatures.Reaches.refl key) ((hsound.mem_iff key).mp hself)

mutual

/-- **What has an outline is definable**, and extends the traits that the outline lists, none of
which is on the path. -/
theorem Outlines.sound {path : List TraitKey} {key : TraitKey} {ids after : Identities}
    {result : Except DefineError Outline} :
    Outlines signatures path key ids result after → ∀ outline, result = .ok outline →
      outline.Sound signatures key ∧
        ∀ other, signatures.Ancestor key other → other ∉ key :: path
  | .stopped _ => nofun
  | .conflicting _ _ => nofun
  | @Outlines.outlined _ _ _ _ _ outline parents hconflict => by
      intro _ hresult
      cases hresult
      obtain ⟨hnodup, hmem, hparents⟩ := parents.sound outline rfl List.nodup_nil
      have hancestors : ∀ other, other ∈ outline.ancestors ↔ signatures.Ancestor key other := by
        intro other
        rw [hmem, Signatures.ancestor_iff_parent]
        simp
      have hoff : ∀ other, signatures.Ancestor key other → other ∉ key :: path := by
        intro other hother
        obtain ⟨parent, hparent, hreaches⟩ := Signatures.ancestor_iff_parent.mp hother
        exact (hparents parent hparent).2 other hreaches
      have hacyclic : ¬ signatures.Ancestor key key := fun hcycle =>
        hoff key hcycle List.mem_cons_self
      have hdefinable : signatures.Definable key := by
        refine .of_parents (fun parent hparent => (hparents parent hparent).1) hacyclic ?_
        intro method hdeclares ancestor hancestor
        exact Outline.conflict?_eq_none hconflict hdeclares ancestor
          ((hancestors ancestor).mpr hancestor)
      exact ⟨⟨hdefinable, hancestors, hnodup⟩, hoff⟩

theorem Collects.sound {path parents : List TraitKey} {outline : Outline}
    {ids after : Identities} {result : Except DefineError Outline} :
    Collects signatures path parents outline ids result after →
      ∀ gathered, result = .ok gathered → outline.ancestors.Nodup →
        gathered.ancestors.Nodup ∧
          (∀ other, other ∈ gathered.ancestors ↔
            other ∈ outline.ancestors ∨ ∃ parent ∈ parents, signatures.Reaches parent other) ∧
          ∀ parent ∈ parents, signatures.Definable parent ∧
            ∀ other, signatures.Reaches parent other → other ∉ path
  | .done => by
      intro gathered hresult hnodup
      cases hresult
      exact ⟨hnodup, fun other => by simp, nofun⟩
  | .cyclic _ => nofun
  | .failed _ _ => nofun
  | @Collects.added _ _ _ parent _ own _ _ _ _ offPath first others => by
      intro gathered hresult hnodup
      obtain ⟨hown, hoff⟩ := first.sound own rfl
      obtain ⟨hgathered, hmem, hrest⟩ :=
        others.sound gathered hresult (nodup_mergeNew hnodup (own.ancestors ++ [parent]))
      refine ⟨hgathered, ?_, ?_⟩
      · intro other
        have hadded : other ∈ (outline.addParent parent own).ancestors ↔
            other ∈ outline.ancestors ∨ signatures.Reaches parent other := by
          rw [← hown.mem_concat_iff]
          exact mem_mergeNew
        rw [hmem, hadded, List.exists_mem_cons_iff, or_assoc]
      · intro other hother
        rcases List.mem_cons.mp hother with rfl | hlater
        · refine ⟨hown.definable, ?_⟩
          intro below hbelow
          rcases Signatures.reaches_iff.mp hbelow with rfl | hancestor
          · exact offPath
          · exact fun hpath => hoff below hancestor (List.mem_cons_of_mem _ hpath)
        · exact hrest other hlater

end

/-! ## Traits without an outline -/

mutual

/-- **An error explains itself**, given that the path leads to the trait. -/
theorem Outlines.explains {path : List TraitKey} {key : TraitKey} {ids after : Identities}
    {result : Except DefineError Outline} :
    Outlines signatures path key ids result after → ∀ error, result = .error error →
      (∀ above ∈ path, signatures.Ancestor above key) → signatures.Explains key error
  | @Outlines.stopped _ _ _ _ _ error parents => by
      intro _ hresult habove
      cases hresult
      obtain ⟨parent, hparent, hexplains⟩ :=
        parents.explains error rfl (Signatures.ancestor_of_parent habove)
      exact hexplains.of_reaches (Signatures.Extends.ancestor hparent).reaches
  | @Outlines.conflicting _ _ _ ancestor _ _ outline _ parents hconflict => by
      intro error hresult _
      cases hresult
      obtain ⟨hdeclares, hancestor, hshadowed⟩ := Outline.conflict?_eq_some hconflict
      obtain ⟨-, hmem, -⟩ := parents.sound outline rfl List.nodup_nil
      have hextends : signatures.Ancestor key ancestor := by
        rw [Signatures.ancestor_iff_parent]
        simpa using (hmem ancestor).mp hancestor
      exact ⟨key, ancestor, Signatures.Reaches.refl key, rfl, hdeclares, hextends, rfl, hshadowed⟩
  | .outlined _ _ => nofun

theorem Collects.explains {path parents : List TraitKey} {outline : Outline}
    {ids after : Identities} {result : Except DefineError Outline} :
    Collects signatures path parents outline ids result after →
      ∀ error, result = .error error →
        (∀ above ∈ path, ∀ parent ∈ parents, signatures.Ancestor above parent) →
          ∃ parent ∈ parents, signatures.Explains parent error
  | .done => nofun
  | @Collects.cyclic _ _ _ parent _ _ onPath => by
      intro error hresult habove
      cases hresult
      -- the parent is on the path that leads to it
      have hcycle : signatures.Ancestor parent parent :=
        habove parent onPath parent List.mem_cons_self
      exact ⟨parent, List.mem_cons_self, parent, Signatures.Reaches.refl parent, hcycle⟩
  | @Collects.failed _ _ _ parent _ _ _ error _ first => by
      intro _ hresult habove
      cases hresult
      have hfirst := first.explains error rfl fun above hpath =>
        habove above hpath parent List.mem_cons_self
      exact ⟨parent, List.mem_cons_self, hfirst⟩
  | .added _ _ others => by
      intro error hresult habove
      obtain ⟨parent, hparent, hexplains⟩ := others.explains error hresult
        fun above hpath parent hparent => habove above hpath parent (List.mem_cons_of_mem _ hparent)
      exact ⟨parent, List.mem_cons_of_mem _ hparent, hexplains⟩

end

/-! ## Tokens -/

mutual

theorem Outlines.evolves {path : List TraitKey} {key : TraitKey} {ids after : Identities}
    {result : Except DefineError Outline} :
    Outlines signatures path key ids result after → ids.Evolves after
  | .stopped parents => (ids.evolves_ofType _).trans parents.evolves
  | .conflicting parents _ => (ids.evolves_ofType _).trans parents.evolves
  | .outlined parents _ => (ids.evolves_ofType _).trans parents.evolves

theorem Collects.evolves {path parents : List TraitKey} {outline : Outline}
    {ids after : Identities} {result : Except DefineError Outline} :
    Collects signatures path parents outline ids result after → ids.Evolves after
  | .done => Identities.Evolves.refl _
  | .cyclic _ => Identities.Evolves.refl _
  | .failed _ first => first.evolves
  | .added _ first others => first.evolves.trans others.evolves

end

mutual

/-- All traits below a trait with an outline have been asked for by name. -/
theorem Outlines.settled {path : List TraitKey} {key : TraitKey} {ids after : Identities}
    {result : Except DefineError Outline} :
    Outlines signatures path key ids result after → ∀ outline, result = .ok outline →
      ∀ below, signatures.Reaches key below → after.Settled (.trait below)
  | .stopped _ => nofun
  | .conflicting _ _ => nofun
  | @Outlines.outlined _ _ _ _ _ outline parents _ => by
      intro _ hresult below hbelow
      cases hresult
      rcases Signatures.reaches_iff.mp hbelow with rfl | hancestor
      · exact (ids.settled_ofType _).mono parents.evolves.extends
      · obtain ⟨parent, hparent, hreaches⟩ := Signatures.ancestor_iff_parent.mp hancestor
        exact parents.settled outline rfl parent hparent below hreaches

theorem Collects.settled {path parents : List TraitKey} {outline : Outline}
    {ids after : Identities} {result : Except DefineError Outline} :
    Collects signatures path parents outline ids result after →
      ∀ gathered, result = .ok gathered → ∀ parent ∈ parents,
        ∀ below, signatures.Reaches parent below → after.Settled (.trait below)
  | .done => nofun
  | .cyclic _ => nofun
  | .failed _ _ => nofun
  | .added _ first others => by
      intro gathered hresult parent hparent below hbelow
      have hfirst := first.settled _ rfl below
      rcases List.mem_cons.mp hparent with rfl | hlater
      · exact (hfirst hbelow).mono others.evolves.extends
      · exact others.settled gathered hresult parent hlater below hbelow

end

/-! ## Outlining again -/

/-- The rules begin by asking for the trait, so it may have been asked for before. -/
theorem Outlines.of_ofType {path : List TraitKey} {key : TraitKey} {ids after : Identities}
    {result : Except DefineError Outline}
    (houtlines : Outlines signatures path key (ids.ofType (.trait key)).2 result after) :
    Outlines signatures path key ids result after := by
  have hagain := (ids.settled_ofType (.trait key)).ofType_eq
  cases houtlines with
  | stopped parents =>
      rw [hagain] at parents
      exact .stopped parents
  | conflicting parents hconflict =>
      rw [hagain] at parents
      exact .conflicting parents hconflict
  | outlined parents hconflict =>
      rw [hagain] at parents
      exact .outlined parents hconflict

mutual

/-- **A trait with an outline has the same one at any later time**, on any path that nothing below
it is on, and then no tokens are handed out. -/
theorem Outlines.replay {path : List TraitKey} {key : TraitKey} {ids after : Identities}
    {result : Except DefineError Outline} :
    Outlines signatures path key ids result after → ∀ outline, result = .ok outline →
      ∀ (other : List TraitKey) (later : Identities),
        (∀ below, signatures.Reaches key below → below ∉ other ∧ later.Settled (.trait below)) →
          Outlines signatures other key later (.ok outline) later
  | .stopped _ => nofun
  | .conflicting _ _ => nofun
  | @Outlines.outlined _ _ _ _ _ outline parents hconflict => by
      intro _ hresult other later hbelow
      cases hresult
      obtain ⟨hsound, -⟩ := (Outlines.outlined parents hconflict).sound outline rfl
      have hown := (hbelow key (Signatures.Reaches.refl key)).2.ofType_eq
      refine .outlined ?_ hconflict
      rw [hown]
      refine parents.replay outline rfl (key :: other) later fun parent hparent below hreaches => ?_
      have hancestor : signatures.Ancestor key below :=
        Signatures.ancestor_iff_parent.mpr ⟨parent, hparent, hreaches⟩
      obtain ⟨hoff, hsettled⟩ := hbelow below hancestor.reaches
      refine ⟨?_, hsettled⟩
      rw [List.mem_cons, not_or]
      refine ⟨?_, hoff⟩
      -- the other path got the trait itself in front, which is not below itself
      rintro rfl
      exact hsound.definable.acyclic below (Signatures.Reaches.refl below) hancestor

theorem Collects.replay {path parents : List TraitKey} {outline : Outline}
    {ids after : Identities} {result : Except DefineError Outline} :
    Collects signatures path parents outline ids result after →
      ∀ gathered, result = .ok gathered → ∀ (other : List TraitKey) (later : Identities),
        (∀ parent ∈ parents, ∀ below, signatures.Reaches parent below →
          below ∉ other ∧ later.Settled (.trait below)) →
            Collects signatures other parents outline later (.ok gathered) later
  | .done => by
      intro gathered hresult other later _
      cases hresult
      exact .done
  | .cyclic _ => nofun
  | .failed _ _ => nofun
  | @Collects.added _ _ _ parent _ own _ _ _ _ _ first others => by
      intro gathered hresult other later hbelow
      have hparent := hbelow parent List.mem_cons_self
      refine .added (hparent parent (Signatures.Reaches.refl parent)).1
        (first.replay own rfl other later hparent) ?_
      exact others.replay gathered hresult other later fun sibling hsibling =>
        hbelow sibling (List.mem_cons_of_mem _ hsibling)

end

/-- What has an outline has it at any later time. -/
theorem Outlines.later {path : List TraitKey} {key : TraitKey} {ids after later : Identities}
    {outline : Outline} (houtlines : Outlines signatures path key ids (.ok outline) after)
    (hextends : after.Extends later) : Outlines signatures [] key later (.ok outline) later := by
  refine houtlines.replay outline rfl [] later fun below hbelow => ?_
  exact ⟨List.not_mem_nil, (houtlines.settled outline rfl below hbelow).mono hextends⟩

end TraitSystem
