import TraitSystem.Proofs.Hierarchy.Outline.Meaning
import TraitSystem.Proofs.Hierarchy.Lineage

/-!
# Traits as their outlines say

A trait that was built and the outline of a key speak of the same things in different words.  Traits
list their ancestors as traits and their parents as tokens, outlines list keys.  A trait `Portrays`
a key if it has the identity, the name and the methods that the key and its signature call for, and
it `Fits` an outline besides if its lists match those of the outline element by element.

Merging goes by identity on one side and by key on the other, which is the same because different
traits have different tokens.  So lists that match still do after a parent has been added
(`Lineage.Follows.addParent`), and matching lineages have the same conflicts
(`Lineage.Follows.conflict?_eq`).
-/

namespace TraitSystem

variable {signatures : Signatures} {ids later : Identities}

/-- A trait is what becomes of a key when it is defined, as far as its lineage does not matter. -/
structure Trait.Portrays (signatures : Signatures) (ids : Identities) (trait : Trait)
    (key : TraitKey) : Prop where
  identity : ids.Identifies trait.identity key
  name : trait.name = key.name
  shape : trait.methods.shape = (signatures.get key).shape

namespace Trait.Portrays

variable {trait : Trait} {key : TraitKey}

theorem mono (hportrays : trait.Portrays signatures ids key) (hextends : ids.Extends later) :
    trait.Portrays signatures later key where
  identity := hportrays.identity.mono hextends
  name := hportrays.name
  shape := hportrays.shape

/-- A trait declares what its signature does. -/
theorem declares_iff (hportrays : trait.Portrays signatures ids key) (method : String) :
    trait.declares method ↔ signatures.Declares key method := by
  have hmethods : method ∈ trait.methods.keys ↔ signatures.Declares key method := by
    rw [← Declarations.map_fst_shape, hportrays.shape]
    exact (signatures.get key).mem_map_fst_shape method
  rw [← hmethods, Table.mem_keys_iff, Trait.declares]

/-- Traits have the tokens of the keys that they portray. -/
theorem identities {traits : List Trait} {keys : List TraitKey}
    (htraits : List.Forall₂ (Trait.Portrays signatures ids) traits keys) :
    List.Forall₂ ids.Identifies (traits.map Trait.identity) keys :=
  List.forall₂_map_left_iff.mpr (htraits.imp fun _ _ hportrays => hportrays.identity)

end Trait.Portrays

/-! ## Lineages -/

/-- A lineage and an outline list the same traits. -/
structure Lineage.Follows (signatures : Signatures) (ids : Identities) (lineage : Lineage)
    (outline : Outline) : Prop where
  parents : List.Forall₂ ids.Identifies lineage.parents outline.parents
  ancestors : List.Forall₂ (Trait.Portrays signatures ids) lineage.ancestors outline.ancestors

/-- A trait is what becomes of a key that has the given outline. -/
structure Trait.Fits (signatures : Signatures) (ids : Identities) (key : TraitKey) (trait : Trait)
    (outline : Outline) : Prop extends trait.Portrays signatures ids key where
  follows : Lineage.Follows signatures ids ⟨trait.parents, trait.ancestors⟩ outline

namespace Lineage

theorem follows_empty : Lineage.Follows signatures ids {} {} := ⟨.nil, .nil⟩

theorem Follows.mono {lineage : Lineage} {outline : Outline}
    (hfollows : lineage.Follows signatures ids outline) (hextends : ids.Extends later) :
    lineage.Follows signatures later outline where
  parents := hfollows.parents.imp fun _ _ htoken => htoken.mono hextends
  ancestors := hfollows.ancestors.imp fun _ _ hportrays => hportrays.mono hextends

private theorem forall₂_addAncestor (hids : ids.WellFormed) {ancestors : List Trait}
    {keys : List TraitKey} {trait : Trait} {key : TraitKey}
    (hancestors : List.Forall₂ (Trait.Portrays signatures ids) ancestors keys)
    (htrait : trait.Portrays signatures ids key) :
    List.Forall₂ (Trait.Portrays signatures ids) (addAncestor ancestors trait)
      (appendNew keys key) := by
  have hmem : trait.identity ∈ ancestors.map Trait.identity ↔ key ∈ keys :=
    List.rel_mem hids.biUnique htrait.identity (Trait.Portrays.identities hancestors)
  have hknown : (ancestors.any fun known => known.identity == trait.identity) ↔ key ∈ keys := by
    rw [← hmem]
    simp
  unfold addAncestor appendNew
  by_cases hkey : key ∈ keys
  · rw [if_pos (hknown.mpr hkey), if_pos hkey]
    exact hancestors
  · rw [if_neg (mt hknown.mp hkey), if_neg hkey]
    exact List.rel_append hancestors (.cons htrait .nil)

open Relator in
/-- **Adding a parent on both sides keeps them alike.** -/
theorem Follows.addParent (hids : ids.WellFormed) {lineage : Lineage} {outline own : Outline}
    {trait : Trait} {key : TraitKey} (hfollows : lineage.Follows signatures ids outline)
    (htrait : trait.Fits signatures ids key own) :
    (lineage.addParent trait).Follows signatures ids (outline.addParent key own) where
  parents := by
    have hknown : trait.identity ∈ lineage.parents ↔ key ∈ outline.parents :=
      List.rel_mem hids.biUnique htrait.identity hfollows.parents
    unfold Lineage.addParent Outline.addParent appendNew
    by_cases hkey : key ∈ outline.parents
    · rw [if_pos (hknown.mpr hkey), if_pos hkey]
      exact hfollows.parents
    · rw [if_neg (mt hknown.mp hkey), if_neg hkey]
      exact List.rel_append hfollows.parents (.cons htrait.identity .nil)
  ancestors := by
    have hadded : List.Forall₂ (Trait.Portrays signatures ids) (trait.ancestors ++ [trait])
        (own.ancestors ++ [key]) :=
      List.rel_append htrait.follows.ancestors (.cons htrait.toPortrays .nil)
    have hstep : (List.Forall₂ (Trait.Portrays signatures ids) ⇒
        Trait.Portrays signatures ids ⇒ List.Forall₂ (Trait.Portrays signatures ids))
          addAncestor appendNew :=
      fun _ _ hknown _ _ hother => forall₂_addAncestor hids hknown hother
    exact List.rel_foldl hstep hfollows.ancestors hadded

/-- **Lineages and outlines that are alike conflict with a key alike.** -/
theorem Follows.conflict?_eq {lineage : Lineage} {outline : Outline} {key : TraitKey}
    {methods : Declarations} (hfollows : lineage.Follows signatures ids outline)
    (hshape : methods.shape = (signatures.get key).shape) :
    (lineage.conflict? methods).map (Prod.map id Trait.name) =
      (outline.conflict? signatures key).map (Prod.map id TraitKey.name) := by
  unfold Lineage.conflict? Outline.conflict?
  rw [← Declarations.map_fst_shape, hshape, List.map_findSome?, List.map_findSome?]
  congr 1
  funext method
  have hdeclares : ∀ (trait : Trait) (other : TraitKey), trait.Portrays signatures ids other →
      trait.declares method = decide (signatures.Declares other method) := by
    intro trait other hportrays
    rw [Bool.eq_iff_iff, decide_eq_true_iff]
    exact hportrays.declares_iff method
  have hfirst := rel_find?_of_forall₂ hdeclares hfollows.ancestors
  simp only [Function.comp, Option.map_map]
  generalize lineage.ancestors.find? _ = found, outline.ancestors.find? _ = foundKey at hfirst ⊢
  cases hfirst with
  | none => rfl
  | some hportrays => simp [hportrays.name]

end Lineage

/-- The ancestors of a trait have the tokens of those that its outline lists. -/
theorem Trait.Fits.identities {trait : Trait} {key : TraitKey} {outline : Outline}
    (hfits : trait.Fits signatures ids key outline) :
    List.Forall₂ ids.Identifies (trait.ancestors.map Trait.identity) outline.ancestors :=
  Trait.Portrays.identities hfits.follows.ancestors

theorem Trait.Fits.mono {trait : Trait} {key : TraitKey} {outline : Outline}
    (hfits : trait.Fits signatures ids key outline) (hextends : ids.Extends later) :
    trait.Fits signatures later key outline where
  toPortrays := hfits.toPortrays.mono hextends
  follows := hfits.follows.mono hextends

end TraitSystem
