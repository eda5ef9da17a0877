import TraitSystem.Proofs.Hierarchy.Built
import TraitSystem.Proofs.Hierarchy.Portrait

/-!
# The names of traits

The identity of a trait is the token of some key, and the trait bears the name of that key
(`Reachable.named`).  Different keys have different tokens, so traits of one identity bear one name,
though they may come from different hierarchies and declare different methods
(`Trait.Made.name_eq`).
-/

namespace TraitSystem

variable {ids later : Identities}

/-! ## Names and identities -/

/-- A trait bears the name of the key whose token it has. -/
def Trait.Named (ids : Identities) (trait : Trait) : Prop :=
  ∃ key, ids.Identifies trait.identity key ∧ trait.name = key.name

namespace Trait.Named

variable {first second : Trait}

theorem mono (hnamed : first.Named ids) (hextends : ids.Extends later) : first.Named later := by
  obtain ⟨key, hidentity, hname⟩ := hnamed
  exact ⟨key, hidentity.mono hextends, hname⟩

theorem name_eq (hids : ids.WellFormed) (hfirst : first.Named ids) (hsecond : second.Named ids)
    (hsame : first.identity = second.identity) : first.name = second.name := by
  obtain ⟨key, hkey, hname⟩ := hfirst
  obtain ⟨other, hother, hotherName⟩ := hsecond
  rw [hsame] at hkey
  have hkeys : key = other := hids.biUnique.2 hkey hother
  rw [hname, hotherName, hkeys]

end Trait.Named

/-! ## Traits of hierarchies -/

/-- A walk builds a trait for a key under the token of the key. -/
theorem Walk.ensures_named (setting : Setting) :
    Ensures setting fun ids trait => trait.Named ids := by
  intro path key walk after lineage hgathers _
  exact ⟨key, hgathers.evolves.extends.tokens _ _ (walk.find?_request key), rfl⟩

theorem Hierarchy.Reachable.named {hierarchy : Hierarchy} (hreachable : hierarchy.Reachable ids)
    {trait : Trait} (htrait : trait ∈ hierarchy.traits.values) : trait.Named ids := by
  have hall := hreachable.allKnown (fun _ _ _ hnamed hevolves => hnamed.mono hevolves.extends)
    Walk.ensures_named
  exact hall _ _ (find?_identity_of_mem hreachable.wellFormedLookup htrait)

/-- A trait was made by a definition, in whatever hierarchy. -/
def Trait.Made (ids : Identities) (trait : Trait) : Prop :=
  ∃ hierarchy : Hierarchy, hierarchy.Reachable ids ∧ trait ∈ hierarchy.traits.values

namespace Trait.Made

theorem mono {trait : Trait} (hmade : trait.Made ids) (hevolves : ids.Evolves later) :
    trait.Made later := by
  obtain ⟨hierarchy, hreachable, hmem⟩ := hmade
  exact ⟨hierarchy, hreachable.evolve hevolves, hmem⟩

/-- **Traits of one identity bear one name.** -/
theorem name_eq {first second : Trait} (hfirst : first.Made ids) (hsecond : second.Made ids)
    (hsame : first.identity = second.identity) : first.name = second.name := by
  obtain ⟨hierarchy, hreachable, hmem⟩ := hfirst
  obtain ⟨other, hother, hotherMem⟩ := hsecond
  exact (hreachable.named hmem).name_eq hreachable.identities_wellFormed (hother.named hotherMem)
    hsame

end Trait.Made

end TraitSystem
