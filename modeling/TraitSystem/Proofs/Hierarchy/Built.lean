import TraitSystem.Proofs.Hierarchy.Reachable

/-!
# What holds of all traits that are built

A walk finds the traits that are known before it and those that it builds.  So whatever holds of
every trait when it is built (`Walk.Ensures`) and lasts while tokens are handed out (`Lasting`)
holds of all that a walk finds if it holds of what is known (`Resolves.allKnown`).  Then it holds of
a hierarchy after a definition (`define_allKnown`), and of every hierarchy that definitions can make
(`Reachable.allKnown`).
-/

namespace TraitSystem

variable {holds : Identities → Trait → Prop}

/-- Something about a trait and the tokens that stays true while tokens are handed out. -/
def Lasting (holds : Identities → Trait → Prop) : Prop :=
  ∀ ⦃ids later : Identities⦄ ⦃trait : Trait⦄, holds ids trait → ids.Evolves later →
    holds later trait

/-- Something holds of every trait that a look-up knows. -/
def AllKnown (holds : Identities → Trait → Prop) (ids : Identities)
    (lookup : Token → Option Trait) : Prop :=
  ∀ token trait, lookup token = some trait → holds ids trait

theorem AllKnown.mono {ids later : Identities} {lookup : Token → Option Trait}
    (hall : AllKnown holds ids lookup) (hlasting : Lasting holds) (hevolves : ids.Evolves later) :
    AllKnown holds later lookup := fun token trait hfind => hlasting (hall token trait hfind) hevolves

/-! ## Walks -/

namespace Walk

variable {setting : Setting}

/-- Something holds of every trait when it is built. -/
def Ensures (setting : Setting) (holds : Identities → Trait → Prop) : Prop :=
  ∀ ⦃path : List TraitKey⦄ ⦃key : TraitKey⦄ ⦃walk after : Walk⦄ ⦃lineage : Lineage⦄,
    Gathers setting (key :: path) (setting.signatures.get key).parents {}
        ((walk.request key).expand (key :: path)) (.ok lineage) after →
      lineage.conflict? ((setting.signatures.get key).methods after.nextSerial) = none →
        holds after.identities
          (after.traitFor key (walk.tokenOf key) (setting.signatures.get key) lineage)

theorem allKnown_request {walk : Walk} (hlasting : Lasting holds)
    (hall : AllKnown holds walk.identities (find? setting walk)) (key : TraitKey) :
    AllKnown holds (walk.request key).identities (find? setting (walk.request key)) :=
  hall.mono hlasting (walk.evolves_request key)

theorem allKnown_add {walk : Walk} (hall : AllKnown holds walk.identities (find? setting walk))
    {trait : Trait} (htrait : holds walk.identities trait) :
    AllKnown holds (walk.add trait).identities (find? setting (walk.add trait)) := by
  intro token other hfind
  change (setting.known.find? token).or ((walk.built.insert trait.identity trait).find? token) =
    some other at hfind
  rw [Table.find?_insert, Option.or_eq_some_iff] at hfind
  rcases hfind with hknown | ⟨hunknown, hbuilt⟩
  · apply hall token other
    rw [find?, hknown, Option.some_or]
  · split at hbuilt
    · cases hbuilt
      exact htrait
    · apply hall token other
      rw [find?, hunknown, Option.none_or, hbuilt]

mutual

/-- **What holds of known and of new traits holds of all that is found.** -/
theorem Resolves.allKnown {path : List TraitKey} {key : TraitKey} {walk after : Walk}
    {result : Except DefineError Trait} :
    Resolves setting path key walk result after → Lasting holds → Ensures setting holds →
      AllKnown holds walk.identities (find? setting walk) →
        AllKnown holds after.identities (find? setting after)
  | .found _, hlasting, _, hall => allKnown_request hlasting hall key
  | .stopped _ parents, hlasting, hensures, hall =>
      parents.allKnown hlasting hensures (allKnown_request hlasting hall key)
  | .conflicting _ parents _, hlasting, hensures, hall =>
      parents.allKnown hlasting hensures (allKnown_request hlasting hall key)
  | .built _ parents hconflict, hlasting, hensures, hall =>
      allKnown_add (parents.allKnown hlasting hensures (allKnown_request hlasting hall key))
        (hensures parents hconflict)

theorem Gathers.allKnown {path parents : List TraitKey} {lineage : Lineage} {walk after : Walk}
    {result : Except DefineError Lineage} :
    Gathers setting path parents lineage walk result after → Lasting holds →
      Ensures setting holds → AllKnown holds walk.identities (find? setting walk) →
        AllKnown holds after.identities (find? setting after)
  | .done, _, _, hall => hall
  | .cyclic _ _, _, _, hall => hall
  | .truncated _ _ others, hlasting, hensures, hall => others.allKnown hlasting hensures hall
  | .failed _ first, hlasting, hensures, hall => first.allKnown hlasting hensures hall
  | .added _ first others, hlasting, hensures, hall =>
      others.allKnown hlasting hensures (first.allKnown hlasting hensures hall)

end

end Walk

/-! ## Hierarchies -/

namespace Hierarchy

variable {hierarchy : Hierarchy} {identities : Identities}

/-- What holds of the traits of a hierarchy and of those that are built holds of all afterwards. -/
theorem define_allKnown (hidentities : identities.WellFormed)
    (hlookup : WellFormedLookup hierarchy.find?) (hlasting : Lasting holds)
    {signatures : Signatures} {policy : CyclePolicy}
    (hensures : Walk.Ensures (hierarchy.setting signatures policy) holds) (key : TraitKey)
    (nextSerial : Nat) (hall : AllKnown holds identities hierarchy.find?) :
    let defined := hierarchy.define signatures policy key identities nextSerial
    AllKnown holds defined.identities defined.hierarchy.find? :=
  define_keeps hidentities hlookup signatures policy key nextSerial
    (fun hfound hevolves => hfound.mono hlasting hevolves)
    (fun hresolves _ hfound => hresolves.allKnown hlasting hensures hfound) hall

/-- **What holds of every trait when it is built holds of all traits there can be.** -/
theorem Reachable.allKnown (hreachable : hierarchy.Reachable identities)
    (hlasting : Lasting holds) (hensures : ∀ setting, Walk.Ensures setting holds) :
    AllKnown holds identities hierarchy.find? := by
  induction hreachable with
  | empty _ => exact nofun
  | evolve _ hevolves ih => exact ih.mono hlasting hevolves
  | define hbefore signatures policy key nextSerial ih =>
      exact define_allKnown hbefore.identities_wellFormed hbefore.wellFormedLookup hlasting
        (hensures _) key nextSerial ih

/-- What holds of every trait when it is built holds of those that a definition adds. -/
theorem Reachable.holds_of_new (hreachable : hierarchy.Reachable identities)
    (hlasting : Lasting holds) {signatures : Signatures} {policy : CyclePolicy}
    (hensures : Walk.Ensures (hierarchy.setting signatures policy) holds) (key : TraitKey)
    (nextSerial : Nat) :
    let defined := hierarchy.define signatures policy key identities nextSerial
    ∀ trait ∈ defined.hierarchy.traits.values, trait ∉ hierarchy.traits.values →
      holds defined.identities trait := by
  intro defined trait htrait hnew
  -- so that it holds of all of them, those that were there are counted in
  have hlasting : Lasting fun ids other => other ∈ hierarchy.traits.values ∨ holds ids other :=
    fun _ _ _ hother hevolves => hother.imp_right fun hholds => hlasting hholds hevolves
  have hensures : Walk.Ensures (hierarchy.setting signatures policy) fun ids other =>
      other ∈ hierarchy.traits.values ∨ holds ids other :=
    fun _ _ _ _ _ hgathers hconflict => Or.inr (hensures hgathers hconflict)
  have hall := define_allKnown hreachable.identities_wellFormed hreachable.wellFormedLookup
    hlasting hensures key nextSerial
    fun token known hknown => Or.inl ((Table.mem_values_iff _ _).mpr ⟨token, hknown⟩)
  obtain ⟨token, hfind⟩ := (Table.mem_values_iff _ _).mp htrait
  exact (hall token trait hfind).resolve_left hnew

end Hierarchy

end TraitSystem
