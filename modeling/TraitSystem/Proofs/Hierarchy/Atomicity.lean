import TraitSystem.Proofs.Hierarchy.Reachable

/-!
# Definitions are all or nothing

A walk builds whatever it comes across, and it may come across many traits before it meets an error.
Only a walk that succeeds is committed, so an error leaves the hierarchy alone.  A committed walk
adds the trait that was asked for and those of its ancestors that were missing, and nothing else
(`Reachable.define_atomic`).

## Strategy

That nothing is missing afterwards is well-formedness: all ancestors of a trait in a hierarchy are
in it.  That nothing is added in vain is a matter of the walk (`Resolves.finds_only`).  Whatever is
built for the sake of a parent is an ancestor of the trait in front of the path from then on, since
gathering never drops an ancestor.  A parent that is left out because it closes a cycle is on the
path, so nothing is built for its sake.
-/

namespace TraitSystem

/-! ## What a walk builds -/

namespace Walk

variable {setting : Setting}

/-- All that one walk finds beyond another one is in a list of traits. -/
def FindsOnly (setting : Setting) (walk after : Walk) (added : List Trait) : Prop :=
  ∀ token trait, find? setting after token = some trait →
    find? setting walk token = some trait ∨ trait ∈ added

theorem FindsOnly.refl (walk : Walk) (added : List Trait) : FindsOnly setting walk walk added :=
  fun _ _ hfind => Or.inl hfind

theorem FindsOnly.trans {first second third : Walk} {added all : List Trait}
    (hfirst : FindsOnly setting first second added) (hsecond : FindsOnly setting second third all)
    (hadded : ∀ trait ∈ added, trait ∈ all) : FindsOnly setting first third all := by
  intro token trait hfind
  rcases hsecond token trait hfind with hbetween | hlate
  · exact (hfirst token trait hbetween).imp_right (hadded trait)
  · exact Or.inr hlate

mutual

/-- Resolving builds the trait and ancestors of it. -/
theorem Resolves.finds_only {path : List TraitKey} {key : TraitKey} {walk after : Walk}
    {result : Except DefineError Trait} :
    Resolves setting path key walk result after → ∀ trait, result = .ok trait → key ∉ path →
      Sound setting path walk → FindsOnly setting walk after (trait.ancestors ++ [trait])
  | .found _ => fun _ _ _ _ => FindsOnly.refl walk _
  | .stopped _ _ => nofun
  | .conflicting _ _ _ => nofun
  | @Resolves.built _ _ _ _ gathered lineage hnew parents _ => by
      intro _ hresult offPath hsound
      cases hresult
      have hentered := hsound.enter hnew
      obtain ⟨hgathered, -, hlineage⟩ := parents.sound lineage rfl hentered
        Lineage.wellFormed_empty
      obtain ⟨-, honly⟩ := parents.finds_only lineage rfl hentered Lineage.wellFormed_empty
      let trait := gathered.traitFor key (walk.tokenOf key) (setting.signatures.get key) lineage
      have htoken := parents.evolves.extends.tokens _ _ (walk.find?_request key)
      obtain ⟨hnone, -⟩ := hgathered.leave trait offPath htoken hlineage
      intro token other hfind
      rw [find?_add gathered hnone] at hfind
      split at hfind
      · cases hfind
        exact Or.inr (List.mem_append_right _ (List.mem_singleton_self _))
      · exact (honly token other hfind).imp_right (List.mem_append_left _)

/-- Gathering builds ancestors only, and drops none. -/
theorem Gathers.finds_only {path parents : List TraitKey} {lineage : Lineage} {walk after : Walk}
    {result : Except DefineError Lineage} :
    Gathers setting path parents lineage walk result after → ∀ gathered, result = .ok gathered →
      Sound setting path walk → lineage.WellFormed (find? setting walk) →
        (∀ ancestor ∈ lineage.ancestors, ancestor ∈ gathered.ancestors) ∧
          FindsOnly setting walk after gathered.ancestors
  | .done => by
      intro gathered hresult _ _
      cases hresult
      exact ⟨fun _ hancestor => hancestor, FindsOnly.refl walk _⟩
  | .cyclic _ _ => nofun
  | .truncated _ _ others => others.finds_only
  | .failed _ _ => nofun
  | @Gathers.added _ _ _ _ _ _ between _ trait _ offPath first others => by
      intro gathered hresult hsound hlineage
      obtain ⟨hbetween, hmore, hfind⟩ := first.sound _ rfl offPath hsound
      have hparent := (hbetween.lookup.wellFormed _ _ hfind).toListed
      have hknown := hlineage.mono hmore
      have hmem := Lineage.mem_ancestors_addParent hknown.toListed hparent hfind
      obtain ⟨hkept, hlate⟩ := others.finds_only gathered hresult hbetween
        (hknown.addParent hparent hfind)
      -- the parent and its ancestors are ancestors by now
      have hgathered : ∀ other ∈ trait.ancestors ++ [trait], other ∈ gathered.ancestors := by
        intro other hother
        apply hkept
        rw [List.mem_append, List.mem_singleton] at hother
        exact (hmem other).mpr (Or.inr hother)
      refine ⟨?_, (first.finds_only _ rfl offPath hsound).trans hlate hgathered⟩
      intro ancestor hancestor
      exact hkept ancestor ((hmem ancestor).mpr (Or.inl hancestor))

end

end Walk

/-! ## Definitions -/

namespace Hierarchy

variable {hierarchy : Hierarchy} {identities : Identities}

/-- A definition that fails leaves the hierarchy as it was. -/
theorem hierarchy_of_define_eq_error {signatures : Signatures} {policy : CyclePolicy}
    {key : TraitKey} {nextSerial : Nat} {error : DefineError}
    (hresult : (hierarchy.define signatures policy key identities nextSerial).result =
      .error error) :
    (hierarchy.define signatures policy key identities nextSerial).hierarchy = hierarchy := by
  cases hfind : hierarchy.find? (identities.ofType (.trait key)).1 with
  | some trait => rw [hierarchy.define_of_found signatures policy key identities nextSerial hfind]
  | none =>
      obtain ⟨result, walk, -, hdefine⟩ :=
        hierarchy.define_of_new signatures policy key identities nextSerial hfind
      rw [hdefine] at hresult ⊢
      cases hresult
      rfl

/-- All that a definition adds is the trait and ancestors of it. -/
theorem find?_of_find?_define (hidentities : identities.WellFormed)
    (hlookup : WellFormedLookup hierarchy.find?) {signatures : Signatures} {policy : CyclePolicy}
    {key : TraitKey} {nextSerial : Nat} {trait : Trait}
    (hresult : (hierarchy.define signatures policy key identities nextSerial).result = .ok trait)
    {token : Token} {other : Trait}
    (hother : (hierarchy.define signatures policy key identities nextSerial).hierarchy.find? token =
      some other) :
    hierarchy.find? token = some other ∨ other ∈ trait.ancestors ++ [trait] := by
  cases hfind : hierarchy.find? (identities.ofType (.trait key)).1 with
  | some known =>
      rw [hierarchy.define_of_found signatures policy key identities nextSerial hfind] at hother
      exact Or.inl hother
  | none =>
      obtain ⟨result, walk, hresolves, hdefine⟩ :=
        hierarchy.define_of_new signatures policy key identities nextSerial hfind
      rw [hdefine] at hresult hother
      cases hresult
      have hfresh := hresolves.fresh (hierarchy.fresh_begin _ _ _ _ _)
      change (hierarchy.commit walk).find? token = some other at hother
      rw [hierarchy.find?_commit signatures policy hfresh] at hother
      have honly := hresolves.finds_only trait rfl List.not_mem_nil
        (sound_begin hidentities hlookup signatures policy key nextSerial)
      exact (find?_begin ..) ▸ honly token other hother

/-- The trait that was asked for has a token and a name afterwards. -/
theorem settled_define (signatures : Signatures) (policy : CyclePolicy) (key : TraitKey)
    (nextSerial : Nat) :
    (hierarchy.define signatures policy key identities nextSerial).identities.Settled
      (.trait key) := by
  have hrequested := identities.settled_ofType (.trait key)
  cases hfind : hierarchy.find? (identities.ofType (.trait key)).1 with
  | some known =>
      rw [hierarchy.define_of_found signatures policy key identities nextSerial hfind]
      exact hrequested
  | none =>
      obtain ⟨result, walk, hresolves, hdefine⟩ :=
        hierarchy.define_of_new signatures policy key identities nextSerial hfind
      rw [hdefine]
      exact hrequested.mono hresolves.evolves.extends

/-- **A definition is all or nothing.**  If it fails, the hierarchy is as it was.  If it succeeds,
the hierarchy holds what it held, and under their identities the trait and those of its ancestors
that it did not hold.  From then on the same trait is answered and nothing changes any more,
whatever the signatures say and the policy is. -/
theorem Reachable.define_atomic (hreachable : hierarchy.Reachable identities)
    (signatures : Signatures) (policy : CyclePolicy) (key : TraitKey) (nextSerial : Nat) :
    let defined := hierarchy.define signatures policy key identities nextSerial
    (∀ error, defined.result = .error error → defined.hierarchy = hierarchy) ∧
      ∀ trait, defined.result = .ok trait →
        (∀ token other, defined.hierarchy.find? token = some other ↔
          hierarchy.find? token = some other ∨ hierarchy.find? token = none ∧
            other.identity = token ∧ (other = trait ∨ other ∈ trait.ancestors)) ∧
        ∀ later changed other serial, defined.identities.Extends later →
          defined.hierarchy.define changed other key later serial =
            { result := .ok trait, hierarchy := defined.hierarchy, identities := later,
              nextSerial := serial } := by
  intro defined
  have hidentities := hreachable.identities_wellFormed
  have hlookup := hreachable.wellFormedLookup
  have hafter : defined.hierarchy.Reachable defined.identities :=
    hreachable.define signatures policy key nextSerial
  refine ⟨fun error => hierarchy_of_define_eq_error, fun trait hresult => ⟨?_, ?_⟩⟩
  · intro token other
    constructor
    · intro hother
      rcases find?_of_find?_define hidentities hlookup hresult hother with hheld | hadded
      · exact Or.inl hheld
      · rw [List.mem_append, List.mem_singleton, or_comm] at hadded
        cases hold : hierarchy.find? token with
        | none => exact Or.inr ⟨rfl, hafter.wellFormedLookup.own token other hother, hadded⟩
        | some known =>
            -- what was held under the token is still held there
            have hkept := hierarchy.find?_define signatures policy key identities nextSerial hold
            exact Or.inl (hkept.symm.trans hother)
    · rintro (hheld | ⟨-, rfl, hadded⟩)
      · exact hierarchy.find?_define signatures policy key identities nextSerial hheld
      · have htrait := (define_sound hidentities hlookup signatures policy key nextSerial).2 trait
          hresult
        rcases hadded with rfl | hancestor
        · exact htrait
        · exact (hafter.wellFormedLookup.wellFormed _ _ htrait).shared other hancestor
  · intro later changed policy serial hextends
    have htoken := find?_define_identity hlookup hresult
    have htrait := (define_sound hidentities hlookup signatures _ key nextSerial).2 trait hresult
    rw [define_eq _ _ _ _ _ _ (hextends.tokens _ _ htoken) htrait,
      ((settled_define signatures _ key nextSerial).mono hextends).ofType_eq]

/-- The circle with two more traits above it, both of which extend a trait that is nowhere yet. -/
def raised : Signatures :=
  (circle.declare (customKey "Clash") ⟨[customKey "Spare", customKey "Right"], [("side", none)]⟩)
    |>.declare (customKey "Other") ⟨[customKey "Right", customKey "Spare"], []⟩

/-- When the circle is there, one of them cannot be defined, and the trait that its walk has built
is gone.  The other one brings that trait along, and is answered again under another policy when the
signatures say otherwise. -/
theorem define_atomic_raised :
    let held := empty.define raised .truncate (customKey "Top") .empty 0
    let define (name : String) :=
      held.hierarchy.define raised .reject (customKey name) held.identities held.nextSerial
    let names (hierarchy : Hierarchy) := hierarchy.traits.values.map Trait.name
    (define "Clash").result.map Trait.name =
        .error (.conflictingMethod "side" "Clash" "Right") ∧
      (define "Clash").hierarchy = held.hierarchy ∧
      names held.hierarchy = ["Bottom", "Left", "Right", "Top"] ∧
      names (define "Other").hierarchy = ["Bottom", "Left", "Right", "Top", "Spare", "Other"] ∧
      ∃ trait, (define "Other").result = .ok trait ∧
        (∀ token other, (define "Other").hierarchy.find? token = some other ↔
          held.hierarchy.find? token = some other ∨ held.hierarchy.find? token = none ∧
            other.identity = token ∧ (other = trait ∨ other ∈ trait.ancestors)) ∧
        (define "Other").hierarchy.define circle .truncate (customKey "Other")
            (define "Other").identities 0 =
          { result := .ok trait, hierarchy := (define "Other").hierarchy,
            identities := (define "Other").identities, nextSerial := 0 } := by
  intro held define names
  have hheld : held.hierarchy.Reachable held.identities :=
    (Reachable.empty (Identities.Evolves.refl _)).define _ _ _ _
  have hatomic (name : String) :=
    hheld.define_atomic raised .reject (customKey name) held.nextSerial
  have hclash : (define "Clash").result.map Trait.name =
      .error (.conflictingMethod "side" "Clash" "Right") := by decide +kernel
  have hother : (define "Other").result.isOk := by decide +kernel
  have hunchanged : (define "Clash").hierarchy = held.hierarchy := by
    cases hresult : (define "Clash").result with
    | ok trait =>
        rw [hresult] at hclash
        cases hclash
    | error error => exact (hatomic "Clash").1 error hresult
  cases hresult : (define "Other").result with
  | error error =>
      rw [hresult] at hother
      cases hother
  | ok trait =>
      obtain ⟨hadded, hagain⟩ := (hatomic "Other").2 trait hresult
      exact ⟨hclash, hunchanged, by decide +kernel, by decide +kernel, trait, rfl, hadded,
        hagain _ circle .truncate 0 (Identities.Extends.refl _)⟩

end Hierarchy

end TraitSystem
