import TraitSystem.Proofs.Hierarchy.Portrait
import TraitSystem.Proofs.Hierarchy.Reachable

/-!
# Definitions follow outlines

Where cycles are rejected, a walk does what the rules for outlines say, whatever it knows and has
built before (`Resolves.agrees`).  The invariant is that everything known is `Faithful`: it fits the
outline that its key would be given now.  So a trait that is found is the one that the rules would
lead to, on the path of the walk as on any other.

Hence the result of a definition depends on the signatures and the tokens alone
(`Hierarchy.define_agrees`), provided that all earlier definitions were made of the same signatures
and rejected cycles too (`Hierarchy.ReachableUnder`).
-/

namespace TraitSystem

variable {signatures : Signatures}

/-! ## What is known -/

/-- Everything that a look-up knows fits the outline that its key would be given now. -/
def Faithful (signatures : Signatures) (ids : Identities) (lookup : Token → Option Trait) : Prop :=
  ∀ token trait, lookup token = some trait → ∃ key outline,
    Outlines signatures [] key ids (.ok outline) ids ∧ trait.Fits signatures ids key outline

namespace Faithful

variable {ids later : Identities} {lookup : Token → Option Trait}

theorem mono (hfaithful : Faithful signatures ids lookup) (hextends : ids.Extends later) :
    Faithful signatures later lookup := by
  intro token trait hfind
  obtain ⟨key, outline, houtlines, hfits⟩ := hfaithful token trait hfind
  exact ⟨key, outline, houtlines.later hextends, hfits.mono hextends⟩

/-- **A trait that is found is the one that the rules lead to**, on any path to its key. -/
theorem outlines_of_found (hfaithful : Faithful signatures ids lookup) (hids : ids.WellFormed)
    (hlookup : WellFormedLookup lookup) {path : List TraitKey} {key : TraitKey}
    (habove : ∀ above ∈ path, signatures.Ancestor above key) {trait : Trait}
    (hfind : lookup (ids.ofType (.trait key)).1 = some trait) :
    ∃ outline, Outlines signatures path key ids (.ok outline) (ids.ofType (.trait key)).2 ∧
      trait.Fits signatures (ids.ofType (.trait key)).2 key outline := by
  obtain ⟨own, outline, houtlines, hfits⟩ := hfaithful _ trait hfind
  have hevolves := ids.evolves_ofType (.trait key)
  -- the trait has the token of the key, so its own key is no other
  have hown : own = key := by
    have htoken : (ids.ofType (.trait key)).2.Identifies trait.identity key := by
      rw [hlookup.own _ trait hfind]
      exact ids.find?_ofType (.trait key)
    exact (hevolves.wellFormed hids).biUnique.2 (hfits.identity.mono hevolves.extends) htoken
  subst hown
  have hsettled := houtlines.settled outline rfl
  have hrequested : (ids.ofType (.trait own)).2 = ids :=
    (hsettled own (Signatures.Reaches.refl own)).ofType_eq
  obtain ⟨hsound, -⟩ := houtlines.sound outline rfl
  rw [hrequested]
  refine ⟨outline, houtlines.replay outline rfl path ids fun below hbelow => ?_, hfits⟩
  -- on the path it would be above the key, and so above itself
  refine ⟨fun hpath => ?_, hsettled below hbelow⟩
  exact hsound.definable.acyclic below hbelow ((habove below hpath).trans_reaches hbelow)

end Faithful

/-! ## Walks -/

/-- A result is the outcome of the rules, up to what fits what. -/
inductive Agrees {α β : Type} (fits : α → β → Prop) :
    Except DefineError α → Except DefineError β → Prop
  | ok {result : α} {outcome : β} (hfits : fits result outcome) :
      Agrees fits (.ok result) (.ok outcome)
  | error (error : DefineError) : Agrees fits (.error error) (.error error)

/-- Results of one outcome are alike in everything that the outcome settles. -/
theorem Agrees.map_eq {α β γ : Type} {fits : α → β → Prop} {first second : Except DefineError α}
    {outcome : Except DefineError β} (hfirst : Agrees fits first outcome)
    (hsecond : Agrees fits second outcome) {read : α → γ}
    (hread : ∀ a b c, fits a c → fits b c → read a = read b) :
    first.map read = second.map read := by
  cases hfirst with
  | error error =>
      cases hsecond
      rfl
  | ok hfits =>
      cases hsecond with
      | ok hother => exact congrArg Except.ok (hread _ _ _ hfits hother)

namespace Walk

variable {setting : Setting}

/-- Everything that a walk finds is faithful to the signatures. -/
abbrev FindsFaithful (setting : Setting) (walk : Walk) : Prop :=
  Faithful setting.signatures walk.identities (find? setting walk)

theorem FindsFaithful.request {walk : Walk} (hfaithful : FindsFaithful setting walk)
    (key : TraitKey) : FindsFaithful setting (walk.request key) :=
  hfaithful.mono (walk.evolves_request key).extends

theorem FindsFaithful.add {walk : Walk} (hfaithful : FindsFaithful setting walk) {trait : Trait}
    (hnew : find? setting walk trait.identity = none) {path : List TraitKey} {key : TraitKey}
    {before : Identities} {outline : Outline}
    (houtlines : Outlines setting.signatures path key before (.ok outline) walk.identities)
    (hfits : trait.Fits setting.signatures walk.identities key outline) :
    FindsFaithful setting (walk.add trait) := by
  intro token other hother
  rw [find?_add walk hnew] at hother
  split at hother
  · cases hother
    exact ⟨key, outline, houtlines.later (Identities.Extends.refl _), hfits⟩
  · exact hfaithful token other hother

mutual

/-- **Resolving comes to what the rules say.** -/
theorem Resolves.agrees {path : List TraitKey} {key : TraitKey} {walk after : Walk}
    {result : Except DefineError Trait} :
    Resolves setting path key walk result after → setting.policy = .reject → key ∉ path →
      (∀ above ∈ path, setting.signatures.Ancestor above key) → Sound setting path walk →
        FindsFaithful setting walk → ∃ outcome,
          Outlines setting.signatures path key walk.identities outcome after.identities ∧
            Agrees (Trait.Fits setting.signatures after.identities key) result outcome ∧
              ((∃ trait, result = .ok trait) → FindsFaithful setting after)
  | .found hfind => by
      intro _ _ habove hsound hfaithful
      obtain ⟨outline, houtlines, hfits⟩ :=
        hfaithful.outlines_of_found hsound.identities hsound.lookup habove hfind
      exact ⟨.ok outline, houtlines, .ok hfits, fun _ => hfaithful.request key⟩
  | @Resolves.stopped _ _ _ _ _ error hnew parents => by
      intro hpolicy _ habove hsound hfaithful
      obtain ⟨_, hcollects, ⟨_⟩, -⟩ := parents.agrees hpolicy
        (Signatures.ancestor_of_parent habove) (hsound.enter hnew) (hfaithful.request key)
        Lineage.follows_empty
      exact ⟨.error error, .stopped hcollects, .error error, nofun⟩
  | @Resolves.conflicting _ _ _ _ gathered _ method ancestor hnew parents hconflict => by
      intro hpolicy _ habove hsound hfaithful
      obtain ⟨_, hcollects, ⟨hfollows⟩, -⟩ := parents.agrees hpolicy
        (Signatures.ancestor_of_parent habove) (hsound.enter hnew) (hfaithful.request key)
        Lineage.follows_empty
      have hsame := hfollows.conflict?_eq
        ((setting.signatures.get key).shape_methods gathered.nextSerial)
      rw [hconflict] at hsame
      obtain ⟨⟨declared, shadowed⟩, hshadows, hnames⟩ := Option.map_eq_some_iff.mp hsame.symm
      have hmethod : declared = method := congrArg Prod.fst hnames
      have hname : shadowed.name = ancestor.name := congrArg Prod.snd hnames
      subst hmethod
      refine ⟨_, .conflicting hcollects hshadows, ?_, nofun⟩
      rw [hname]
      exact .error _
  | @Resolves.built _ _ _ _ gathered lineage hnew parents hconflict => by
      intro hpolicy offPath habove hsound hfaithful
      have hentered := hsound.enter hnew
      obtain ⟨_, hcollects, ⟨hfollows⟩, hknown⟩ := parents.agrees hpolicy
        (Signatures.ancestor_of_parent habove) hentered (hfaithful.request key)
        Lineage.follows_empty
      have hshape := (setting.signatures.get key).shape_methods gathered.nextSerial
      have hnone := hfollows.conflict?_eq hshape
      rw [hconflict] at hnone
      replace hnone := Option.map_eq_none_iff.mp hnone.symm
      -- the trait that is built fits what was collected, and nothing below has built it already
      let trait := gathered.traitFor key (walk.tokenOf key) (setting.signatures.get key) lineage
      have htoken : gathered.identities.Identifies trait.identity key :=
        parents.evolves.extends.tokens _ _ (walk.find?_request key)
      have hfits : trait.Fits setting.signatures gathered.identities key _ :=
        ⟨⟨htoken, rfl, hshape⟩, hfollows⟩
      obtain ⟨hgathered, -, hlineage⟩ := parents.sound lineage rfl hentered
        Lineage.wellFormed_empty
      obtain ⟨hfresh, -⟩ := hgathered.leave trait offPath htoken hlineage
      have houtlines : Outlines setting.signatures path key walk.identities _ gathered.identities :=
        .outlined hcollects hnone
      exact ⟨_, houtlines, .ok hfits, fun _ => (hknown ⟨lineage, rfl⟩).add hfresh houtlines hfits⟩

theorem Gathers.agrees {path parents : List TraitKey} {lineage : Lineage} {outline : Outline}
    {walk after : Walk} {result : Except DefineError Lineage} :
    Gathers setting path parents lineage walk result after → setting.policy = .reject →
      (∀ above ∈ path, ∀ parent ∈ parents, setting.signatures.Ancestor above parent) →
        Sound setting path walk → FindsFaithful setting walk →
          lineage.Follows setting.signatures walk.identities outline → ∃ outcome,
            Collects setting.signatures path parents outline walk.identities outcome
                after.identities ∧
              Agrees (Lineage.Follows setting.signatures after.identities) result outcome ∧
                ((∃ gathered, result = .ok gathered) → FindsFaithful setting after)
  | .done => by
      intro _ _ _ hfaithful hfollows
      exact ⟨.ok outline, .done, .ok hfollows, fun _ => hfaithful⟩
  | @Gathers.cyclic _ _ _ parent _ _ onPath _ => by
      intro _ _ _ _ _
      exact ⟨.error (cycleError path parent), .cyclic onPath, .error _, nofun⟩
  | .truncated _ hpolicy _ => by
      intro hreject
      rw [hreject] at hpolicy
      cases hpolicy
  | @Gathers.failed _ _ _ _ _ _ _ error offPath first => by
      intro hpolicy habove hsound hfaithful _
      obtain ⟨_, houtlines, ⟨_⟩, -⟩ := first.agrees hpolicy offPath
        (fun above hpath => habove above hpath _ List.mem_cons_self) hsound hfaithful
      exact ⟨.error error, .failed offPath houtlines, .error error, nofun⟩
  | .added offPath first others => by
      intro hpolicy habove hsound hfaithful hfollows
      obtain ⟨_, houtlines, ⟨hfits⟩, hbetween⟩ := first.agrees hpolicy offPath
        (fun above hpath => habove above hpath _ List.mem_cons_self) hsound hfaithful
      obtain ⟨hsound', -⟩ := first.sound _ rfl offPath hsound
      obtain ⟨outcome, hcollects, hagrees, hafter⟩ := others.agrees hpolicy
        (fun above hpath other hother => habove above hpath other (List.mem_cons_of_mem _ hother))
        hsound' (hbetween ⟨_, rfl⟩)
        ((hfollows.mono first.evolves.extends).addParent hsound'.identities hfits)
      exact ⟨outcome, .added offPath houtlines hcollects, hagrees, hafter⟩

end

end Walk

/-! ## Definitions -/

namespace Hierarchy

variable {hierarchy : Hierarchy} {identities : Identities}

theorem faithful_empty : Faithful signatures identities Hierarchy.empty.find? := nofun

/-- **A definition comes to what the rules say**, and leaves the hierarchy faithful. -/
theorem define_agrees (hidentities : identities.WellFormed)
    (hlookup : WellFormedLookup hierarchy.find?)
    (hfaithful : Faithful signatures identities hierarchy.find?) (key : TraitKey)
    (nextSerial : Nat) :
    let defined := hierarchy.define signatures .reject key identities nextSerial
    ∃ outcome, Outlines signatures [] key identities outcome defined.identities ∧
      Agrees (Trait.Fits signatures defined.identities key) defined.result outcome ∧
        Faithful signatures defined.identities defined.hierarchy.find? := by
  intro defined
  have hrequest := identities.evolves_ofType (.trait key)
  cases hfind : hierarchy.find? (identities.ofType (.trait key)).1 with
  | some trait =>
      have hdefined : defined = _ :=
        hierarchy.define_of_found signatures .reject key identities nextSerial hfind
      obtain ⟨outline, houtlines, hfits⟩ :=
        hfaithful.outlines_of_found hidentities hlookup (List.forall_mem_nil _) hfind
      rw [hdefined]
      exact ⟨.ok outline, houtlines, .ok hfits, hfaithful.mono hrequest.extends⟩
  | none =>
      obtain ⟨result, walk, hresolves, hdefined⟩ :=
        hierarchy.define_of_new signatures .reject key identities nextSerial hfind
      have hknown : Walk.FindsFaithful (hierarchy.setting signatures .reject)
          (begin key identities nextSerial) := by
        unfold Walk.FindsFaithful
        rw [find?_begin]
        exact hfaithful.mono hrequest.extends
      obtain ⟨outcome, houtlines, hagrees, hafter⟩ := hresolves.agrees rfl List.not_mem_nil
        (List.forall_mem_nil _)
        (sound_begin hidentities hlookup signatures .reject key nextSerial) hknown
      rw [show defined = _ from hdefined]
      refine ⟨outcome, houtlines.of_ofType, hagrees, ?_⟩
      cases result with
      | error error => exact hfaithful.mono (hrequest.trans hresolves.evolves).extends
      | ok trait =>
          have hcommit : (hierarchy.commit walk).find? =
              Walk.find? (hierarchy.setting signatures .reject) walk :=
            funext (hierarchy.find?_commit signatures .reject
              (hresolves.fresh (hierarchy.fresh_begin _ _ _ _ _)))
          show Faithful signatures walk.identities (hierarchy.commit walk).find?
          rw [hcommit]
          exact hafter ⟨trait, rfl⟩

/-! ## Reachable hierarchies -/

/-- The hierarchies that definitions under one policy make of the empty one while all signatures
stand, with the tokens that there are then. -/
inductive ReachableUnder (signatures : Signatures) (policy : CyclePolicy) :
    Hierarchy → Identities → Prop
  | empty {identities : Identities} (hevolves : Identities.empty.Evolves identities) :
      ReachableUnder signatures policy .empty identities
  | define {hierarchy : Hierarchy} {identities : Identities}
      (hreachable : ReachableUnder signatures policy hierarchy identities) (key : TraitKey)
      (nextSerial : Nat) :
      ReachableUnder signatures policy
        (hierarchy.define signatures policy key identities nextSerial).hierarchy
        (hierarchy.define signatures policy key identities nextSerial).identities
  | evolve {hierarchy : Hierarchy} {identities later : Identities}
      (hreachable : ReachableUnder signatures policy hierarchy identities)
      (hevolves : identities.Evolves later) : ReachableUnder signatures policy hierarchy later

namespace ReachableUnder

theorem reachable {policy : CyclePolicy}
    (hreachable : ReachableUnder signatures policy hierarchy identities) :
    hierarchy.Reachable identities := by
  induction hreachable with
  | empty hevolves => exact .empty hevolves
  | define _ key nextSerial ih => exact ih.define signatures policy key nextSerial
  | evolve _ hevolves ih => exact ih.evolve hevolves

/-- Where cycles are rejected, the hierarchy stays faithful. -/
theorem faithful (hreachable : ReachableUnder signatures .reject hierarchy identities) :
    Faithful signatures identities hierarchy.find? := by
  induction hreachable with
  | empty _ => exact faithful_empty
  | define hbefore key nextSerial ih =>
      obtain ⟨-, -, -, hfaithful⟩ := define_agrees hbefore.reachable.identities_wellFormed
        hbefore.reachable.wellFormedLookup ih key nextSerial
      exact hfaithful
  | evolve _ hevolves ih => exact ih.mono hevolves.extends

/-- What the rules say is what becomes of a trait in every reachable hierarchy. -/
theorem outlines (hreachable : ReachableUnder signatures .reject hierarchy identities)
    (key : TraitKey) (nextSerial : Nat) :
    let defined := hierarchy.define signatures .reject key identities nextSerial
    ∃ outcome, Outlines signatures [] key identities outcome defined.identities ∧
      Agrees (Trait.Fits signatures defined.identities key) defined.result outcome := by
  obtain ⟨outcome, houtlines, hagrees, -⟩ :=
    define_agrees hreachable.reachable.identities_wellFormed hreachable.reachable.wellFormedLookup
      hreachable.faithful key nextSerial
  exact ⟨outcome, houtlines, hagrees⟩

end ReachableUnder

end Hierarchy

end TraitSystem
