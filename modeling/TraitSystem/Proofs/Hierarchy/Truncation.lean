import TraitSystem.Proofs.Hierarchy.Definability

/-!
# Leaving out the edges that close cycles

The two policies share one walk, which asks for the policy only where a parent is on the path.
Rejecting ends there with an error that reports a cycle.  So whatever else rejecting comes to,
truncating comes to the same (`Resolves.relax`), and truncating reports no cycle.

An edge that is left out adds nothing to a lineage, and all others are edges of the graph.  As long
as the signatures stand, the ancestors of a trait are therefore among those that it has in the
graph, whatever the policies were (`BuiltUnder.confined`).  In the graph a trait may extend itself,
but it is never among its own ancestors.
-/

namespace TraitSystem

/-! ## Reports of cycles -/

/-- A result that reports a trait as extending itself. -/
def ReportsCycle {α : Type} (result : Except DefineError α) : Prop :=
  ∃ trait chain, result = .error (.cyclicAncestry trait chain)

/-- What an error reports does not depend on what failed with it. -/
theorem ReportsCycle.of_error {α β : Type} {error : DefineError}
    (hcycle : ReportsCycle (.error error : Except DefineError α)) :
    ReportsCycle (.error error : Except DefineError β) := by
  obtain ⟨trait, chain, hsame⟩ := hcycle
  cases hsame
  exact ⟨trait, chain, rfl⟩

instance {α : Type} (result : Except DefineError α) : Decidable (ReportsCycle result) :=
  match result with
  | .error (.cyclicAncestry _ _) => isTrue ⟨_, _, rfl⟩
  | .error (.conflictingMethod _ _ _) => isFalse nofun
  | .ok _ => isFalse nofun

/-- The setting in which the edges that close cycles are left out. -/
def Setting.relaxed (setting : Setting) : Setting := { setting with policy := .truncate }

namespace Walk

variable {setting : Setting}

mutual

/-- **A walk that rejects cycles and reports none goes the same way where they are truncated.** -/
theorem Resolves.relax {path : List TraitKey} {key : TraitKey} {walk after : Walk}
    {result : Except DefineError Trait} :
    Resolves setting path key walk result after → setting.policy = .reject →
      ¬ ReportsCycle result → Resolves setting.relaxed path key walk result after
  | .found hfind, _, _ => .found hfind
  | .stopped hnew parents, hpolicy, hcycle =>
      .stopped hnew (parents.relax hpolicy (mt ReportsCycle.of_error hcycle))
  | .conflicting hnew parents hconflict, hpolicy, _ =>
      .conflicting hnew (parents.relax hpolicy nofun) hconflict
  | .built hnew parents hconflict, hpolicy, _ => .built hnew (parents.relax hpolicy nofun) hconflict

theorem Gathers.relax {path parents : List TraitKey} {lineage : Lineage} {walk after : Walk}
    {result : Except DefineError Lineage} :
    Gathers setting path parents lineage walk result after → setting.policy = .reject →
      ¬ ReportsCycle result → Gathers setting.relaxed path parents lineage walk result after
  | .done, _, _ => .done
  | .cyclic _ _, _, hcycle => absurd ⟨_, _, rfl⟩ hcycle
  | .truncated _ htruncate _, hpolicy, _ => by
      rw [hpolicy] at htruncate
      cases htruncate
  | .failed offPath first, hpolicy, hcycle =>
      .failed offPath (first.relax hpolicy (mt ReportsCycle.of_error hcycle))
  | .added offPath first others, hpolicy, hcycle =>
      .added offPath (first.relax hpolicy nofun) (others.relax hpolicy hcycle)

end

mutual

/-- Where cycles are truncated, none is reported. -/
theorem Resolves.not_reportsCycle {path : List TraitKey} {key : TraitKey} {walk after : Walk}
    {result : Except DefineError Trait} :
    Resolves setting path key walk result after → setting.policy = .truncate →
      ¬ ReportsCycle result
  | .found _, _ => nofun
  | .stopped _ parents, hpolicy => mt ReportsCycle.of_error (parents.not_reportsCycle hpolicy)
  | .conflicting _ _ _, _ => nofun
  | .built _ _ _, _ => nofun

theorem Gathers.not_reportsCycle {path parents : List TraitKey} {lineage : Lineage}
    {walk after : Walk} {result : Except DefineError Lineage} :
    Gathers setting path parents lineage walk result after → setting.policy = .truncate →
      ¬ ReportsCycle result
  | .done, _ => nofun
  | .cyclic _ hreject, hpolicy => by
      rw [hpolicy] at hreject
      cases hreject
  | .truncated _ _ others, hpolicy => others.not_reportsCycle hpolicy
  | .failed _ first, hpolicy => mt ReportsCycle.of_error (first.not_reportsCycle hpolicy)
  | .added _ _ others, hpolicy => others.not_reportsCycle hpolicy

end

end Walk

/-! ## Ancestors in the graph -/

variable {signatures : Signatures} {ids later : Identities}

/-- All traits of a list have the identities of ancestors that a key has in the graph. -/
def ExtendedBy (signatures : Signatures) (ids : Identities) (key : TraitKey)
    (ancestors : List Trait) : Prop :=
  ∀ ancestor ∈ ancestors, ∃ other, signatures.Ancestor key other ∧
    ids.Identifies ancestor.identity other

theorem ExtendedBy.mono {key : TraitKey} {ancestors : List Trait}
    (hextended : ExtendedBy signatures ids key ancestors) (hextends : ids.Extends later) :
    ExtendedBy signatures later key ancestors := by
  intro ancestor hancestor
  obtain ⟨other, hother, hidentifies⟩ := hextended ancestor hancestor
  exact ⟨other, hother, hidentifies.mono hextends⟩

/-- A parent of a key adds itself and what it extends, all of which the key extends. -/
theorem ExtendedBy.addParent {key parent : TraitKey} {lineage : Lineage} {trait : Trait}
    (hextended : ExtendedBy signatures ids key lineage.ancestors)
    (hparent : signatures.Extends key parent) (hidentity : ids.Identifies trait.identity parent)
    (htrait : ExtendedBy signatures ids parent trait.ancestors) :
    ExtendedBy signatures ids key (lineage.addParent trait).ancestors := by
  intro ancestor hancestor
  rcases Lineage.of_mem_ancestors_addParent hancestor with hold | hof | rfl
  · exact hextended ancestor hold
  · obtain ⟨other, hother, hidentifies⟩ := htrait ancestor hof
    exact ⟨other, hparent.ancestor.trans_reaches hother.reaches, hidentifies⟩
  · exact ⟨parent, hparent.ancestor, hidentity⟩

/-- A trait of some key that lists no ancestors but those that the key has in the graph. -/
structure Trait.Confined (signatures : Signatures) (ids : Identities) (trait : Trait)
    (key : TraitKey) : Prop where
  identity : ids.Identifies trait.identity key
  ancestors : ExtendedBy signatures ids key trait.ancestors

theorem Trait.Confined.mono {trait : Trait} {key : TraitKey}
    (hconfined : trait.Confined signatures ids key) (hextends : ids.Extends later) :
    trait.Confined signatures later key where
  identity := hconfined.identity.mono hextends
  ancestors := hconfined.ancestors.mono hextends

/-- Everything that a look-up knows is confined to the graph. -/
def Confined (signatures : Signatures) (ids : Identities) (lookup : Token → Option Trait) : Prop :=
  ∀ token trait, lookup token = some trait → ∃ key, trait.Confined signatures ids key

namespace Confined

variable {lookup : Token → Option Trait}

theorem mono (hconfined : Confined signatures ids lookup) (hextends : ids.Extends later) :
    Confined signatures later lookup := by
  intro token trait hfind
  obtain ⟨key, htrait⟩ := hconfined token trait hfind
  exact ⟨key, htrait.mono hextends⟩

/-- What is found under the token of a key is confined to the ancestors of this key. -/
theorem of_find? (hconfined : Confined signatures ids lookup) (hids : ids.WellFormed)
    (hlookup : WellFormedLookup lookup) {token : Token} {key : TraitKey} {trait : Trait}
    (hfind : lookup token = some trait) (htoken : ids.Identifies token key) :
    trait.Confined signatures ids key := by
  obtain ⟨own, htrait⟩ := hconfined token trait hfind
  rw [← hlookup.own token trait hfind] at htoken
  have hown : own = key := hids.biUnique.2 htrait.identity htoken
  rwa [hown] at htrait

end Confined

namespace Walk

variable {setting : Setting}

/-- Everything that a walk finds is confined to the graph. -/
abbrev FindsConfined (setting : Setting) (walk : Walk) : Prop :=
  Confined setting.signatures walk.identities (find? setting walk)

theorem FindsConfined.request {walk : Walk} (hconfined : FindsConfined setting walk)
    (key : TraitKey) : FindsConfined setting (walk.request key) :=
  hconfined.mono (walk.evolves_request key).extends

theorem FindsConfined.add {walk : Walk} (hconfined : FindsConfined setting walk) {trait : Trait}
    (hnew : find? setting walk trait.identity = none) {key : TraitKey}
    (htrait : trait.Confined setting.signatures walk.identities key) :
    FindsConfined setting (walk.add trait) := by
  intro token other hother
  rw [find?_add walk hnew] at hother
  split at hother
  · cases hother
    exact ⟨key, htrait⟩
  · exact hconfined token other hother

mutual

/-- **Resolving leads to a trait that is confined to the graph**, under either policy. -/
theorem Resolves.confined {path : List TraitKey} {key : TraitKey} {walk after : Walk}
    {result : Except DefineError Trait} :
    Resolves setting path key walk result after → ∀ trait, result = .ok trait → key ∉ path →
      Sound setting path walk → FindsConfined setting walk →
        trait.Confined setting.signatures after.identities key ∧ FindsConfined setting after
  | .found hfind => by
      intro trait hresult _ hsound hconfined
      cases hresult
      have hrequested := hconfined.request key
      have hsound := hsound.request key
      exact ⟨hrequested.of_find? hsound.identities hsound.lookup hfind (walk.find?_request key),
        hrequested⟩
  | .stopped _ _ => nofun
  | .conflicting _ _ _ => nofun
  | @Resolves.built _ _ _ _ gathered lineage hnew parents _ => by
      intro _ hresult offPath hsound hconfined
      cases hresult
      have hentered := hsound.enter hnew
      obtain ⟨hextended, hgathered⟩ := parents.confined lineage rfl (fun _ hparent => hparent)
        hentered (hconfined.request key) nofun
      obtain ⟨hsound', -, hlineage⟩ := parents.sound lineage rfl hentered
        Lineage.wellFormed_empty
      -- nothing that the trait extends has built it already
      let trait := gathered.traitFor key (walk.tokenOf key) (setting.signatures.get key) lineage
      have htoken := parents.evolves.extends.tokens _ _ (walk.find?_request key)
      obtain ⟨hfresh, -⟩ := hsound'.leave trait offPath htoken hlineage
      have htrait : trait.Confined setting.signatures gathered.identities key :=
        ⟨htoken, hextended⟩
      exact ⟨htrait, hgathered.add hfresh htrait⟩

/-- Gathering parents of a key adds to the lineage what the key extends. -/
theorem Gathers.confined {path parents : List TraitKey} {key : TraitKey} {lineage : Lineage}
    {walk after : Walk} {result : Except DefineError Lineage} :
    Gathers setting path parents lineage walk result after → ∀ gathered, result = .ok gathered →
      (∀ parent ∈ parents, setting.signatures.Extends key parent) → Sound setting path walk →
        FindsConfined setting walk →
          ExtendedBy setting.signatures walk.identities key lineage.ancestors →
            ExtendedBy setting.signatures after.identities key gathered.ancestors ∧
              FindsConfined setting after
  | .done => by
      intro gathered hresult _ _ hconfined hextended
      cases hresult
      exact ⟨hextended, hconfined⟩
  | .cyclic _ _ => nofun
  | .truncated _ _ others => by
      intro gathered hresult hparents
      exact others.confined gathered hresult fun parent hparent =>
        hparents parent (List.mem_cons_of_mem _ hparent)
  | .failed _ _ => nofun
  | .added offPath first others => by
      intro gathered hresult hparents hsound hconfined hextended
      obtain ⟨htrait, hbetween⟩ := first.confined _ rfl offPath hsound hconfined
      obtain ⟨hsound', -⟩ := first.sound _ rfl offPath hsound
      refine others.confined gathered hresult ?_ hsound' hbetween ?_
      · intro parent hparent
        exact hparents parent (List.mem_cons_of_mem _ hparent)
      · exact (hextended.mono first.evolves.extends).addParent (hparents _ List.mem_cons_self)
          htrait.identity htrait.ancestors

end

end Walk

/-! ## Definitions -/

namespace Hierarchy

variable {hierarchy : Hierarchy} {identities : Identities}

/-- A definition leaves a hierarchy confined, and its answer to the ancestors of the key. -/
theorem define_confined (hidentities : identities.WellFormed)
    (hlookup : WellFormedLookup hierarchy.find?)
    (hconfined : Confined signatures identities hierarchy.find?) (policy : CyclePolicy)
    (key : TraitKey) (nextSerial : Nat) :
    let defined := hierarchy.define signatures policy key identities nextSerial
    Confined signatures defined.identities defined.hierarchy.find? ∧
      ∀ trait, defined.result = .ok trait → trait.Confined signatures defined.identities key := by
  intro defined
  have hafter : Confined signatures defined.identities defined.hierarchy.find? := by
    refine define_keeps hidentities hlookup signatures policy key nextSerial
      (fun hconfined hevolves => hconfined.mono hevolves.extends) ?_ hconfined
    intro walk after trait hresolves hsound hfinds
    exact (hresolves.confined trait rfl List.not_mem_nil hsound hfinds).2
  refine ⟨hafter, ?_⟩
  intro trait hresult
  obtain ⟨hlookup', hfound⟩ := define_sound hidentities hlookup signatures policy key nextSerial
  have hevolves := hierarchy.evolves_define signatures policy key identities nextSerial
  exact hafter.of_find? (hevolves.wellFormed hidentities) hlookup' (hfound trait hresult)
    (find?_define_identity hlookup hresult)

/-- The hierarchies that definitions make of the empty one while all signatures stand, each under a
policy of its own, with the tokens that there are then. -/
inductive BuiltUnder (signatures : Signatures) : Hierarchy → Identities → Prop
  | empty {identities : Identities} (hevolves : Identities.empty.Evolves identities) :
      BuiltUnder signatures .empty identities
  | define {hierarchy : Hierarchy} {identities : Identities}
      (hbuilt : BuiltUnder signatures hierarchy identities) (policy : CyclePolicy) (key : TraitKey)
      (nextSerial : Nat) :
      BuiltUnder signatures
        (hierarchy.define signatures policy key identities nextSerial).hierarchy
        (hierarchy.define signatures policy key identities nextSerial).identities
  | evolve {hierarchy : Hierarchy} {identities later : Identities}
      (hbuilt : BuiltUnder signatures hierarchy identities)
      (hevolves : identities.Evolves later) : BuiltUnder signatures hierarchy later

namespace BuiltUnder

theorem reachable (hbuilt : BuiltUnder signatures hierarchy identities) :
    hierarchy.Reachable identities := by
  induction hbuilt with
  | empty hevolves => exact .empty hevolves
  | define _ policy key nextSerial ih => exact ih.define signatures policy key nextSerial
  | evolve _ hevolves ih => exact ih.evolve hevolves

theorem confined (hbuilt : BuiltUnder signatures hierarchy identities) :
    Confined signatures identities hierarchy.find? := by
  induction hbuilt with
  | empty _ => exact nofun
  | define hbefore policy key nextSerial ih =>
      exact (define_confined hbefore.reachable.identities_wellFormed
        hbefore.reachable.wellFormedLookup ih policy key nextSerial).1
  | evolve _ hevolves ih => exact ih.mono hevolves.extends

end BuiltUnder

/-- Truncating comes to the same as rejecting, unless that reports a cycle. -/
theorem define_truncate_eq (hierarchy : Hierarchy) (signatures : Signatures) (key : TraitKey)
    (identities : Identities) (nextSerial : Nat)
    (hcycle : ¬ ReportsCycle
      (hierarchy.define signatures .reject key identities nextSerial).result) :
    hierarchy.define signatures .truncate key identities nextSerial =
      hierarchy.define signatures .reject key identities nextSerial := by
  cases hfind : hierarchy.find? (identities.ofType (.trait key)).1 with
  | some trait =>
      rw [hierarchy.define_of_found signatures .truncate key identities nextSerial hfind,
        hierarchy.define_of_found signatures .reject key identities nextSerial hfind]
  | none =>
      obtain ⟨result, walk, hresolves, hreject⟩ :=
        hierarchy.define_of_new signatures .reject key identities nextSerial hfind
      obtain ⟨other, otherWalk, hother, htruncate⟩ :=
        hierarchy.define_of_new signatures .truncate key identities nextSerial hfind
      rw [hreject] at hcycle
      obtain ⟨rfl, rfl⟩ := (hresolves.relax rfl hcycle).unique hother
      rw [htruncate, hreject]

theorem not_reportsCycle_define_truncate (hierarchy : Hierarchy) (signatures : Signatures)
    (key : TraitKey) (identities : Identities) (nextSerial : Nat) :
    ¬ ReportsCycle (hierarchy.define signatures .truncate key identities nextSerial).result := by
  cases hfind : hierarchy.find? (identities.ofType (.trait key)).1 with
  | some trait =>
      rw [hierarchy.define_of_found signatures .truncate key identities nextSerial hfind]
      nofun
  | none =>
      obtain ⟨result, walk, hresolves, htruncate⟩ :=
        hierarchy.define_of_new signatures .truncate key identities nextSerial hfind
      rw [htruncate]
      exact hresolves.not_reportsCycle rfl

/-- **Truncating differs from rejecting only where that reports a cycle**, and reports none itself.
As long as the signatures stand, it leads to no ancestors but those in the graph, and the trait is
not among them. -/
theorem define_truncate (hierarchy : Hierarchy) (signatures : Signatures) (key : TraitKey)
    (identities : Identities) (nextSerial : Nat) :
    let rejecting := hierarchy.define signatures .reject key identities nextSerial
    let truncating := hierarchy.define signatures .truncate key identities nextSerial
    (¬ ReportsCycle rejecting.result → truncating = rejecting) ∧
      ¬ ReportsCycle truncating.result ∧
      (hierarchy.BuiltUnder signatures identities → ∀ trait, truncating.result = .ok trait →
        truncating.identities.Identifies trait.identity key ∧
        ∀ ancestor ∈ trait.ancestors, ancestor.identity ≠ trait.identity ∧
          ∃ other, signatures.Ancestor key other ∧
            truncating.identities.Identifies ancestor.identity other) := by
  intro rejecting truncating
  refine ⟨hierarchy.define_truncate_eq signatures key identities nextSerial,
    hierarchy.not_reportsCycle_define_truncate signatures key identities nextSerial, ?_⟩
  intro hbuilt trait hresult
  have hidentities := hbuilt.reachable.identities_wellFormed
  have hlookup := hbuilt.reachable.wellFormedLookup
  obtain ⟨hafter, hanswer⟩ :=
    define_sound hidentities hlookup signatures .truncate key nextSerial
  have htrait := hafter.wellFormed _ _ (hanswer trait hresult)
  obtain ⟨-, hconfined⟩ :=
    define_confined hidentities hlookup hbuilt.confined .truncate key nextSerial
  have hanswered := hconfined trait hresult
  refine ⟨hanswered.identity, ?_⟩
  intro ancestor hancestor
  exact ⟨htrait.not_self ancestor hancestor, hanswered.ancestors ancestor hancestor⟩

/-- Beside the diamond the circle can only be defined by truncating.  All else is the same under
both policies, including the error for the trait below the diamond. -/
theorem define_truncate_diamond :
    let define (policy : CyclePolicy) (name : String) :=
      sideways.hierarchy.define diamond policy (customKey name) sideways.identities
        sideways.nextSerial
    let shown (defined : Definition) :=
      defined.result.map fun trait => trait.ancestors.map Trait.name
    define .truncate "Both" = define .reject "Both" ∧
      shown (define .truncate "Both") = .ok ["Base", "Left", "Right"] ∧
      define .truncate "Again" = define .reject "Again" ∧
      shown (define .truncate "Again") = .error (.conflictingMethod "base" "Again" "Base") ∧
      ReportsCycle (define .reject "Round").result ∧
      shown (define .truncate "Round") = .ok ["Base", "Right", "Square"] ∧
      ∀ trait, (define .truncate "Round").result = .ok trait →
        ∀ ancestor ∈ trait.ancestors, ancestor.identity ≠ trait.identity ∧
          ∃ other, diamond.Ancestor (customKey "Round") other ∧
            (define .truncate "Round").identities.Identifies ancestor.identity other := by
  intro define shown
  have htruncate (name : String) := sideways.hierarchy.define_truncate diamond (customKey name)
    sideways.identities sideways.nextSerial
  have hbuilt : sideways.hierarchy.BuiltUnder diamond sideways.identities :=
    ((BuiltUnder.empty (Identities.Evolves.refl _)).define _ _ _).define _ _ _
  refine ⟨(htruncate "Both").1 (by decide +kernel), by decide +kernel,
    (htruncate "Again").1 (by decide +kernel), by decide +kernel, by decide +kernel,
    by decide +kernel, ?_⟩
  intro trait hresult
  exact ((htruncate "Round").2.2 hbuilt trait hresult).2

end Hierarchy

end TraitSystem
