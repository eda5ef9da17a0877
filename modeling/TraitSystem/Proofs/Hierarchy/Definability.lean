import TraitSystem.Proofs.Hierarchy.Faithful
import TraitSystem.Proofs.Hierarchy.Outline.Postorder

/-!
# What a definition comes to

Where cycles are rejected, definitions are decided by the graph of the signatures.  A trait can be
defined exactly if it is `Signatures.Definable`, it then has as its ancestors what it extends in the
graph, and otherwise the error points to what is in the way (`ReachableUnder.define_correct`).

It does not matter which traits have been defined before, nor which definitions have failed.  The
result is the one that the empty hierarchy gives, and the ancestors come in the order of a single
depth-first walk (`ReachableUnder.define_eq_fresh`), although it may have taken many walks to
collect them.
-/

namespace TraitSystem

variable {signatures : Signatures} {hierarchy : Hierarchy} {identities : Identities}

namespace Hierarchy

/-! ## Which traits can be defined -/

/-- **A definition that rejects cycles succeeds exactly for definable traits.**  The trait lists
what it extends, and an error names an obstacle. -/
theorem ReachableUnder.define_correct
    (hreachable : hierarchy.ReachableUnder signatures .reject identities) (key : TraitKey)
    (nextSerial : Nat) :
    let defined := hierarchy.define signatures .reject key identities nextSerial
    ((∃ trait, defined.result = .ok trait) ↔ signatures.Definable key) ∧
      (∀ trait, defined.result = .ok trait →
        (∀ ancestor, signatures.Ancestor key ancestor →
          ∃ token ∈ trait.ancestors.map Trait.identity,
            defined.identities.Identifies token ancestor) ∧
        ∀ token ∈ trait.ancestors.map Trait.identity,
          ∃ ancestor, signatures.Ancestor key ancestor ∧
            defined.identities.Identifies token ancestor) ∧
      ∀ error, defined.result = .error error → signatures.Explains key error := by
  intro defined
  obtain ⟨outcome, houtlines, hagrees⟩ := hreachable.outlines key nextSerial
  change Agrees _ defined.result outcome at hagrees
  generalize defined.result = result at hagrees
  cases hagrees with
  | error error =>
      have hexplains := houtlines.explains error rfl (List.forall_mem_nil _)
      refine ⟨⟨nofun, fun hdefinable => absurd hdefinable hexplains.not_definable⟩, nofun, ?_⟩
      intro _ hsame
      cases hsame
      exact hexplains
  | ok hfits =>
      obtain ⟨hsound, -⟩ := houtlines.sound _ rfl
      refine ⟨⟨fun _ => hsound.definable, fun _ => ⟨_, rfl⟩⟩, ?_, nofun⟩
      intro trait hsame
      cases hsame
      refine ⟨fun ancestor hancestor => ?_, fun token htoken => ?_⟩
      · have hlisted := (hsound.mem_iff ancestor).mpr hancestor
        exact exists_of_forall₂ (List.Forall₂.flip hfits.identities) hlisted
      · obtain ⟨ancestor, hancestor, hidentifies⟩ := exists_of_forall₂ hfits.identities htoken
        exact ⟨ancestor, (hsound.mem_iff ancestor).mp hancestor, hidentifies⟩

/-- A diamond, a trait below it that declares a method of its top again, and a circle beside. -/
def diamond : Signatures where
  custom := Table.ofList
    [(customKey "Base", ⟨[], [("base", none)]⟩),
      (customKey "Left", ⟨[customKey "Base"], [("side", none)]⟩),
      (customKey "Right", ⟨[customKey "Base"], [("side", none)]⟩),
      (customKey "Both", ⟨[customKey "Left", customKey "Right"], []⟩),
      (customKey "Again", ⟨[customKey "Both"], [("base", none)]⟩),
      (customKey "Round", ⟨[customKey "Right", customKey "Square"], []⟩),
      (customKey "Square", ⟨[customKey "Round"], []⟩)]

/-- The hierarchy of the diamond after the circle was refused and one side was defined. -/
def sideways : Definition :=
  let refused := empty.define diamond .reject (customKey "Square") .empty 0
  refused.hierarchy.define diamond .reject (customKey "Right") refused.identities
    refused.nextSerial

theorem reachableUnder_sideways :
    sideways.hierarchy.ReachableUnder diamond .reject sideways.identities :=
  ((ReachableUnder.empty (Identities.Evolves.refl _)).define _ _).define _ _

/-- All of the diamond can be defined then, but neither the trait below it nor the circle. -/
theorem define_correct_diamond :
    let define (name : String) := (sideways.hierarchy.define diamond .reject (customKey name)
      sideways.identities sideways.nextSerial).result.map fun trait =>
        trait.ancestors.map Trait.name
    define "Both" = .ok ["Base", "Left", "Right"] ∧ diamond.Definable (customKey "Both") ∧
      define "Again" = .error (.conflictingMethod "base" "Again" "Base") ∧
        ¬ diamond.Definable (customKey "Again") ∧
      define "Round" = .error (.cyclicAncestry "Round" ["Round", "Square", "Round"]) ∧
        ∃ below, diamond.Reaches (customKey "Round") below ∧ diamond.Ancestor below below := by
  intro define
  have hboth : define "Both" = .ok ["Base", "Left", "Right"] := by decide +kernel
  have hagain : define "Again" = .error (.conflictingMethod "base" "Again" "Base") := by
    decide +kernel
  have hround : define "Round" = .error (.cyclicAncestry "Round" ["Round", "Square", "Round"]) := by
    decide +kernel
  have hcorrect (name : String) : ((define name).isOk ↔ diamond.Definable (customKey name)) ∧
      ∀ error, define name = .error error → diamond.Explains (customKey name) error := by
    obtain ⟨hdefinable, -, hexplains⟩ :=
      reachableUnder_sideways.define_correct (customKey name) sideways.nextSerial
    rw [← hdefinable]
    unfold define
    cases hresult : (sideways.hierarchy.define diamond .reject (customKey name) _ _).result with
    | ok trait => exact ⟨iff_of_true rfl ⟨trait, rfl⟩, nofun⟩
    | error error =>
        refine ⟨iff_of_false nofun nofun, ?_⟩
        intro _ hsame
        cases hsame
        exact hexplains error hresult
  refine ⟨hboth, (hcorrect "Both").1.mp ?_, hagain, mt (hcorrect "Again").1.mpr ?_, hround,
    (hcorrect "Round").2 _ hround⟩
  · rw [hboth]
    rfl
  · rw [hagain]
    nofun

/-! ## Definitions do not depend on history -/

end Hierarchy

/-- What a definition comes to, without what is built anew for every definition. -/
structure Trait.Profile where
  /-- The token of the trait. -/
  identity : Token
  /-- The name under which it is shown. -/
  name : String
  /-- Its methods in order, and whether they have default bodies. -/
  methods : List (String × Bool)
  /-- The tokens of its parents. -/
  parents : List Token
  /-- The tokens of its ancestors. -/
  ancestors : List Token
  deriving DecidableEq, Repr

/-- The profile of a trait. -/
def Trait.profile (trait : Trait) : Trait.Profile where
  identity := trait.identity
  name := trait.name
  methods := trait.methods.shape
  parents := trait.parents
  ancestors := trait.ancestors.map Trait.identity

/-- Traits that fit the same outline have the same profile. -/
theorem Trait.Fits.profile_eq (hidentities : identities.WellFormed) {key : TraitKey}
    {trait other : Trait} {outline : Outline}
    (htrait : trait.Fits signatures identities key outline)
    (hother : other.Fits signatures identities key outline) : trait.profile = other.profile := by
  have hunique := hidentities.biUnique.1
  have hidentity : trait.identity = other.identity := hunique htrait.identity hother.identity
  have hname : trait.name = other.name := htrait.name.trans hother.name.symm
  have hmethods : trait.methods.shape = other.methods.shape := htrait.shape.trans hother.shape.symm
  have hparents : trait.parents = other.parents :=
    List.left_unique_forall₂' hunique htrait.follows.parents hother.follows.parents
  have hancestors : trait.ancestors.map Trait.identity = other.ancestors.map Trait.identity :=
    List.left_unique_forall₂' hunique htrait.identities hother.identities
  unfold Trait.profile
  rw [hidentity, hname, hmethods, hparents, hancestors]

namespace Hierarchy

/-- **A definition that rejects cycles comes to what it would come to in the empty hierarchy.**  The
ancestors are those that a depth-first walk lists, in its order. -/
theorem ReachableUnder.define_eq_fresh
    (hreachable : hierarchy.ReachableUnder signatures .reject identities) (key : TraitKey)
    (nextSerial freshSerial : Nat) :
    let defined := hierarchy.define signatures .reject key identities nextSerial
    let fresh := Hierarchy.empty.define signatures .reject key identities freshSerial
    defined.result.map Trait.profile = fresh.result.map Trait.profile ∧
      defined.identities = fresh.identities ∧
      ∀ trait, defined.result = .ok trait →
        List.Forall₂ defined.identities.Identifies (trait.ancestors.map Trait.identity)
          ((signatures.postorder key).filter (· ≠ key)) := by
  intro defined fresh
  have hidentities := hreachable.reachable.identities_wellFormed
  obtain ⟨outcome, houtlines, hagrees⟩ := hreachable.outlines key nextSerial
  obtain ⟨freshOutcome, hfreshOutlines, hfreshAgrees, -⟩ :=
    define_agrees hidentities wellFormedLookup_empty faithful_empty key freshSerial
  obtain ⟨houtcome, hsame⟩ := houtlines.unique hfreshOutlines
  subst houtcome
  rw [← hsame] at hfreshAgrees
  refine ⟨?_, hsame, ?_⟩
  · have hafter := houtlines.evolves.wellFormed hidentities
    exact hagrees.map_eq hfreshAgrees fun _ _ _ htrait hother => htrait.profile_eq hafter hother
  · intro trait hresult
    change Agrees _ defined.result outcome at hagrees
    rw [hresult] at hagrees
    cases hagrees with
    | ok hfits =>
        rw [houtlines.filter_postorder]
        exact hfits.identities

/-- In the empty hierarchy, too, the diamond can be defined and the circle cannot. -/
theorem define_eq_fresh_diamond :
    let define (hierarchy : Hierarchy) (name : String) :=
      (hierarchy.define diamond .reject (customKey name) sideways.identities
        sideways.nextSerial).result.map Trait.profile
    (define sideways.hierarchy "Both").isOk ∧
      define sideways.hierarchy "Both" = define .empty "Both" ∧
      define sideways.hierarchy "Round" = define .empty "Round" ∧
      diamond.postorder (customKey "Both") = ["Base", "Left", "Right", "Both"].map customKey := by
  intro define
  have hsame (name : String) : define sideways.hierarchy name = define .empty name :=
    (reachableUnder_sideways.define_eq_fresh (customKey name) sideways.nextSerial
      sideways.nextSerial).1
  have hpostorder : diamond.postorder (customKey "Both") =
      ["Base", "Left", "Right", "Both"].map customKey := by
    have hboth : (diamond.get (customKey "Both")).parents = [customKey "Left", customKey "Right"] :=
      by decide
    have hleft : (diamond.get (customKey "Left")).parents = [customKey "Base"] := by decide
    have hright : (diamond.get (customKey "Right")).parents = [customKey "Base"] := by decide
    have hbase : (diamond.get (customKey "Base")).parents = [] := by decide
    have hkeys (first second : String) : customKey first = customKey second ↔ first = second := by
      simp [customKey]
    simp [Signatures.postorder, Signatures.traverse, hkeys, hboth, hleft, hright, hbase]
  exact ⟨by decide +kernel, hsame "Both", hsame "Round", hpostorder⟩

end Hierarchy

end TraitSystem
