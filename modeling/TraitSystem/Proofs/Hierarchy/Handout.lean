import TraitSystem.Proofs.Hierarchy.Meeting
import TraitSystem.Proofs.Hierarchy.Definability
import TraitSystem.Proofs.Identity.Enrolling

/-!
# The tokens that definitions hand out

A definition enrolls traits in pre-order, going down from those that the hierarchy does not hold
(`Reachable.define_enrolls`).  If it succeeds these are all in the pre-order, and those that get
tokens are the trait itself and ancestors of it.  If it fails it has enrolled the first few of them,
and they stay enrolled.
-/

namespace TraitSystem.Hierarchy

variable {hierarchy : Hierarchy} {identities : Identities}

/-- Whether the trait of a key is in the hierarchy. -/
def holds (hierarchy : Hierarchy) (ids : Identities) (key : TraitKey) : Bool :=
  (ids.find? (.type (.trait key))).any hierarchy.contains

theorem holds_iff (hierarchy : Hierarchy) (ids : Identities) (key : TraitKey) :
    hierarchy.holds ids key ↔
      ∃ token trait, ids.Identifies token key ∧ hierarchy.find? token = some trait := by
  unfold holds contains Table.contains
  simp only [Option.any_eq_true, Option.isSome_iff_exists]
  exact exists_congr fun token => exists_and_left.symm

/-- The traits of a reachable hierarchy are those of keys. -/
theorem Reachable.heeds (hreachable : hierarchy.Reachable identities) (signatures : Signatures)
    (policy : CyclePolicy) :
    (hierarchy.setting signatures policy).Heeds (hierarchy.holds identities) identities where
  identified token trait hfind := by
    have hmem := (hierarchy.traits.mem_values_iff trait).mpr ⟨token, hfind⟩
    obtain ⟨key, hkey, -⟩ := hreachable.named hmem
    exact ⟨key, hreachable.wellFormedLookup.own token trait hfind ▸ hkey⟩
  known_iff := hierarchy.holds_iff identities

/-! ## What is met -/

/-- When a definition begins nothing has been met. -/
theorem meets_begin (hierarchy : Hierarchy) (signatures : Signatures) (policy : CyclePolicy)
    (key : TraitKey) (identities : Identities) (nextSerial : Nat) :
    Walk.Meets (hierarchy.setting signatures policy) [] (begin key identities nextSerial) [] where
  onPath := List.forall_mem_nil _
  found other hother := absurd hother List.not_mem_nil
  built token trait hbuilt := by cases hbuilt

/-- A definition asks for traits in pre-order.  If it succeeds, all that it has met is in the
hierarchy, and all that is new there has been met. -/
theorem Reachable.define_meets (hreachable : hierarchy.Reachable identities)
    (signatures : Signatures) (policy : CyclePolicy) (key : TraitKey) (nextSerial : Nat) :
    let defined := hierarchy.define signatures policy key identities nextSerial
    let order := signatures.preorder (hierarchy.holds identities) key
    ∃ asked, defined.identities = identities.replay ((key :: asked).map .ofKey) ∧
      mergeNew [] (key :: asked) <+: order ∧
      ∀ trait, defined.result = .ok trait → mergeNew [] (key :: asked) = order ∧
        (∀ other ∈ order, ∃ token found, defined.identities.Identifies token other ∧
          defined.hierarchy.find? token = some found) ∧
        ∀ token found, defined.hierarchy.find? token = some found →
          hierarchy.find? token = some found ∨
            ∃ other ∈ order, defined.identities.Identifies token other := by
  intro defined order
  have hrequest := identities.evolves_ofType (.trait key)
  have hids := hrequest.wellFormed hreachable.identities_wellFormed
  have hheeds := (hreachable.heeds signatures policy).mono hrequest.extends hids
  cases hfind : hierarchy.find? (identities.ofType (.trait key)).1 with
  | some known =>
      have hdefined : defined = _ :=
        hierarchy.define_of_found signatures policy key identities nextSerial hfind
      have hheld : hierarchy.holds identities key :=
        (hheeds.known_iff key).mpr ⟨_, known, identities.find?_ofType _, hfind⟩
      have horder : order = [key] :=
        (signatures.meet_of_known hheld).trans (signatures.meet_nil ..)
      rw [hdefined, horder]
      refine ⟨[], rfl, List.prefix_rfl, fun trait _ => ⟨rfl, ?_, fun _ _ => Or.inl⟩⟩
      intro other hother
      rw [List.mem_singleton.mp hother]
      exact ⟨_, known, identities.find?_ofType _, hfind⟩
  | none =>
      obtain ⟨result, walk, hresolves, hdefine⟩ :=
        hierarchy.define_of_new signatures policy key identities nextSerial hfind
      have hdefined : defined = _ := hdefine
      obtain ⟨asked, hasked⟩ := hresolves.proceeds List.not_mem_nil
        (sound_begin hreachable.identities_wellFormed hreachable.wellFormedLookup signatures policy
          key nextSerial) hheeds
      obtain ⟨ahead, hmeet, hfinished⟩ := hasked.meet [] []
        (meets_begin hierarchy signatures policy key identities nextSerial)
      have horder : order = signatures.meet (hierarchy.holds identities) ahead
          (mergeNew [] (key :: asked)) := hmeet
      refine ⟨asked, ?_, horder ▸ signatures.prefix_meet _ _, ?_⟩
      · -- the token was asked for already when the walk begins
        rw [hdefined]
        have hagain : ((identities.ofType (.trait key)).2.ofType (.trait key)).2 =
            (identities.ofType (.trait key)).2 := (identities.settled_ofType _).ofType_eq
        calc walk.identities
            = ((identities.ofType (.trait key)).2.ofType (.trait key)).2.replay
                (asked.map .ofKey) := hasked.identities
          _ = identities.replay ((key :: asked).map .ofKey) := by
                rw [hagain]
                rfl
      · rw [hdefined]
        intro trait hresult
        cases hresult
        obtain ⟨rfl, hmeets⟩ := hfinished rfl
        rw [signatures.meet_nil] at horder
        have hcommit := hierarchy.find?_commit signatures policy
          (hresolves.fresh (hierarchy.fresh_begin _ _ _ _ _))
        rw [horder]
        refine ⟨rfl, ?_, ?_⟩
        · intro other hother
          obtain ⟨token, found, htoken, hfound⟩ := hmeets.found other hother List.not_mem_nil
          exact ⟨token, found, htoken, (hcommit token).trans hfound⟩
        · intro token found hheld
          rcases Option.or_eq_some_iff.mp ((hcommit token).symm.trans hheld) with hknown | ⟨-, hbuilt⟩
          · exact Or.inl hknown
          · exact Or.inr (hmeets.built token found hbuilt)

/-- Of what is in the hierarchy after a definition, only the trait itself and ancestors of it can
have had no token before. -/
theorem Reachable.eq_or_ancestor_of_new (hreachable : hierarchy.Reachable identities)
    {signatures : Signatures} {policy : CyclePolicy} {key other : TraitKey} {nextSerial : Nat}
    {trait found : Trait} {token : Token} :
    let defined := hierarchy.define signatures policy key identities nextSerial
    defined.result = .ok trait → identities.find? (.type (.trait other)) = none →
      defined.identities.Identifies token other → defined.hierarchy.find? token = some found →
        other = key ∨ ∃ ancestor ∈ trait.ancestors,
          defined.identities.Identifies ancestor.identity other := by
  intro defined hresult hnone hother hfound
  have hids := hreachable.identities_wellFormed
  have hlookup := hreachable.wellFormedLookup
  have hafter := hreachable.define signatures policy key nextSerial
  have hunique : Relator.BiUnique defined.identities.Identifies :=
    hafter.identities_wellFormed.biUnique
  rcases find?_of_find?_define hids hlookup hresult hfound with hbefore | hmember
  · -- what was in the hierarchy before had a token
    obtain ⟨same, hsame⟩ := (hreachable.heeds signatures policy).identified token found hbefore
    have hkept : identities.Extends defined.identities := (evolves_define ..).extends
    rw [hunique.2 (hsame.mono hkept) hother] at hsame
    cases hnone.symm.trans hsame
  · rw [← hafter.wellFormedLookup.own token found hfound] at hother
    rcases List.mem_append.mp hmember with hancestor | hself
    · exact Or.inr ⟨found, hancestor, hother⟩
    · rw [List.mem_singleton.mp hself] at hother
      exact Or.inl (hunique.2 hother (find?_define_identity hlookup hresult))

/-- **A definition hands out tokens in pre-order.**  The traits that it has met are enrolled in this
order, and stay so whether it succeeds or not.  If it succeeds it has met the whole pre-order.  Then
of all types those have got tokens that had none and are the trait or ancestors of it, and the trait
and its new ancestors have names. -/
theorem Reachable.define_enrolls (hreachable : hierarchy.Reachable identities)
    (signatures : Signatures) (policy : CyclePolicy) (key : TraitKey) (nextSerial : Nat) :
    let defined := hierarchy.define signatures policy key identities nextSerial
    let order := signatures.preorder (hierarchy.holds identities) key
    (∀ referent token, identities.find? referent = some token → token.raw < identities.next) ∧
      ∃ met, [key] <+: met ∧ met <+: order ∧ met.Nodup ∧
        (∀ other ∈ met, signatures.Reaches key other) ∧
        identities.Enrolls defined.identities (met.map .trait) ∧
        (∀ later, defined.identities.Evolves later → defined.identities.Extends later) ∧
        ∀ trait, defined.result = .ok trait → met = order ∧
          (∀ referent, (identities.find? referent = none ∧
              ∃ token, defined.identities.find? referent = some token) ↔
            identities.find? referent = none ∧ ∃ other, referent = .type (.trait other) ∧
              (other = key ∨ ∃ ancestor ∈ trait.ancestors,
                defined.identities.Identifies ancestor.identity other)) ∧
          (∃ name, defined.identities.nameOf? trait.identity = some name) ∧
          ∀ ancestor ∈ trait.ancestors, hierarchy.find? ancestor.identity = none →
            ∃ name, defined.identities.nameOf? ancestor.identity = some name := by
  intro defined order
  have hids := hreachable.identities_wellFormed
  have hlookup := hreachable.wellFormedLookup
  obtain ⟨asked, hidentities, hinitial, hfinished⟩ :=
    hreachable.define_meets signatures policy key nextSerial
  set met := mergeNew [] (key :: asked)
  have hkey : key ∈ met := mem_mergeNew.mpr (Or.inr List.mem_cons_self)
  have henrolls : identities.Enrolls defined.identities (met.map .trait) := by
    have hasked := identities.enrolls_mergeNew ((key :: asked).map .trait)
    rw [List.map_map] at hasked
    rw [map_mergeNew (fun _ _ => Ty.trait.inj), show defined.identities = _ from hidentities]
    exact hasked
  refine ⟨hids.lt_next, met, prefix_mergeNew [key] asked, hinitial,
    nodup_mergeNew List.nodup_nil _, ?_, henrolls, fun _ hevolves => hevolves.extends, ?_⟩
  · exact fun other hother => signatures.reaches_of_mem_preorder other (hinitial.subset hother)
  · intro trait hresult
    obtain ⟨horder, hheld, hmet⟩ := hfinished trait hresult
    have hown : defined.identities.Identifies trait.identity key :=
      find?_define_identity hlookup hresult
    refine ⟨horder, fun referent => and_congr_right fun hnone => ⟨?_, ?_⟩,
      henrolls.exists_name (List.mem_map_of_mem hkey) hown, ?_⟩
    · rintro ⟨token, htoken⟩
      obtain ⟨_, htype, rfl⟩ := henrolls.mem_of_new hnone htoken
      obtain ⟨other, hother, rfl⟩ := List.mem_map.mp htype
      obtain ⟨_, _, hknown, hfound⟩ := hheld other (horder ▸ hother)
      exact ⟨other, rfl, hreachable.eq_or_ancestor_of_new hresult hnone hknown hfound⟩
    · rintro ⟨other, rfl, rfl | ⟨ancestor, -, hancestor⟩⟩
      · exact ⟨_, hown⟩
      · exact ⟨_, hancestor⟩
    · intro ancestor hancestor hnone
      obtain ⟨hdefined, hanswer⟩ := define_sound hids hlookup signatures policy key nextSerial
      have hstored := (hdefined.wellFormed _ _ (hanswer trait hresult)).shared ancestor hancestor
      rcases hmet _ ancestor hstored with hbefore | ⟨other, hother, hidentifies⟩
      · cases hnone.symm.trans hbefore
      · exact henrolls.exists_name (List.mem_map_of_mem (horder ▸ hother)) hidentifies

/-- Of the four traits that a definition of `Both` meets two have tokens.  A trait that extends both
the circle and `Both` is given up at the circle, before `Both` is met. -/
theorem define_enrolls_sideways :
    let key := customKey
    let outside := diamond.declare (key "Outside") ⟨[key "Left", key "Round", key "Both"], []⟩
    let succeeded := sideways.hierarchy.define diamond .reject (key "Both") sideways.identities
      sideways.nextSerial
    let failed := sideways.hierarchy.define outside .reject (key "Outside") sideways.identities
      sideways.nextSerial
    let order := [key "Both", key "Left", key "Base", key "Right"]
    sideways.hierarchy.Reachable sideways.identities ∧
      succeeded.result.isOk ∧ sideways.identities.Enrolls succeeded.identities (order.map .trait) ∧
      sideways.identities.missing (order.map .trait) = [.trait (key "Both"), .trait (key "Left")] ∧
      ¬ failed.result.isOk ∧ ∃ met, [key "Outside"] <+: met ∧ key "Both" ∉ met ∧
        met <+: outside.preorder (sideways.hierarchy.holds sideways.identities) (key "Outside") ∧
        sideways.identities.Enrolls failed.identities (met.map .trait) ∧
        failed.identities.next = sideways.identities.next + 2 := by
  intro key outside succeeded failed order
  have hreachable := reachableUnder_sideways.reachable
  have hsucceeded : succeeded.result.isOk := by decide +kernel
  have honward : order.map (diamond.onward (sideways.hierarchy.holds sideways.identities)) =
      [[key "Left", key "Right"], [key "Base"], [], []] := by
    decide +kernel
  simp only [order, List.map_cons, List.map_nil, List.cons.injEq, and_true] at honward
  obtain ⟨hboth, hleft, hbase, hright⟩ := honward
  have horder : diamond.preorder (sideways.hierarchy.holds sideways.identities) (key "Both") =
      order := by
    simp +decide [Signatures.preorder, Signatures.meet, hboth, hleft, hbase, hright, order, key]
  obtain ⟨-, met, -, -, -, -, henrolls, -, hfinished⟩ :=
    hreachable.define_enrolls diamond .reject (key "Both") sideways.nextSerial
  have hmet : met = order := by
    cases hresult : succeeded.result with
    | error error =>
        rw [hresult] at hsucceeded
        cases hsucceeded
    | ok trait => exact (hfinished trait hresult).1.trans horder
  obtain ⟨-, begun, hbegins, hinitial, -, -, hbegun, -⟩ :=
    hreachable.define_enrolls outside .reject (key "Outside") sideways.nextSerial
  have hunmet : key "Both" ∉ begun := by
    intro hmem
    obtain ⟨token, htoken, -⟩ := hbegun.settled _ (List.mem_map_of_mem hmem)
    have hnone : failed.identities.find? (.type (.trait (key "Both"))) = none := by decide +kernel
    cases hnone.symm.trans htoken
  exact ⟨hreachable, hsucceeded, hmet ▸ henrolls, by decide +kernel, by decide +kernel, begun,
    hbegins, hunmet, hinitial, hbegun, by decide +kernel⟩

end TraitSystem.Hierarchy
