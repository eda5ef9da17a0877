import TraitSystem.Proofs.Call.Derived
import TraitSystem.Proofs.Session.Standard

/-!
# Derived comparisons

Where a registry has the traits of the comparisons already, a call of a derived method does to the
session what a call of the supplied method does, and comes to what that call comes to
(`derived_comparisons`).

## Strategy

Two things could make the call in a default body differ from a direct one.  It goes by the trait of
the registry, where the caller may have another one; but these lead to the same bodies.  And it is
nested one level deeper, which makes no difference to a call that comes to an end.
-/

namespace TraitSystem

namespace Session

variable {session : Session}

/-! ## One call -/

/-- Asking for a trait that is held and has been asked for by name changes nothing. -/
theorem define_of_held {id : RegistryId} {key : TraitKey} {trait : Trait}
    (hheld : session.held? id key = some trait)
    (hsettled : session.identities.Settled (.trait key)) :
    define id key session = (.ok trait, session) := by
  obtain ⟨token, htoken, hfind⟩ := held?_eq_some_iff.mp hheld
  have hanswer := defineUnder_eq session id key (session.registry id).options.cycles
  unfold definition at hanswer
  rw [Hierarchy.define_eq _ _ _ _ _ _ htoken hfind, hsettled.ofType_eq] at hanswer
  exact hanswer.trans (congrArg _ (session.setRegistry_eq_self id))

/-- A trait that a registry holds was made by a definition. -/
theorem Reachable.made_of_held (hreachable : session.Reachable) {id : RegistryId} {key : TraitKey}
    {trait : Trait} (hheld : session.held? id key = some trait) :
    trait.Made session.identities ∧ session.identities.Identifies trait.identity key := by
  obtain ⟨token, htoken, hfind⟩ := held?_eq_some_iff.mp hheld
  have hhierarchy := hreachable.hierarchy id
  refine ⟨⟨_, hhierarchy, (Table.mem_values_iff _ _).mpr ⟨token, hfind⟩⟩, ?_⟩
  rw [hhierarchy.wellFormedLookup.own token trait hfind]
  exact htoken

theorem Reachable.realizes_held (hreachable : session.Reachable) {id : RegistryId}
    {standard : Standard} {trait : Trait}
    (hheld : session.held? id (.standard standard) = some trait) :
    trait.Realizes session.identities standard := by
  obtain ⟨hmade, hidentity⟩ := hreachable.made_of_held hheld
  exact hmade.realizes hidentity

theorem Reachable.standardTrait_of_held (hreachable : session.Reachable) {id : RegistryId}
    {standard : Standard} {trait : Trait}
    (hheld : session.held? id (.standard standard) = some trait) :
    standardTrait id standard session = (.ok trait, session) := by
  rw [standardTrait_apply, define_of_held hheld (hreachable.realizes_held hheld).settled]

section

variable {receiver : Receiver} {comparison : Derived} {own trait : Trait} {record : Implementation}
  (hreachable : session.Reachable)
  (hheld : session.held? receiver.registry (.standard comparison.standard) = some own)
  (hrealizes : trait.Realizes session.identities comparison.standard)
  (hrecord : receiver.implementation? session trait = some record)
  (hderives : record.Derives comparison)

include hreachable hheld hrealizes hrecord hderives

/-- A derived method comes to what the supplied one comes to one level further down. -/
theorem callTrait_derived_succ (depth : Nat) (args : Args) :
    receiver.callTrait (invoke (depth + 1)) trait comparison.method args session =
      (receiver.callTrait (invoke depth) trait comparison.supplied args session).map
        comparison.conclusion id := by
  obtain ⟨body, hbody, hderived⟩ := Receiver.method_of_derives hrealizes hrecord hderives
  have hsame := (hreachable.realizes_held hheld).method_eq hrealizes receiver session
    comparison.supplied
  rw [Receiver.callTrait_apply, hbody]
  show invoke (depth + 1) body receiver args session = _
  unfold invoke
  rw [hderived]
  show comparison.run _ _ session = _
  rw [Derived.run_apply (hreachable.standardTrait_of_held hheld), Receiver.callTrait_apply,
    Receiver.callTrait_apply, hsame]

/-- **A derived method comes to what the supplied one comes to**, if it does not go too deep. -/
theorem callTrait_derived {depth : Nat} {args : Args}
    (hends : ¬ (receiver.callTrait (invoke depth) trait comparison.method args).TooDeep session) :
    receiver.callTrait (invoke depth) trait comparison.method args session =
      (receiver.callTrait (invoke depth) trait comparison.supplied args session).map
        comparison.conclusion id := by
  cases depth with
  | zero =>
      obtain ⟨body, hbody, -⟩ := Receiver.method_of_derives hrealizes hrecord hderives
      refine absurd ?_ hends
      unfold CallM.TooDeep
      rw [Receiver.callTrait_apply, hbody]
      rfl
  | succ depth =>
      have hsucc := callTrait_derived_succ hreachable hheld hrealizes hrecord hderives depth args
      unfold CallM.TooDeep at hends
      rw [hsucc] at hends
      have hsupplied := Receiver.callTrait_succ (mt Derived.conclusion_eq_tooDeep_iff.mpr hends)
      calc receiver.callTrait (invoke (depth + 1)) trait comparison.method args session
          = (receiver.callTrait (invoke depth) trait comparison.supplied args session).map
              comparison.conclusion id := hsucc
        _ = (receiver.callTrait (invoke (depth + 1)) trait comparison.supplied args session).map
              comparison.conclusion id := by rw [hsupplied]

end

/-! ## The hooks -/

/-- Where the registry has the trait already, asking by way of it is one call. -/
theorem Reachable.askStandard_apply (hreachable : session.Reachable) {id : RegistryId}
    {standard : Standard} {own : Trait} (hheld : session.held? id (.standard standard) = some own)
    (invoke : Invoke) (method : String) (value : Value) (args : Args) (expected : Ty) :
    askStandard invoke id standard method value args expected session =
      (Receiver.callTrait invoke ⟨value, (identifyValue value session).1, id⟩ own method args >>=
          fun answer => CallM.ofExcept (answer.result expected) : CallM expected.Carrier)
        (identifyValue value session).2 := by
  unfold askStandard callStandard
  simp only [Receiver.ofValue_bind, CallM.bind_apply, CallM.lift_apply,
    hreachable.standardTrait_of_held hheld]

/-- The hooks for equality and for its opposite contradict each other, or fail with one error. -/
theorem Reachable.notEqual_eq (hreachable : session.Reachable) {id : RegistryId} {own : Trait}
    (hheld : session.held? id (.standard .partialEq) = some own) {left right : Value}
    {record : Implementation}
    (hrecord : Receiver.implementation? ⟨left, (identifyValue left session).1, id⟩ session own =
      some record)
    (hderives : record.Derives .notEqual) {depth : Nat}
    (hends : ¬ (notEqual (invoke depth) id left right).TooDeep session) :
    notEqual (invoke depth) id left right session =
      (equal (invoke depth) id left right session).map (Except.map not) fun after => after := by
  let receiver : Receiver := ⟨left, (identifyValue left session).1, id⟩
  let between := (identifyValue left session).2
  have hdevelops := session.develops_identifyValue id left
  have hbetween : between.Reachable := hreachable.develops hdevelops
  have hkept : between.held? id (.standard .partialEq) = some own := hdevelops.extends.held? hheld
  have hcall (hends : ¬ (receiver.callTrait (invoke depth) own "ne" [right]).TooDeep between) :
      receiver.callTrait (invoke depth) own "ne" [right] between =
        (receiver.callTrait (invoke depth) own "eq" [right] between).map
          Derived.notEqual.conclusion fun after => after :=
    callTrait_derived hbetween hkept (hbetween.realizes_held hkept) hrecord hderives hends
  unfold CallM.TooDeep notEqual at hends
  unfold notEqual equal
  rw [hreachable.askStandard_apply hheld] at hends ⊢
  rw [hreachable.askStandard_apply hheld, CallM.bind_apply, CallM.bind_apply,
    hcall (mt CallM.TooDeep.bind hends)]
  rcases receiver.callTrait (invoke depth) own "eq" [right] between with ⟨fault | answer, after⟩
  · rfl
  · cases hresult : answer.result .bool with
    | error error =>
        have hfails : Derived.notEqual.conclusion (.ok answer) = .error (.raised error) :=
          Derived.conclusion_of_result_error hresult
        simp only [Prod.map, hfails, hresult]
        rfl
    | ok equal =>
        have hanswers : Derived.notEqual.conclusion (.ok answer) = .ok ⟨.bool, !equal⟩ :=
          Derived.conclusion_of_result_ok hresult
        simp only [Prod.map, hanswers, hresult, Value.result_mk]
        rfl

/-! ## Every call -/

/-- **Derived comparisons are faithful to what they are derived from.**  An implementation of a
standard trait has the default body where it does not override it.  Then, if the registry has the
traits of the comparisons already, a call of the method does what a call of the supplied method does
one level further down, and concludes from it, which is the same as at its own level if it does not
go too deep; the two hooks for equality contradict each other or fail with one error; and relations
hold of the outcomes for which they are named. -/
theorem derived_comparisons (hreachable : session.Reachable) {id : RegistryId}
    {partialEq partialOrd : Trait}
    (hpartialEq : session.held? id (.standard .partialEq) = some partialEq)
    (hpartialOrd : session.held? id (.standard .partialOrd) = some partialOrd) (depth : Nat) :
    (∀ (comparison : Derived) (trait : Trait) (targetName : String) (overrides : Overrides)
      (completeness : Completeness) (record : Implementation), trait.Made session.identities →
      session.identities.Identifies trait.identity (.standard comparison.standard) →
      Implementation.ofOverrides targetName trait overrides completeness = .ok record →
      overrides.find? comparison.method = none → record.Derives comparison) ∧
    (∀ (comparison : Derived) (receiver : Receiver) (args : Args) (trait : Trait)
      (record : Implementation), receiver.registry = id → trait.Made session.identities →
      session.identities.Identifies trait.identity (.standard comparison.standard) →
      receiver.implementation? session trait = some record → record.Derives comparison →
        let call (depth : Nat) (method : String) :=
          receiver.callTrait (invoke depth) trait method args session
        comparison.Concludes (call (depth + 1) comparison.method)
          (call depth comparison.supplied) ∧
        ((call depth comparison.method).1 ≠ .error .tooDeep →
          comparison.Concludes (call depth comparison.method) (call depth comparison.supplied))) ∧
    (∀ (left right : Value) (record : Implementation),
      Receiver.implementation? ⟨left, (identifyValue left session).1, id⟩ session partialEq =
        some record → record.Derives .notEqual →
        let ne := notEqual (invoke depth) id left right session
        let eq := equal (invoke depth) id left right session
        ne.1 ≠ .error .tooDeep → ne.1 = eq.1.map not ∧ ne.2 = eq.2) ∧
    ∀ relation ordering, Derived.conclude (.related relation) ordering ↔
      ∃ order ∈ relation.orderings, ordering = some order := by
  refine ⟨?_, ?_, ?_, Derived.conclude_related_iff⟩
  · intro comparison trait targetName overrides completeness record hmade hidentity hbuilt hkept
    exact Implementation.derives_of_ofOverrides (hmade.realizes hidentity) hbuilt hkept
  · intro comparison receiver args trait record hregistry hmade hidentity hrecord hderives call
    subst hregistry
    have hheld : ∃ own,
        session.held? receiver.registry (.standard comparison.standard) = some own := by
      cases comparison with
      | notEqual => exact ⟨partialEq, hpartialEq⟩
      | related relation => exact ⟨partialOrd, hpartialOrd⟩
    obtain ⟨own, hown⟩ := hheld
    have hrealizes := hmade.realizes hidentity
    refine ⟨?_, ?_⟩
    · show comparison.Concludes (receiver.callTrait _ trait comparison.method args session) _
      rw [callTrait_derived_succ hreachable hown hrealizes hrecord hderives]
      exact comparison.concludes_map _
    · intro hends
      show comparison.Concludes (receiver.callTrait _ trait comparison.method args session) _
      rw [callTrait_derived hreachable hown hrealizes hrecord hderives hends]
      exact comparison.concludes_map _
  · intro left right record hrecord hderives ne eq hends
    have hne : ne = eq.map (Except.map not) fun after => after :=
      hreachable.notEqual_eq hpartialEq hrecord hderives hends
    rw [hne]
    exact ⟨rfl, rfl⟩

/-- Implements a standard trait by one method of one's own. -/
def supply (session : Session) (id : RegistryId) (standard : Standard) (identity : Token)
    (method : String) (body : Body) : Session :=
  match (Operation.define id (.standard standard)).run session with
  | (.error _, defined) => defined
  | (.ok trait, defined) =>
    let (overrides, built) := (Operation.newOverrides [(method, body)]).run defined
    built.after (.implement id identity trait overrides)

theorem Reachable.supply (hreachable : session.Reachable) (id : RegistryId) (standard : Standard)
    (identity : Token) (method : String) (body : Body) :
    (session.supply id standard identity method body).Reachable := by
  have hdefined := hreachable.after (.define id (.standard standard))
  unfold Session.supply
  cases hanswer : (Operation.define id (.standard standard)).run session with
  | mk answer defined =>
      unfold Session.after at hdefined
      rw [hanswer] at hdefined
      cases answer with
      | error error => exact hdefined
      | ok trait => exact (hdefined.after (.newOverrides [(method, body)])).after _

/-- Floating point numbers that are compared by value, and a native under the name of a relation. -/
def measured : Session :=
  let number : Token := ⟨1⟩
  let supplied := (((start []).after (.identify .binary64)).supply .shared .partialEq number "eq"
    (.untyped (.compare .equality .binary64))).supply .shared .partialOrd number "partial_cmp"
    (.untyped (.compare .partialOrder .binary64))
  supplied.after (.defineNative .shared number "lt" ⟨90, .untyped (.fail "shadowed")⟩)

/-- A number is not less than itself, and what is no number is neither less nor greater than a
number, nor equal to it. -/
theorem derived_comparisons_measured :
    let one : Value := ⟨.binary64, ⟨0x3FF0000000000000⟩⟩
    let nan : Value := ⟨.binary64, ⟨0x7FF8000000000000⟩⟩
    let receiver : Receiver := ⟨one, ⟨1⟩, .shared⟩
    let call (trait : Trait) (method : String) (other : Value) :=
      receiver.callTrait (invoke 5) trait method [other] measured
    let truth (standard : Standard) (method : String) (other : Value) :=
      (measured.held? .shared (.standard standard)).bind fun trait =>
        (call trait method other).1.toOption.bind fun answer => answer.downcast? .bool
    let truths (other : Value) := ["lt", "le", "gt", "ge"].map fun method =>
      truth .partialOrd method other
    (truths one = [some false, some true, some false, some true] ∧
      truths nan = [some false, some false, some false, some false] ∧
      truth .partialEq "ne" one = some false ∧ truth .partialEq "ne" nan = some true ∧
      (notEqual (invoke 5) .shared one nan measured).1.toOption = some true ∧
      (equal (invoke 5) .shared one nan measured).1.toOption = some false) ∧
    measured.Reachable ∧ ∃ trait, measured.held? .shared (.standard .partialOrd) = some trait ∧
      (Derived.related .le).Concludes (call trait "le" one) (call trait "partial_cmp" one) := by
  intro one nan receiver call truth truths
  have hreachable : measured.Reachable := by
    refine Reachable.after ?_ _
    iterate 2 refine Reachable.supply ?_ _ _ _ _ _
    exact (reachable_start []).after _
  refine ⟨by decide +kernel, hreachable, ?_⟩
  have hexists (standard : Standard)
      (hheld : (measured.held? .shared (.standard standard)).isSome) :=
    Option.isSome_iff_exists.mp hheld
  obtain ⟨partialEq, hpartialEq⟩ := hexists .partialEq (by decide +kernel)
  obtain ⟨trait, htrait⟩ := hexists .partialOrd (by decide +kernel)
  -- the number has the default body for the relation, and its call ends
  have hrecorded : ((measured.held? .shared (.standard .partialOrd)).bind
      (receiver.implementation? measured)).any (fun record =>
        decide (record.Derives (.related .le))) := by decide +kernel
  have hends : (measured.held? .shared (.standard .partialOrd)).any fun trait =>
      (call trait "le" one).1.toOption.isSome := by decide +kernel
  rw [htrait] at hrecorded hends
  obtain ⟨record, hrecord, hderives⟩ := (Option.any_eq_true _ _).mp hrecorded
  obtain ⟨hmade, hidentity⟩ := hreachable.made_of_held htrait
  refine ⟨trait, htrait, ?_⟩
  obtain ⟨-, hcalls, -, -⟩ := derived_comparisons hreachable hpartialEq htrait 5
  refine (hcalls (.related .le) receiver [one] trait record rfl hmade hidentity hrecord
    (of_decide_eq_true hderives)).2 ?_
  intro hdeep
  have hdeep' : (call trait "le" one).1 = .error .tooDeep := hdeep
  simp [hdeep', Except.toOption] at hends

end Session

end TraitSystem
