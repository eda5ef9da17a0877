import TraitSystem.Proofs.Session.Provenance
import TraitSystem.Proofs.Session.Registrations

/-!
# Calls through views

A call of a method of a trait looks the implementation of the trait up when it is made, and asks the
trait that the caller has whether it declares the method.  A view has looked the implementation up
when it was taken, and asks the trait of the implementation.  As far as the two traits agree, so do
the calls, at any later time (`views_agree`).

## Strategy

What the view has is what a look-up still leads to, because implementations are there for good.  The
two traits may come from different registries and declare different methods, but they have one
identity, so an error calls them by the same name.
-/

namespace TraitSystem

/-! ## One call -/

theorem Receiver.callTrait_apply (receiver : Receiver) (invoke : Invoke) (trait : Trait)
    (method : String) (args : Args) (session : Session) :
    receiver.callTrait invoke trait method args session =
      match receiver.method session trait method with
      | .ok body => invoke body receiver args session
      | .error error => (.error (.raised error), session) :=
  CallM.lookup_bind_apply (receiver.method · trait method) (invoke · receiver args) session

theorem View.call_apply (view : View) (invoke : Invoke) (method : String) (args : Args)
    (session : Session) :
    view.call invoke method args session =
      match view.method session method with
      | .ok body => invoke body view.receiver args session
      | .error error => (.error (.raised error), session) :=
  CallM.lookup_bind_apply (view.method · method) (invoke · view.receiver args) session

/-- A view leads to the body that a look-up leads to. -/
theorem View.method_eq {receiver : Receiver} {session : Session} {trait : Trait}
    {implementation : Implementation}
    (hfind : receiver.implementation? session trait = some implementation)
    (hname : implementation.trait.name = trait.name) {method : String}
    (hdeclares : trait.declares method = implementation.trait.declares method) :
    View.method ⟨receiver, implementation⟩ session method =
      receiver.method session trait method := by
  unfold View.method Receiver.method
  rw [hfind, Option.bind_some]
  unfold Receiver.notImplemented
  rw [hdeclares, hname]

/-- Without an implementation there is no body. -/
theorem Receiver.method_of_implementation?_eq_none {receiver : Receiver} {session : Session}
    {trait : Trait} (hfind : receiver.implementation? session trait = none) (method : String) :
    receiver.method session trait method =
      .error (if trait.declares method then receiver.notImplemented session trait method
        else .unknownMethod method trait.name) := by
  unfold Receiver.method
  rw [hfind]
  split <;> rfl

/-- In the new session, calling methods of a trait by way of views that were taken in the old one is
the same as calling them directly, and without an implementation neither leads anywhere. -/
structure Receiver.ViewsAgree (receiver : Receiver) (old new : Session) (trait : Trait) : Prop where
  present : (new.registry receiver.registry).members.contains receiver.identity trait.identity →
    (receiver.view? new trait).isSome
  kept : ∀ view, receiver.view? old trait = some view → receiver.view? new trait = some view
  agree : ∀ view, receiver.view? old trait = some view → ∀ method,
    trait.declares method = view.implementation.trait.declares method → ∀ invoke args,
      view.call invoke method args new = receiver.callTrait invoke trait method args new
  absent : (new.registry receiver.registry).members.contains receiver.identity trait.identity =
      false →
    receiver.view? new trait = none ∧ ∀ method invoke args,
      receiver.callTrait invoke trait method args new =
        (.error (.raised (if trait.declares method then receiver.notImplemented new trait method
          else .unknownMethod method trait.name)), new)

namespace Session

/-- An implementation that is found under the identity of a trait bears the name of that trait. -/
theorem Sourced.name_eq {session : Session} (hsourced : session.Sourced)
    (hreachable : session.Reachable) {id : RegistryId} {identity : Token} {trait : Trait}
    {implementation : Implementation}
    (hfind : (session.registry id).members.implementation? identity trait.identity =
      some implementation)
    (hmade : trait.Made session.identities) : implementation.trait.name = trait.name := by
  have hmembers := hreachable.members id
  obtain ⟨overrides, completeness, hmem⟩ := hmembers.mem_history hfind
  have himplemented := hsourced.made id _ ⟨identity, overrides, completeness, hmem⟩
  have hidentity := ((hmembers.parentFirst identity).own _ _ hfind).1
  exact himplemented.name_eq hmade hidentity

/-- **Views agree with calls of the trait, now and later**, whatever is done in between. -/
theorem views_agree {options : List Options} {old new : Session}
    (hold : (start options).Unfolds old) (hnew : old.Unfolds new) {trait : Trait}
    (hmade : trait.Made old.identities) (receiver : Receiver) :
    receiver.ViewsAgree old new trait := by
  have hreachable : new.Reachable := ⟨options, (hold.trans hnew).reaches⟩
  have hsourced : new.Sourced := (sourced_start options).unfolds (hold.trans hnew)
  have hlater : trait.Made new.identities := hmade.mono hnew.identities
  have hkept : ∀ view, receiver.view? old trait = some view →
      receiver.view? new trait = some view := by
    intro view hview
    obtain ⟨implementation, hfind, rfl⟩ := Option.map_eq_some_iff.mp hview
    exact Option.map_eq_some_iff.mpr ⟨implementation, hnew.implementation? hfind, rfl⟩
  refine ⟨?_, hkept, ?_, ?_⟩
  · intro hcontains
    rw [Receiver.view?, Option.isSome_map]
    exact hcontains
  · intro view hview method hdeclares invoke args
    -- the view has what a look-up leads to, and errors call both traits by one name
    obtain ⟨implementation, hfind, rfl⟩ := Option.map_eq_some_iff.mp (hkept view hview)
    have hname := hsourced.name_eq hreachable hfind hlater
    rw [View.call_apply, Receiver.callTrait_apply, View.method_eq hfind hname hdeclares]
  · intro hcontains
    have hfind : receiver.implementation? new trait = none :=
      Option.isNone_iff_eq_none.mp (Option.isSome_eq_false_iff.mp hcontains)
    refine ⟨?_, ?_⟩
    · rw [Receiver.view?, hfind, Option.map_none]
    · intro method invoke args
      rw [Receiver.callTrait_apply, Receiver.method_of_implementation?_eq_none hfind]

theorem Unfolds.after {old session : Session} (hunfolds : old.Unfolds session) {α : Type}
    (operation : Operation α) (hmade : operation.PassesMade session.identities) :
    old.Unfolds (session.after operation) := hunfolds.operation hmade

theorem Unfolds.adopt {old session : Session} (hunfolds : old.Unfolds session)
    (hsourced : session.Sourced) (source id : RegistryId) (key : TraitKey) (identity : Token) :
    old.Unfolds (session.adopt source id key identity) := by
  have hdefined : old.Unfolds (define source key session).2 :=
    hunfolds.after (.define source key) trivial
  have hmade := @Sourced.made_define session hsourced source key
  unfold Session.adopt
  cases hanswer : (Operation.define source key).run session with
  | mk answer defined =>
      have hsame : define source key session = (answer, defined) := hanswer
      rw [hsame] at hdefined hmade
      cases answer with
      | error error => exact hdefined
      | ok trait => exact hdefined.operation (hmade rfl)

/-- A trait with a method `area`, as it was declared when another registry made it, is implemented
in the shared registry.  Then the trait is declared anew, with a second method. -/
def visited : Session :=
  let shape := Hierarchy.customKey "Shape"
  let stub : Body := .untyped (.value .unit)
  let declared := ((start []).after (.identify .unit)).after
    (.declare shape ⟨[], [("area", some stub)]⟩)
  (declared.adopt (.numbered 0) .shared shape ⟨1⟩).after
    (.declare shape ⟨[], [("area", none), ("edge", none)]⟩)

/-- The session after the shared registry has made the trait for itself. -/
def redefined : Session := visited.after (.define .shared (Hierarchy.customKey "Shape"))

/-- A method body has implemented another trait, has covered the method with a native and has
failed. -/
def overgrown : Session :=
  let grow : Body := .untyped <| .sequence
    [.implement (Hierarchy.customKey "Solid") .unit [],
      .defineNative .unit "area" (.untyped (.fail "covered")), .fail "stopped"]
  (redefined.after (.defineNative .shared ⟨1⟩ "grow" ⟨70, grow⟩)).after
    (.call ⟨.unit, ⟨1⟩, .shared⟩ "grow" [])

/-- The view was taken of the implementation of the other registry's trait. -/
theorem views_agree_overgrown :
    let receiver : Receiver := ⟨.unit, ⟨1⟩, .shared⟩
    ((overgrown.registry .shared).members.traitsOf ⟨1⟩).map Trait.name = ["Shape", "Solid"] ∧
      ((Operation.call receiver "area" []).run overgrown).1
        matches .error (.raised (.failure "covered")) ∧
      ∃ trait view, receiver.view? redefined trait = some view ∧
        ["area", "edge"].map trait.declares = [true, true] ∧
        ["area", "edge"].map view.implementation.trait.declares = [true, false] ∧
        (∀ invoke args, view.call invoke "area" args overgrown =
          receiver.callTrait invoke trait "area" args overgrown) ∧
        (start []).Unfolds redefined ∧ redefined.Unfolds overgrown ∧
          trait.Made redefined.identities ∧ receiver.ViewsAgree redefined overgrown trait := by
  intro receiver
  have hdeclares : (match (define .shared (Hierarchy.customKey "Shape") visited).1 with
      | .error _ => none
      | .ok trait => (receiver.view? redefined trait).map fun view =>
        ["area", "edge"].map fun method =>
          (trait.declares method, view.implementation.trait.declares method)) =
        some [(true, true), (true, false)] := by
    decide +kernel
  let area : Signature := ⟨[], [("area", some (.untyped (.value .unit)))]⟩
  have hdeclared := ((Unfolds.refl (start [])).after (.identify .unit) trivial).after
    (.declare (Hierarchy.customKey "Shape") area) trivial
  have hvisited : (start []).Unfolds visited :=
    (hdeclared.adopt ((sourced_start []).unfolds hdeclared) _ _ _ _).after _ trivial
  have hold : (start []).Unfolds redefined := hvisited.after _ trivial
  have hnew : redefined.Unfolds overgrown := by
    iterate 2 refine Unfolds.after ?_ _ trivial
    exact Unfolds.refl redefined
  have hmade := @Sourced.made_define visited ((sourced_start []).unfolds hvisited) .shared
    (Hierarchy.customKey "Shape")
  refine ⟨by decide +kernel, by decide +kernel, ?_⟩
  cases hanswer : (define .shared (Hierarchy.customKey "Shape") visited).1 with
  | error error =>
      rw [hanswer] at hdeclares
      cases hdeclares
  | ok trait =>
      rw [hanswer] at hdeclares
      obtain ⟨view, hview, hmethods⟩ := Option.map_eq_some_iff.mp hdeclares
      have hagree := views_agree hold hnew (hmade hanswer) receiver
      simp only [List.map_cons, List.map_nil, List.cons.injEq, Prod.mk.injEq, and_true] at hmethods
      obtain ⟨⟨harea, hviewArea⟩, hedge, hviewEdge⟩ := hmethods
      refine ⟨trait, view, hview, ?_, ?_, ?_, hold, hnew, hmade hanswer, hagree⟩
      · simp only [List.map_cons, List.map_nil, harea, hedge]
      · simp only [List.map_cons, List.map_nil, hviewArea, hviewEdge]
      · exact hagree.agree view hview "area" (harea.trans hviewArea.symm)

end Session

end TraitSystem
