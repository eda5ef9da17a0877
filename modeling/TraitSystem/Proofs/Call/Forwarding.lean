import TraitSystem.Proofs.Members.Forwarding
import TraitSystem.Proofs.Session.Registrations

/-!
# Calls of forwarded members

A member call that is forwarded to a trait runs the body that the target's implementation of that
trait has for the name, and nothing else can become of it but that there is no such body
(`forwards_dispatch_of_reachable`).

The implementation is looked up again at the time of the call.  That it is the right one, and that
its trait declares the name, are facts about the members of every reachable session.
-/

namespace TraitSystem

/-! ## One call -/

theorem Receiver.call_apply (receiver : Receiver) (invoke : Invoke) (name : String) (args : Args)
    (session : Session) :
    receiver.call invoke name args session =
      match receiver.member session name with
      | .ok body => invoke body receiver args session
      | .error error => (.error (.raised error), session) :=
  CallM.lookup_bind_apply (receiver.member · name) (invoke · receiver args) session

/-- A call by name comes down to the bodies of one implementation: the body that it has for the name
is run, and without one the call fails and changes nothing. -/
structure Receiver.DispatchesTo (receiver : Receiver) (session : Session) (name : String)
    (implementation : Implementation) : Prop where
  runs : ∀ body, implementation.body? name = some body → ∀ invoke args,
    receiver.call invoke name args session = invoke body receiver args session
  fails : ∀ error, receiver.member session name = .error error ↔
    implementation.body? name = none ∧
      error = .notImplemented name implementation.trait.name
        (session.identities.describe receiver.identity)
  unchanged : implementation.body? name = none → ∀ invoke args,
    receiver.call invoke name args session =
      (.error (.raised (.notImplemented name implementation.trait.name
        (session.identities.describe receiver.identity))), session)

theorem Receiver.member_of_forward {receiver : Receiver} {session : Session} {name : String}
    {trait : Trait} {implementation : Implementation}
    (hmember : (session.registry receiver.registry).members.member? receiver.identity name =
      some (.forward trait))
    (hdeclares : trait.declares name)
    (hfind : (session.registry receiver.registry).members.implementation? receiver.identity
      trait.identity = some implementation) :
    receiver.member session name =
      match implementation.body? name with
      | some body => .ok body
      | none => .error (receiver.notImplemented session trait name) := by
  have himplementation : receiver.implementation? session trait = some implementation := hfind
  cases hbody : implementation.body? name with
  | none =>
      simp only [Receiver.member, Receiver.method, hmember, if_pos hdeclares, himplementation,
        Option.bind_some, hbody]
  | some body =>
      simp only [Receiver.member, Receiver.method, hmember, if_pos hdeclares, himplementation,
        Option.bind_some, hbody]

theorem Receiver.dispatchesTo_of_forward {receiver : Receiver} {session : Session} {name : String}
    {implementation : Implementation}
    (hmember : (session.registry receiver.registry).members.member? receiver.identity name =
      some (.forward implementation.trait))
    (hdeclares : implementation.trait.declares name)
    (hfind : (session.registry receiver.registry).members.implementation? receiver.identity
      implementation.trait.identity = some implementation) :
    receiver.DispatchesTo session name implementation := by
  have hresolved := Receiver.member_of_forward hmember hdeclares hfind
  refine ⟨?_, ?_, ?_⟩
  · intro body hbody invoke args
    rw [Receiver.call_apply, hresolved, hbody]
  · intro error
    rw [hresolved]
    cases hbody : implementation.body? name with
    | some body => simp
    | none => simp [Receiver.notImplemented, eq_comm]
  · intro hbody invoke args
    rw [Receiver.call_apply, hresolved, hbody]
    rfl

/-! ## Every call in every session -/

namespace Session

variable {session : Session}

/-- **Forwards never dangle.**  The trait of a forward declares the name and is itself implemented,
and a call that is forwarded runs the body of this implementation.  It can only fail to be resolved
where there is no such body, which is never so for an implementation that was registered as
complete. -/
theorem forwards_dispatch_of_reachable (hreachable : session.Reachable) (id : RegistryId)
    (identity : Token) (name : String) (trait : Trait)
    (hforward : ((session.registry id).members.target identity).forwards.find? name = some trait) :
    trait.declares name ∧ ∃ implementation,
      (session.registry id).members.implementation? identity trait.identity =
          some implementation ∧
        implementation.trait = trait ∧
        ((session.registry id).members.member? identity name = some (.forward trait) →
          ∀ value, Receiver.DispatchesTo ⟨value, identity, id⟩ session name implementation) ∧
        ∀ overrides, Registration.implementation identity trait overrides .atRegistration ∈
            (session.registry id).members.history →
          (implementation.body? name).isSome := by
  have hmembers := hreachable.members id
  obtain ⟨hdeclares, implementation, hfind, htrait⟩ := hmembers.find?_forwards hforward
  refine ⟨hdeclares, implementation, hfind, htrait, ?_, ?_⟩
  · intro hmember value
    subst htrait
    exact Receiver.dispatchesTo_of_forward hmember hdeclares hfind
  · intro overrides hmem
    exact hmembers.isSome_body?_of_mem_history hmem hfind hdeclares

/-- A session in which another registry than the shared one has a trait with a method `area`. -/
def lending : Session :=
  ((start []).after (.identify .unit)).after (.identify .bool) |>.after
    (.declare (Hierarchy.customKey "Shape") ⟨[], [("area", none)]⟩)

/-- The trait is implemented in the shared registry, completely for the type of units and without
any body for truth values.  Then the shared registry gets a trait of the same identity, which
declares something else. -/
def borrowed : Session :=
  let shape := Hierarchy.customKey "Shape"
  match (Operation.define (.numbered 0) shape).run lending with
  | (.error _, defined) => defined
  | (.ok trait, defined) =>
    let overrides := Table.ofList [("area", ⟨70, .untyped (.value .unit)⟩)]
    ((defined.after (.implement .shared ⟨1⟩ trait overrides)).after
      (.implementAs .shared ⟨2⟩ "bool" trait ∅ .atFirstCall)).after
      (.declare shape ⟨[], [("volume", none)]⟩) |>.after (.define .shared shape)

theorem reachable_borrowed : borrowed.Reachable := by
  have hlending : lending.Reachable := ((reachable_start []).after _ |>.after _).after _
  have hdefined := hlending.after (.define (.numbered 0) (Hierarchy.customKey "Shape"))
  unfold borrowed
  dsimp only
  unfold after at hdefined
  cases hanswer : (Operation.define (.numbered 0) (Hierarchy.customKey "Shape")).run lending with
  | mk answer defined =>
      rw [hanswer] at hdefined
      cases answer with
      | error error => exact hdefined
      | ok trait => exact ((hdefined.after _).after _ |>.after _).after _

/-- Whether a registration, if it implements a trait for an identity, has to be complete. -/
def completeFor (identity : Token) : Registration → Bool
  | .implementation other _ _ completeness =>
    other != identity || completeness == .atRegistration
  | .native .. => true

/-- The forwards lead to the borrowed trait, whatever the registry's own trait declares, and for
truth values the call finds no body. -/
theorem forwards_dispatch_borrowed :
    let members := (borrowed.registry .shared).members
    (borrowed.registry .shared).hierarchy.declaring? "area" = none ∧
      ((Operation.call ⟨⟨.bool, true⟩, ⟨2⟩, .shared⟩ "area" []).run borrowed).1
        matches .error (.raised (.notImplemented "area" "Shape" "bool")) ∧
      borrowed.Reachable ∧ ∃ trait,
        (members.target ⟨1⟩).forwards.find? "area" = some trait ∧ trait.declares "area" ∧
          ∃ implementation, members.implementation? ⟨1⟩ trait.identity = some implementation ∧
            implementation.trait = trait ∧
            Receiver.DispatchesTo ⟨.unit, ⟨1⟩, .shared⟩ borrowed "area" implementation ∧
            (implementation.body? "area").isSome := by
  intro members
  have hsome : ((members.target ⟨1⟩).forwards.find? "area").isSome := by decide +kernel
  have hnone : ((members.target ⟨1⟩).natives.find? "area").isNone := by decide +kernel
  obtain ⟨trait, hforward⟩ := Option.isSome_iff_exists.mp hsome
  obtain ⟨hdeclares, implementation, hfind, htrait, hdispatch, hcomplete⟩ :=
    forwards_dispatch_of_reachable reachable_borrowed .shared ⟨1⟩ "area" trait hforward
  have hmember : members.member? ⟨1⟩ "area" = some (.forward trait) := by
    unfold Members.member? Target.member?
    rw [Option.isNone_iff_eq_none.mp hnone, hforward]
    rfl
  -- all that was registered for the type of units had to be complete
  have hall : members.history.all (completeFor ⟨1⟩) := by decide +kernel
  obtain ⟨overrides, completeness, hmem⟩ :=
    (reachable_borrowed.members .shared).mem_history hfind
  have hregistered : completeness = .atRegistration := by
    simpa [completeFor] using List.all_eq_true.mp hall _ hmem
  subst hregistered
  subst htrait
  exact ⟨by decide +kernel, by decide +kernel, reachable_borrowed, implementation.trait, hforward,
    hdeclares, implementation, hfind, rfl, hdispatch hmember _, hcomplete overrides hmem⟩

end Session

end TraitSystem
