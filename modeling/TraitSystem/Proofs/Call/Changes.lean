import TraitSystem.Proofs.Call.Parametric
import TraitSystem.Proofs.Session.Changes

/-!
# What calls do to a session

A call may run any tree of further calls, and any of them may register something and then fail.
Still all that happens to the session are single changes, they are made in the registry of the
receiver, they keep the table of tokens grounded, and the traits that bodies implement are traits of
the registry in which they are implemented (`CallM.Develops`).

This is kept by sequencing, whether a part fails or not, and by catching errors, so it is an
instance of what the evaluator respects (`developing`).
-/

namespace TraitSystem

open CallM

namespace CallM

/-- All that a computation does to a session are changes in one registry that keep to its traits. -/
def Develops {α : Type} (id : RegistryId) (action : CallM α) : Prop :=
  Moves (Session.Develops id) action

end CallM

theorem Session.course_develops (id : RegistryId) : Course (Develops id) :=
  ⟨Develops.refl, Develops.trans⟩

theorem requestTrait_apply (id : RegistryId) (key : TraitKey) (session : Session) :
    requestTrait id key session =
      match Session.define id key session with
      | (.ok trait, after) => (.ok trait, after)
      | (.error error, after) => (.error (.raised (.failure error.message)), after) := by
  unfold requestTrait
  rw [bind_apply, lift_apply]
  rcases Session.define id key session with ⟨error | trait, after⟩ <;> rfl

/-- A trait that is answered is one of the registry's own from then on. -/
theorem mem_values_of_requestTrait {id : RegistryId} {key : TraitKey} {trait : Trait}
    {session after : Session} (hanswer : requestTrait id key session = (.ok trait, after)) :
    trait ∈ (after.registry id).hierarchy.traits.values := by
  have hdefine := @Session.mem_values_define id session key
  rw [requestTrait_apply] at hanswer
  cases houtcome : Session.define id key session with
  | mk result defined =>
      rw [houtcome] at hanswer hdefine
      cases result with
      | error error => cases hanswer
      | ok known =>
          cases hanswer
          exact hdefine rfl

/-! ## What bodies register -/

theorem develops_registerTrait (id : RegistryId) (key : TraitKey) (target : Ty)
    (overrides : List (String × Body)) :
    CallM.Develops id (registerTrait id key target overrides) := by
  have hcourse := Session.course_develops id
  intro session
  have hrequest := moves_requestTrait hcourse fun key session => session.develops_define id key
  refine moves_bind hcourse (hrequest key session) fun trait defined hdefined => ?_
  have htrait := mem_values_of_requestTrait hdefined
  -- the requests that follow write to no registry
  refine moves_bind hcourse (defined.develops_newOverrides _ _) fun built between hbuilt => ?_
  cases hbuilt
  refine moves_bind hcourse (Session.develops_identify _ _ _) fun identity known hidentity => ?_
  cases hidentity
  refine moves_bind hcourse (Session.develops_implementAs _ _ _ _ _ _ htrait) ?_
  intro result after _
  cases result with
  | ok done => exact hcourse.refl after
  | error error => exact hcourse.refl after

theorem develops_registerNative (id : RegistryId) (target : Ty) (name : String) (body : Body) :
    CallM.Develops id (registerNative id target name body) := by
  have hcourse := Session.course_develops id
  refine Moves.bind hcourse (fun session => session.develops_newMethod id body) fun method => ?_
  refine Moves.bind hcourse (fun session => session.develops_identify id target) fun token => ?_
  refine Moves.bind hcourse (fun session => ?_) fun done => hcourse.refl
  exact session.develops_defineNative id token name method

/-! ## All calls -/

/-- That nothing but changes in a registry is done is respected by the evaluator. -/
def developing (id : RegistryId) : Congruence id :=
  .moving (Session.course_develops id) (fun key session => session.develops_define id key)
    (fun value session => session.develops_identifyValue id value) (develops_registerTrait id)
    (develops_registerNative id)

/-- **Whatever a method body does to a session is a matter of single changes** in the registry of
its receiver, at any depth of nested calls. -/
theorem developing_calls (id : RegistryId) (depth : Nat) :
    (developing id).Calls (invoke depth) (invoke depth) :=
  Congruence.invoke 0 (fun _ _ _ _ => moves_throw (Session.course_develops id) .tooDeep) depth

end TraitSystem
