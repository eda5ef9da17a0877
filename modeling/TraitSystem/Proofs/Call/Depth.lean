import TraitSystem.Proofs.Call.Views

/-!
# The depth of calls

How deeply calls may be nested is no part of what they mean.  A call that comes to an end does so in
the same way when calls may be nested more deeply (`Receiver.callTrait_succ`): where the limit was
not reached, it was not looked at.
-/

namespace TraitSystem

namespace CallM

variable {α β : Type}

/-- A computation ends because calls were nested too deeply. -/
def TooDeep (action : CallM α) (session : Session) : Prop :=
  (action session).1 = .error .tooDeep

theorem TooDeep.bind {action : CallM α} {next : α → CallM β} {session : Session}
    (hdeep : action.TooDeep session) : (action >>= next).TooDeep session := by
  unfold TooDeep at hdeep ⊢
  rw [bind_apply]
  rcases houtcome : action session with ⟨fault | a, after⟩ <;> rw [houtcome] at hdeep <;>
    cases hdeep
  rfl

/-- Where the first computation does not go too deep, the second one does the same. -/
def Below (action other : CallM α) : Prop :=
  ∀ session, ¬ action.TooDeep session → other session = action session

theorem Below.refl (action : CallM α) : Below action action := fun _ _ => rfl

theorem below_tooDeep (other : CallM α) : Below (throw .tooDeep) other :=
  fun _ hends => absurd rfl hends

theorem Below.bind {action other : CallM α} {next following : α → CallM β}
    (hfirst : Below action other) (hnext : ∀ a, Below (next a) (following a)) :
    Below (action >>= next) (other >>= following) := by
  intro session hends
  unfold TooDeep at hends
  rw [bind_apply] at hends
  rw [bind_apply, bind_apply]
  have hsame := hfirst session
  unfold TooDeep at hsame
  cases houtcome : action session with
  | mk result after =>
      rw [houtcome] at hends hsame
      cases result with
      | error fault =>
          have hfault : fault ≠ .tooDeep := fun hfault => hends (congrArg _ hfault)
          rw [hsame fun hdeep => hfault (Except.error.inj hdeep)]
      | ok a =>
          rw [hsame nofun]
          exact hnext a after hends

theorem Below.attempt {action other : CallM α} (hbelow : Below action other) :
    Below (CallM.attempt action) (CallM.attempt other) := by
  intro session hends
  unfold TooDeep CallM.attempt at hends
  unfold CallM.attempt
  have hsame := hbelow session
  unfold TooDeep at hsame
  cases houtcome : action session with
  | mk result after =>
      rw [houtcome] at hends hsame
      rw [hsame ?_]
      rintro rfl
      exact hends rfl

end CallM

open CallM

/-- That computations which do not go too deep are the same is respected by the evaluator. -/
def deepening (id : RegistryId) : Congruence id where
  Related := Below
  pure _ := Below.refl _
  raise _ := Below.refl _
  bind := Below.bind
  attempt := Below.attempt
  get := Below.refl _
  identifyValue _ := Below.refl _
  requestTrait _ := Below.refl _
  standardTrait _ := Below.refl _
  registerTrait _ _ _ := Below.refl _
  registerNative _ _ _ := Below.refl _

/-- **Methods that do not go too deep do the same when they may go deeper.** -/
theorem deepening_calls (id : RegistryId) (depth : Nat) :
    (deepening id).Calls (invoke depth) (invoke (depth + 1)) :=
  Congruence.invoke 1 (fun _ _ _ _ => below_tooDeep _) depth

theorem Receiver.callTrait_succ {receiver : Receiver} {depth : Nat} {trait : Trait}
    {method : String} {args : Args} {session : Session}
    (hends : ¬ (receiver.callTrait (invoke depth) trait method args).TooDeep session) :
    receiver.callTrait (invoke (depth + 1)) trait method args session =
      receiver.callTrait (invoke depth) trait method args session :=
  Congruence.callTrait (deepening_calls receiver.registry depth) rfl trait method args session hends

end TraitSystem
