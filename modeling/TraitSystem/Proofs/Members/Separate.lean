import TraitSystem.Proofs.Members.History

/-!
# Targets are registered for separately

A registration looks at one target and at nothing else that is registered.  If it is accepted, a new
target is put in the place of that one and the registration is noted in the history (`store`).  So
what is known of the other targets stays known (`target_store_of_ne`), and registrations for two
targets come to the same in either order (`rearranged_store`).
-/

namespace TraitSystem

namespace Members

/-! ## Storing a target -/

/-- Puts what comes of a registration in its place.  Of one that is refused there comes nothing. -/
def store (members : Members) (identity : Token) :
    Option (Target × Registration) → Members
  | none => members
  | some (target, registration) => members.enter identity target registration

theorem target_store_of_ne (members : Members) {identity other : Token} (hne : other ≠ identity)
    (entry : Option (Target × Registration)) :
    (members.store identity entry).target other = members.target other := by
  cases entry with
  | none => rfl
  | some accepted =>
      unfold store
      rw [target_enter, if_neg (Ne.symm hne)]

/-! ## What is known of a target -/

/-- Members that answer all questions about a target alike. -/
structure SameAt (identity : Token) (first second : Members) : Prop where
  /-- Names stand for the same. -/
  member? : ∀ name, second.member? identity name = first.member? identity name
  /-- The same traits have the same bodies. -/
  implementation? : ∀ token, second.implementation? identity token =
    first.implementation? identity token
  contains : ∀ token, second.contains identity token = first.contains identity token
  /-- The same traits are listed, in the same order. -/
  traitsOf : second.traitsOf identity = first.traitsOf identity

theorem SameAt.of_target {identity : Token} {first second : Members}
    (hsame : second.target identity = first.target identity) : SameAt identity first second := by
  have himplementation (token : Token) :
      second.implementation? identity token = first.implementation? identity token := by
    unfold Members.implementation?
    rw [hsame]
  refine ⟨?_, himplementation, ?_, ?_⟩
  · intro name
    unfold Members.member?
    rw [hsame]
  · intro token
    unfold Members.contains
    rw [himplementation]
  · unfold Members.traitsOf
    rw [hsame]

/-! ## The order of registrations -/

/-- Members that differ in no more than the order in which registrations were made. -/
structure Rearranged (first second : Members) : Prop where
  targets : second.targets.entries.Perm first.targets.entries
  history : second.history.Perm first.history

variable {members first second : Members}

theorem Rearranged.refl (members : Members) : members.Rearranged members :=
  ⟨List.Perm.refl _, List.Perm.refl _⟩

/-- The order does not show in what is known of any target. -/
theorem Rearranged.sameAt (hrearranged : first.Rearranged second) (identity : Token) :
    SameAt identity first second := by
  apply SameAt.of_target
  unfold target
  rw [Table.find?_eq_of_perm hrearranged.targets]

/-- The order does not show in the numbers. -/
theorem Rearranged.size_eq (hrearranged : first.Rearranged second) :
    second.size = first.size ∧ second.targetCount = first.targetCount := by
  rw [size_eq_sum, size_eq_sum]
  exact ⟨((hrearranged.targets.map _).map _).sum_nat, hrearranged.targets.length_eq⟩

/-- **Registrations for two targets come to the same in either order.** -/
theorem rearranged_store (members : Members) {identity other : Token} (hne : identity ≠ other)
    (entry next : Option (Target × Registration)) :
    ((members.store identity entry).store other next).Rearranged
      ((members.store other next).store identity entry) := by
  cases entry with
  | none => exact Rearranged.refl _
  | some accepted =>
      cases next with
      | none => exact Rearranged.refl _
      | some following =>
          refine ⟨members.targets.perm_insert_insert hne accepted.1 following.1, ?_⟩
          show ((members.history ++ [following.2]) ++ [accepted.2]).Perm
            ((members.history ++ [accepted.2]) ++ [following.2])
          rw [List.append_assoc, List.append_assoc]
          exact (List.Perm.swap _ _ _).append_left _

end Members

end TraitSystem
