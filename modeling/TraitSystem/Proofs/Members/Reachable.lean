import TraitSystem.Members.Basic
import TraitSystem.Proofs.Members.Target

/-!
# Reachable members

`Members.Reachable` says which members there can be: none, and what accepted registrations make of
those before, in any order and for any targets.  A registration concerns one target and leaves all
others alone, so what every change of a target preserves holds of all targets (`Reachable.target`),
and every implementation there is has been registered (`Reachable.mem_history`).

A registration that is refused leaves nothing behind (`tryImplement_eq`).  It might, because the
target is tracked before it is asked the second time whether the trait can be implemented.  But
tracking a target does not change what is registered for it, and the second answer is the first.
-/

namespace TraitSystem.Members

/-! ## One registration -/

theorem target_enter (members : Members) (identity : Token) (target : Target)
    (registration : Registration) (other : Token) :
    (members.enter identity target registration).target other =
      if identity = other then target else members.target other := by
  unfold enter Members.target
  rw [Table.find?_insert]
  split <;> rfl

/-- A target that is tracked is what it was. -/
theorem target_track (members : Members) (identity other : Token) :
    (members.track identity).target other = members.target other := by
  unfold track
  rw [Members.target, Table.find?_insert]
  split
  · subst other
    rfl
  · rfl

theorem enter_track (members : Members) (identity : Token) (target : Target)
    (registration : Registration) :
    (members.track identity).enter identity target registration =
      members.enter identity target registration := by
  unfold track enter
  rw [Table.insert_insert_self]

/-- **The second question is answered as the first.**  So what is refused leaves all members as they
were, and what is accepted is entered in their history. -/
theorem tryImplement_eq (members : Members) (identity : Token) (targetName : String)
    (trait : Trait) (overrides : Overrides) (completeness : Completeness) :
    members.tryImplement identity targetName trait overrides completeness =
      match (members.target identity).implement targetName trait overrides completeness with
      | .error error => (.error error, members)
      | .ok target =>
        (.ok (), members.enter identity target
          (.implementation identity trait overrides completeness)) := by
  unfold tryImplement Target.implement
  cases hrefusal : (members.target identity).refusal? targetName trait with
  | some error => rfl
  | none =>
      cases Implementation.ofOverrides targetName trait overrides completeness with
      | error error => rfl
      | ok implementation => simp only [target_track, hrefusal, enter_track]

theorem implement_eq (members : Members) (identity : Token) (targetName : String)
    (trait : Trait) (overrides : Overrides) (completeness : Completeness) :
    members.implement identity targetName trait overrides completeness =
      ((members.target identity).implement targetName trait overrides completeness).map fun target =>
        members.enter identity target (.implementation identity trait overrides completeness) := by
  unfold implement
  rw [tryImplement_eq]
  cases (members.target identity).implement targetName trait overrides completeness <;> rfl

theorem tryImplement_eq_of_implement {members after : Members} {identity : Token}
    {targetName : String} {trait : Trait} {overrides : Overrides} {completeness : Completeness}
    (hafter : members.implement identity targetName trait overrides completeness = .ok after) :
    members.tryImplement identity targetName trait overrides completeness = (.ok (), after) := by
  rw [implement_eq] at hafter
  rw [tryImplement_eq]
  cases htarget : (members.target identity).implement targetName trait overrides completeness with
  | error error =>
      rw [htarget] at hafter
      cases hafter
  | ok target =>
      rw [htarget] at hafter
      cases hafter
      rfl

theorem defineNative_eq (members : Members) (identity : Token) (name : String)
    (method : Method) :
    members.defineNative identity name method =
      members.enter identity ((members.target identity).defineNative name method)
        (.native identity name method) := by
  unfold defineNative
  dsimp only
  rw [target_track, enter_track]

theorem target_defineNative (members : Members) (identity : Token) (name : String)
    (method : Method) (other : Token) :
    (members.defineNative identity name method).target other =
      if identity = other then (members.target identity).defineNative name method
      else members.target other := by
  rw [defineNative_eq, target_enter]

/-- An accepted implementation is stored for its target and entered in the history. -/
theorem implement_eq_ok {members after : Members} {identity : Token} {targetName : String}
    {trait : Trait} {overrides : Overrides} {completeness : Completeness}
    (hafter : members.implement identity targetName trait overrides completeness = .ok after) :
    ∃ implementation : Implementation,
      Implementation.ofOverrides targetName trait overrides completeness = .ok implementation ∧
      Target.Change (members.target identity)
        ((members.target identity).register implementation) ∧
      (∀ other, after.target other =
        if identity = other then (members.target identity).register implementation
        else members.target other) ∧
      after.history =
        members.history ++ [.implementation identity trait overrides completeness] := by
  rw [implement_eq] at hafter
  cases htarget : (members.target identity).implement targetName trait overrides completeness with
  | error error =>
      rw [htarget] at hafter
      cases hafter
  | ok target =>
      rw [htarget] at hafter
      cases hafter
      obtain ⟨implementation, hbuilt, hnew, hancestors, rfl⟩ := Target.implement_eq_ok htarget
      obtain rfl := Implementation.trait_ofOverrides hbuilt
      have hchange := Target.Change.register hnew hancestors
      exact ⟨implementation, hbuilt, hchange, members.target_enter identity _ _, rfl⟩

/-- What any number of registrations make of each target. -/
def Evolves (old new : Members) : Prop :=
  ∀ identity, (old.target identity).Evolves (new.target identity)

theorem Evolves.refl (members : Members) : members.Evolves members := fun _ =>
  Target.Evolves.refl _

theorem evolves_implement {members after : Members} {identity : Token} {targetName : String}
    {trait : Trait} {overrides : Overrides} {completeness : Completeness}
    (hafter : members.implement identity targetName trait overrides completeness = .ok after) :
    members.Evolves after := by
  obtain ⟨implementation, -, hchange, htarget, -⟩ := implement_eq_ok hafter
  intro other
  rw [htarget]
  split
  · subst other
    exact hchange.evolves
  · exact Target.Evolves.refl _

theorem evolves_defineNative (members : Members) (identity : Token) (name : String)
    (method : Method) : members.Evolves (members.defineNative identity name method) := by
  intro other
  rw [target_defineNative]
  split
  · subst other
    exact (Target.Change.defineNative _ name method).evolves
  · exact Target.Evolves.refl _

/-- An implementation of a trait was registered, for whatever identity. -/
def Registers (members : Members) (trait : Trait) : Prop :=
  ∃ identity overrides completeness,
    Registration.implementation identity trait overrides completeness ∈ members.history

theorem registers_implement {members after : Members} {identity : Token} {targetName : String}
    {trait other : Trait} {overrides : Overrides} {completeness : Completeness}
    (hafter : members.implement identity targetName trait overrides completeness = .ok after)
    (hother : after.Registers other) : members.Registers other ∨ other = trait := by
  obtain ⟨_, -, -, -, hhistory⟩ := implement_eq_ok hafter
  obtain ⟨identity, overrides, completeness, hmem⟩ := hother
  rw [hhistory, List.mem_append, List.mem_singleton] at hmem
  rcases hmem with hold | hnew
  · exact Or.inl ⟨identity, overrides, completeness, hold⟩
  · cases hnew
    exact Or.inr rfl

theorem registers_defineNative {members : Members} {identity : Token} {name : String}
    {method : Method} {trait : Trait}
    (htrait : (members.defineNative identity name method).Registers trait) :
    members.Registers trait := by
  obtain ⟨other, overrides, completeness, hmem⟩ := htrait
  have hold := List.mem_append.mp hmem
  rw [List.mem_singleton] at hold
  exact ⟨other, overrides, completeness, hold.resolve_right nofun⟩

/-! ## Any number of registrations -/

/-- The members that accepted registrations make of none. -/
inductive Reachable : Members → Prop
  | empty : Reachable .empty
  | implement {members after : Members} (hreachable : Reachable members) {identity : Token}
      {targetName : String} {trait : Trait} {overrides : Overrides} {completeness : Completeness}
      (hafter : members.implement identity targetName trait overrides completeness = .ok after) :
      Reachable after
  | defineNative {members : Members} (hreachable : Reachable members) (identity : Token)
      (name : String) (method : Method) : Reachable (members.defineNative identity name method)

namespace Reachable

variable {members : Members}

/-- Every target is what changes made of the empty one. -/
theorem target (hreachable : members.Reachable) (identity : Token) :
    Target.empty.Evolves (members.target identity) := by
  induction hreachable with
  | empty => exact Target.Evolves.refl _
  | implement _ hafter ih => exact ih.trans (evolves_implement hafter identity)
  | defineNative _ other name method ih =>
      exact ih.trans (evolves_defineNative _ other name method identity)

/-- Every implementation was registered. -/
theorem mem_history (hreachable : members.Reachable) {identity token : Token}
    {implementation : Implementation}
    (hfind : members.implementation? identity token = some implementation) :
    ∃ overrides completeness, Registration.implementation identity implementation.trait overrides
      completeness ∈ members.history := by
  induction hreachable with
  | empty => cases hfind
  | @implement before after _ other _ trait overrides completeness hafter ih =>
      obtain ⟨stored, hbuilt, -, htarget, hhistory⟩ := implement_eq_ok hafter
      obtain rfl := Implementation.trait_ofOverrides hbuilt
      have hold : before.implementation? identity token = some implementation →
          ∃ overrides completeness, Registration.implementation identity implementation.trait
            overrides completeness ∈ after.history := by
        intro hbefore
        obtain ⟨overrides, completeness, hmem⟩ := ih hbefore
        rw [hhistory]
        exact ⟨overrides, completeness, List.mem_append_left _ hmem⟩
      unfold implementation? at hfind hold
      rw [htarget] at hfind
      -- it is the implementation just stored, or one of the same target, or of another one
      split at hfind
      · subst other
        rw [Target.implementations_register, Table.find?_insert] at hfind
        split at hfind
        · cases hfind
          rw [hhistory]
          exact ⟨overrides, completeness, List.mem_append_right _ (List.mem_singleton_self _)⟩
        · exact hold hfind
      · exact hold hfind
  | @defineNative before _ other name method ih =>
      have hbefore : before.implementation? identity token = some implementation := by
        unfold implementation? at hfind ⊢
        rw [target_defineNative] at hfind
        split at hfind
        · subst other
          exact hfind
        · exact hfind
      obtain ⟨overrides, completeness, hmem⟩ := ih hbefore
      exact ⟨overrides, completeness, List.mem_append_left _ hmem⟩

end Reachable

end TraitSystem.Members
