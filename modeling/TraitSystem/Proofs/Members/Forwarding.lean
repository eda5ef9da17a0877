import TraitSystem.Proofs.Members.Reachable

/-!
# Forwards have implementations behind them

A forward keeps the trait for which it was installed, and its body is looked up anew whenever it is
called, by the identity of that trait.  Another trait may have the same identity, if it comes from
another registry or was defined from another signature.  But a target implements every identity once
and for all, so what is found is the implementation that the forward was installed with
(`Reachable.find?_forwards`).  What bodies this implementation has was settled by its registration
(`Reachable.ofOverrides_of_mem_history`).
-/

namespace TraitSystem

/-! ## Complete implementations -/

/-- An implementation that had to be complete has a body for every declared method. -/
theorem Implementation.isSome_body?_of_atRegistration {targetName : String} {trait : Trait}
    {overrides : Overrides} {implementation : Implementation}
    (hbuilt : ofOverrides targetName trait overrides .atRegistration = .ok implementation)
    {method : String} (hdeclares : trait.declares method) :
    (implementation.body? method).isSome := by
  have htrait : implementation.trait = trait := trait_ofOverrides hbuilt
  have hkey : method ∈ implementation.trait.methods.keys := by
    rw [htrait]
    exact (Table.mem_keys_iff _ _).mpr hdeclares
  have hmissing : implementation.missing? = none := by
    unfold ofOverrides at hbuilt
    cases hoverride : (ofDefaults trait).override overrides.entries with
    | error error =>
        rw [hoverride] at hbuilt
        cases hbuilt
    | ok built =>
        cases hnone : built.missing? with
        | some missing =>
            simp only [hoverride, hnone] at hbuilt
            cases hbuilt
        | none =>
            simp only [hoverride, hnone] at hbuilt
            cases hbuilt
            exact hnone
  have hhas : implementation.bodies.contains method := by
    simpa using List.find?_eq_none.mp hmissing method hkey
  exact hhas

/-! ## One target -/

/-- Every forward leads to the stored implementation of the very trait that it names, and the trait
declares the name. -/
def Target.Backed (target : Target) : Prop :=
  ∀ name trait, target.forwards.find? name = some trait → trait.declares name ∧
    ∃ implementation, target.implementations.find? trait.identity = some implementation ∧
      implementation.trait = trait

namespace Target

theorem backed_empty : Target.empty.Backed := fun _ _ h => nomatch h

theorem Change.backed {old new : Target} (hchange : Change old new) (hold : old.Backed) :
    new.Backed := by
  cases hchange with
  | defineNative name method => exact hold
  | @register implementation hnew _ =>
      intro name trait hforward
      rw [find?_forwards_register] at hforward
      rw [implementations_register]
      cases hbefore : old.forwards.find? name with
      | some known =>
          rw [hbefore, Option.some_or] at hforward
          cases hforward
          obtain ⟨hdeclares, stored, hstored, htrait⟩ := hold name trait hbefore
          refine ⟨hdeclares, stored, ?_, htrait⟩
          exact Table.find?_insert_of_find?_eq_none _ implementation hnew hstored
      | none =>
          -- the forward was installed together with the implementation
          rw [hbefore, Option.none_or, Option.ite_none_right_eq_some] at hforward
          obtain ⟨⟨hdeclares, -⟩, hsame⟩ := hforward
          cases hsame
          exact ⟨hdeclares, implementation, Table.find?_insert_self _ _ _, rfl⟩

theorem Evolves.backed {old new : Target} (hevolves : old.Evolves new) (hold : old.Backed) :
    new.Backed := by
  induction hevolves with
  | refl => exact hold
  | tail _ hchange ih => exact hchange.backed ih

end Target

/-! ## All targets -/

/-- How complete an implementation had to be. -/
def Registration.completeness? : Registration → Option Completeness
  | implementation _ _ _ completeness => some completeness
  | native .. => none

/-- All implementations had to be complete when they were registered. -/
def Members.AllComplete (members : Members) : Prop :=
  ∀ registration ∈ members.history, registration.completeness? ≠ some .atFirstCall

instance (members : Members) : Decidable members.AllComplete :=
  inferInstanceAs (Decidable (∀ registration ∈ members.history, _))

namespace Members.Reachable

variable {members : Members}

/-- The trait of a forward declares the name and is implemented, not only one of its identity. -/
theorem find?_forwards (hreachable : members.Reachable) {identity : Token} {name : String}
    {trait : Trait} (hforward : (members.target identity).forwards.find? name = some trait) :
    trait.declares name ∧ ∃ implementation,
      members.implementation? identity trait.identity = some implementation ∧
        implementation.trait = trait :=
  (hreachable.target identity).backed Target.backed_empty name trait hforward

/-- What was registered is there as it was built. -/
theorem ofOverrides_of_mem_history (hreachable : members.Reachable) {identity : Token}
    {trait : Trait} {overrides : Overrides} {completeness : Completeness}
    (hmem : Registration.implementation identity trait overrides completeness ∈ members.history) :
    ∃ targetName implementation,
      Implementation.ofOverrides targetName trait overrides completeness = .ok implementation ∧
        members.implementation? identity trait.identity = some implementation := by
  induction hreachable with
  | empty => cases hmem
  | @implement before after _ other targetName _ _ _ hafter ih =>
      obtain ⟨stored, hbuilt, -, htarget, hhistory⟩ := implement_eq_ok hafter
      rw [hhistory, List.mem_append, List.mem_singleton] at hmem
      rcases hmem with hold | hnew
      · obtain ⟨oldName, implementation, holdBuilt, hfind⟩ := ih hold
        have hkept := (evolves_implement hafter identity).extends.implementations _ _ hfind
        exact ⟨oldName, implementation, holdBuilt, hkept⟩
      · cases hnew
        refine ⟨targetName, stored, hbuilt, ?_⟩
        unfold implementation?
        rw [htarget, if_pos rfl, Target.implementations_register,
          Implementation.trait_ofOverrides hbuilt]
        exact Table.find?_insert_self _ _ _
  | @defineNative before _ other name method ih =>
      have hold : Registration.implementation identity trait overrides completeness ∈
          before.history := by
        rcases List.mem_append.mp hmem with hold | hnew
        · exact hold
        · cases List.mem_singleton.mp hnew
      obtain ⟨oldName, implementation, hbuilt, hfind⟩ := ih hold
      have hextends := (evolves_defineNative before other name method identity).extends
      exact ⟨oldName, implementation, hbuilt, hextends.implementations _ _ hfind⟩

/-- An implementation that was registered as complete has all bodies. -/
theorem isSome_body?_of_mem_history (hreachable : members.Reachable) {identity : Token}
    {trait : Trait} {overrides : Overrides}
    (hmem : Registration.implementation identity trait overrides .atRegistration ∈ members.history)
    {implementation : Implementation}
    (hfind : members.implementation? identity trait.identity = some implementation)
    {method : String} (hdeclares : trait.declares method) :
    (implementation.body? method).isSome := by
  obtain ⟨targetName, built, hbuilt, hbuiltFind⟩ := hreachable.ofOverrides_of_mem_history hmem
  rw [hfind] at hbuiltFind
  rw [Option.some_inj.mp hbuiltFind]
  exact Implementation.isSome_body?_of_atRegistration hbuilt hdeclares

/-- No body is missing where all implementations had to be complete. -/
theorem isSome_body?_of_allComplete (hreachable : members.Reachable)
    (hcomplete : members.AllComplete) {identity : Token} {implementation : Implementation}
    (hfind : members.implementation? identity implementation.trait.identity =
      some implementation) {method : String} (hdeclares : implementation.trait.declares method) :
    (implementation.body? method).isSome := by
  obtain ⟨overrides, completeness, hmem⟩ := hreachable.mem_history hfind
  cases completeness with
  | atFirstCall => exact absurd rfl (hcomplete _ hmem)
  | atRegistration => exact hreachable.isSome_body?_of_mem_history hmem hfind hdeclares

end Members.Reachable

end TraitSystem
