import TraitSystem.Proofs.Members.Admission
import TraitSystem.Proofs.Members.Coherence
import Mathlib.Data.List.Dedup

/-!
# Members are what was registered

A target keeps its implementations and the order in which they were registered apart from each
other, and how many implementations and targets there are is counted over all targets whenever it is
asked for.  All of this can be read off the registrations that were accepted, in their order.

That an identity has no two implementations of one trait is seen from the registrations, too: no two
of them are for the same pair (`Reachable.nodup_pairs`).
-/

namespace TraitSystem

/-! ## Registrations -/

namespace Registration

/-- The identity for which something was registered. -/
def identity : Registration → Token
  | implementation identity .. => identity
  | native identity .. => identity

/-- The trait that a registration implements for an identity. -/
def implemented? (identity : Token) : Registration → Option Trait
  | implementation other trait .. => if other = identity then some trait else none
  | native .. => none

/-- The identity and the trait that an implementation is for. -/
def pair? : Registration → Option (Token × Token)
  | implementation identity trait .. => some (identity, trait.identity)
  | native .. => none

theorem pair?_eq_some_iff {registration : Registration} {identity token : Token} :
    registration.pair? = some (identity, token) ↔
      ∃ trait, registration.implemented? identity = some trait ∧ trait.identity = token := by
  cases registration with
  | native other name method => simp [pair?, implemented?]
  | implementation other trait overrides completeness =>
      by_cases hother : other = identity
      · simp [pair?, implemented?, hother]
      · simp [pair?, implemented?, hother]

end Registration

namespace Members

variable {members : Members}

theorem size_eq_sum (members : Members) :
    members.size =
      (members.targets.values.map fun target => target.implementations.size).sum := by
  unfold size
  rw [← List.foldl_map (f := fun target : Target => target.implementations.size)
    (g := fun total size => total + size), List.sum_eq_foldl]

/-- A target for which nothing is registered adds nothing to the number of implementations. -/
theorem size_target (members : Members) (identity : Token) :
    (members.targets.find? identity).elim 0 (fun target => target.implementations.size) =
      (members.target identity).implementations.size := by
  unfold target
  cases members.targets.find? identity <;> rfl

section

variable (members : Members) (identity : Token) (target : Target) (registration : Registration)

theorem size_enter :
    (members.enter identity target registration).size +
        (members.target identity).implementations.size =
      members.size + target.implementations.size := by
  rw [size_eq_sum, size_eq_sum, ← size_target]
  exact Table.sum_map_values_insert members.targets identity target _

theorem keys_enter :
    (members.enter identity target registration).targets.keys =
      appendNew members.targets.keys identity :=
  members.targets.keys_insert_eq_appendNew identity target

theorem history_enter :
    (members.enter identity target registration).history = members.history ++ [registration] := rfl

end

/-- What is accepted is one more implementation. -/
theorem size_implement {after : Members} {identity : Token} {targetName : String} {trait : Trait}
    {overrides : Overrides} {completeness : Completeness}
    (hafter : members.implement identity targetName trait overrides completeness = .ok after) :
    after.size = members.size + 1 := by
  obtain ⟨hnew, rfl⟩ := eq_enter_of_implement hafter
  have hregistered : ((members.target identity).register
      (.merged trait overrides)).implementations.size =
        (members.target identity).implementations.size + 1 := by
    have hcontains := (Table.contains_eq_false_iff _ _).mpr hnew
    rw [Target.implementations_register, Table.size_insert]
    exact if_neg (Bool.eq_false_iff.mp hcontains)
  have hsize := members.size_enter identity
    ((members.target identity).register (.merged trait overrides))
    (.implementation identity trait overrides completeness)
  omega

namespace Reachable

/-! ## What the tables hold -/

/-- The traits of a target are those that were registered for it, in the same order. -/
theorem traitsOf_eq (hreachable : members.Reachable) (identity : Token) :
    members.traitsOf identity =
      members.history.filterMap (Registration.implemented? identity) := by
  induction hreachable with
  | empty => rfl
  | @implement before after _ other _ trait _ _ hafter ih =>
      obtain ⟨implementation, hbuilt, -, htarget, hhistory⟩ := implement_eq_ok hafter
      obtain ⟨hnew, -⟩ := eq_enter_of_implement hafter
      obtain rfl := Implementation.trait_ofOverrides hbuilt
      rw [hhistory, List.filterMap_append, ← ih]
      show (after.target identity).traits = (before.target identity).traits ++ _
      rw [htarget]
      by_cases hother : other = identity
      · subst hother
        rw [if_pos rfl, Target.traits_register hnew]
        simp [Registration.implemented?]
      · simp [Registration.implemented?, hother]
  | @defineNative before _ other name method ih =>
      rw [defineNative_eq, history_enter, List.filterMap_append, ← ih]
      show (Members.target _ identity).traits = (before.target identity).traits ++ _
      rw [target_enter]
      by_cases hother : other = identity
      · subst hother
        simp [Registration.implemented?, Target.traits, Target.defineNative]
      · simp [Registration.implemented?, hother]

theorem contains_iff (hreachable : members.Reachable) (identity token : Token) :
    members.contains identity token ↔ token ∈ (members.traitsOf identity).map Trait.identity := by
  have hcoherent := (hreachable.target identity).coherent Target.coherent_empty
  show _ ↔ token ∈ (members.target identity).traits.map Trait.identity
  rw [hcoherent.map_identity_traits, (members.target identity).mem_order_iff]
  rfl

/-- Every trait is registered at most once for every identity. -/
theorem nodup_pairs (hreachable : members.Reachable) :
    (members.history.filterMap Registration.pair?).Nodup := by
  induction hreachable with
  | empty => exact List.nodup_nil
  | @implement before after hbefore identity _ trait _ _ hafter ih =>
      obtain ⟨hnew, rfl⟩ := eq_enter_of_implement hafter
      rw [history_enter, List.filterMap_append]
      show (_ ++ [(identity, trait.identity)]).Nodup
      rw [← List.concat_eq_append]
      refine List.Nodup.concat ?_ ih
      -- a registration for the pair would have left an implementation behind
      intro hmem
      obtain ⟨registration, hregistration, hpair⟩ := List.mem_filterMap.mp hmem
      obtain ⟨known, himplemented, hidentity⟩ := Registration.pair?_eq_some_iff.mp hpair
      have hlisted : known ∈ before.traitsOf identity := by
        rw [hbefore.traitsOf_eq]
        exact List.mem_filterMap.mpr ⟨registration, hregistration, himplemented⟩
      have hcontains := (hbefore.contains_iff identity trait.identity).mpr
        (List.mem_map.mpr ⟨known, hlisted, hidentity⟩)
      rw [contains, implementation?, hnew] at hcontains
      cases hcontains
  | @defineNative before _ other name method ih =>
      rw [defineNative_eq, history_enter, List.filterMap_append]
      show (_ ++ []).Nodup
      rw [List.append_nil]
      exact ih

/-- The number of implementations is that of registrations of implementations. -/
theorem size_eq (hreachable : members.Reachable) :
    members.size = (members.history.filterMap Registration.pair?).length := by
  induction hreachable with
  | empty => rfl
  | implement _ hafter ih =>
      obtain ⟨-, -, -, -, hhistory⟩ := implement_eq_ok hafter
      rw [hhistory, List.filterMap_append, List.length_append, ← ih]
      exact size_implement hafter
  | @defineNative before _ identity name method ih =>
      have hsize := before.size_enter identity
        ((before.target identity).defineNative name method) (.native identity name method)
      rw [defineNative_eq, history_enter, List.filterMap_append, List.length_append, ← ih]
      exact Nat.add_right_cancel hsize

/-- The targets are the identities for which something was registered. -/
theorem keys_eq (hreachable : members.Reachable) :
    members.targets.keys = mergeNew [] (members.history.map Registration.identity) := by
  induction hreachable with
  | empty => rfl
  | implement _ hafter ih =>
      obtain ⟨-, rfl⟩ := eq_enter_of_implement hafter
      rw [keys_enter, history_enter, List.map_append, ih]
      exact (mergeNew_concat _ _ _).symm
  | @defineNative before _ identity name method ih =>
      rw [defineNative_eq, keys_enter, history_enter, List.map_append, ih]
      exact (mergeNew_concat _ _ _).symm

theorem targetCount_eq (hreachable : members.Reachable) :
    members.targetCount = (members.history.map Registration.identity).dedup.length := by
  have hperm : members.targets.keys.Perm (members.history.map Registration.identity).dedup := by
    rw [hreachable.keys_eq]
    have hnodup : (mergeNew [] (members.history.map Registration.identity)).Nodup :=
      nodup_mergeNew List.nodup_nil _
    refine (List.perm_ext_iff_of_nodup hnodup (List.nodup_dedup _)).mpr ?_
    intro identity
    simp [mem_mergeNew]
  unfold targetCount
  rw [← Table.length_keys]
  exact hperm.length_eq

end Reachable

end Members

end TraitSystem
