import TraitSystem.Proofs.Members.Reachable

/-!
# What a name stands for

Which member a name leads to can be read off what was registered: the native that was defined last
under the name, and without one the trait that was implemented first among those that declare it
(`Reachable.member?_eq`).

## Strategy

The natives of a target follow the history directly.  Its forwards do not follow the implemented
traits as long as there is a native of that name: a native that comes first keeps all traits from
forwarding the name, and one that comes later hides a forward that stays where it is.  But natives
are never taken back, so it is enough to know the forwards of names without a native
(`Target.Resolved`).
-/

namespace TraitSystem

/-! ## Names without a native -/

/-- Without a native, a name is forwarded to the first implemented trait that declares it. -/
def Target.Resolved (target : Target) : Prop :=
  ∀ name, target.natives.find? name = none →
    target.forwards.find? name = target.traits.find? fun trait => trait.declares name

namespace Target

theorem resolved_empty : Target.empty.Resolved := fun _ _ => rfl

theorem Change.resolved {old new : Target} (hchange : Change old new) (hold : old.Resolved) :
    new.Resolved := by
  intro name hnone
  cases hchange with
  | @register implementation hnew _ =>
      rw [natives_register] at hnone
      -- the new trait comes last in both: in the order of traits and in the claim to the name
      rw [find?_forwards_register, traits_register hnew, List.find?_append, hold name hnone]
      cases hdeclares : implementation.trait.declares name with
      | true => simp [hdeclares, hnone]
      | false => simp [hdeclares]
  | defineNative other method =>
      -- a native of this very name would be found
      have hne : other ≠ name := by
        rintro rfl
        cases (Table.find?_insert_self old.natives other method).symm.trans hnone
      have hbefore : old.natives.find? name = none :=
        (Table.find?_insert_of_ne old.natives method hne).symm.trans hnone
      exact hold name hbefore

theorem Evolves.resolved {old new : Target} (hevolves : old.Evolves new) (hold : old.Resolved) :
    new.Resolved := by
  induction hevolves with
  | refl => exact hold
  | tail _ hchange ih => exact hchange.resolved ih

end Target

/-! ## The latest native -/

/-- The body that a registration gives to a native member. -/
def Registration.native? (identity : Token) (name : String) : Registration → Option Method
  | .implementation .. => none
  | .native other member method => if other = identity ∧ member = name then some method else none

namespace Members

/-- The body that a native member was given last. -/
def latestNative? (history : List Registration) (identity : Token) (name : String) :
    Option Method :=
  history.reverse.findSome? (Registration.native? identity name)

theorem latestNative?_append (history : List Registration) (registration : Registration)
    (identity : Token) (name : String) :
    latestNative? (history ++ [registration]) identity name =
      (registration.native? identity name).or (latestNative? history identity name) := by
  unfold latestNative?
  rw [List.reverse_append, List.reverse_singleton, List.singleton_append, List.findSome?_cons]
  cases registration.native? identity name <;> rfl

namespace Reachable

variable {members : Members}

theorem find?_natives (hreachable : members.Reachable) (identity : Token) (name : String) :
    (members.target identity).natives.find? name = latestNative? members.history identity name := by
  induction hreachable with
  | empty => rfl
  | implement _ hafter ih =>
      obtain ⟨implementation, -, -, htarget, hhistory⟩ := implement_eq_ok hafter
      rw [hhistory, latestNative?_append, htarget, ← ih]
      show _ = none.or _
      split
      · subst identity
        rw [Target.natives_register, Option.none_or]
      · rw [Option.none_or]
  | @defineNative before _ other member method ih =>
      show _ = latestNative? (before.history ++ [_]) identity name
      rw [latestNative?_append, target_defineNative, ← ih]
      unfold Registration.native?
      by_cases hother : other = identity
      · subst other
        by_cases hmember : member = name
        · subst member
          simp [Target.defineNative]
        · simp [Target.defineNative, hmember]
      · simp [hother]

/-- A name stands for the native defined last, and else for the first implemented trait that
declares it. -/
theorem member?_eq (hreachable : members.Reachable) (identity : Token) (name : String) :
    members.member? identity name =
      ((latestNative? members.history identity name).map Member.native).or
        (((members.traitsOf identity).find? fun trait => trait.declares name).map
          Member.forward) := by
  have hresolved := (hreachable.target identity).resolved Target.resolved_empty
  rw [← hreachable.find?_natives]
  unfold member? Target.member?
  cases hnative : (members.target identity).natives.find? name with
  | some method => rfl
  | none =>
      show ((members.target identity).forwards.find? name).map Member.forward = _
      rw [hresolved name hnative]
      rfl

/-- Every name that an implemented trait declares stands for something. -/
theorem isSome_member? (hreachable : members.Reachable) {identity : Token} {trait : Trait}
    (htrait : trait ∈ members.traitsOf identity) {name : String}
    (hdeclares : trait.declares name) : (members.member? identity name).isSome := by
  rw [hreachable.member?_eq, Option.isSome_or, Option.isSome_map, Option.isSome_map,
    List.find?_isSome.mpr ⟨trait, htrait, hdeclares⟩, Bool.or_true]

end Reachable

end Members

end TraitSystem
