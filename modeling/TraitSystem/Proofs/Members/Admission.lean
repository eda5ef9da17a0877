import TraitSystem.Proofs.Session.Changes

/-!
# When a trait can be implemented

Four things can be wrong with an implementation: the target has one already, an ancestor of the
trait is not implemented, a body is given for a method that the trait does not declare, or a method
is left without a body where all of them are needed.  They are looked for in this order, and each
one is reported exactly if it is there and none of those before it (`Target.Decides`).

A refused implementation changes nothing at all.  An accepted one changes one target, in three
places (`Members.Gains`).  Both hold of every state, reachable or not
(`Session.implementAs_outcome`).
-/

namespace TraitSystem

/-! ## Bodies -/

/-- The table of the values that are present, each under its key. -/
theorem Table.find?_ofList_filterMap {κ α : Type} [DecidableEq κ] (table : Table κ (Option α))
    (key : κ) :
    (Table.ofList (table.entries.filterMap fun entry => entry.2.map (entry.1, ·))).find? key =
      (table.find? key).join := by
  have hsublist (entries : List (κ × Option α)) :
      ((entries.filterMap fun entry => entry.2.map (entry.1, ·)).map Prod.fst).Sublist
        (entries.map Prod.fst) := by
    induction entries with
    | nil => exact List.Sublist.refl _
    | cons entry rest ih =>
        obtain ⟨known, _ | value⟩ := entry
        · exact ih.cons known
        · exact ih.cons_cons known
  have hnodup := table.nodup.sublist (hsublist table.entries)
  rw [find?_ofList hnodup]
  apply Option.ext
  intro value
  rw [← Entries.mem_iff_find? hnodup, Option.join_eq_some_iff, ← table.mem_entries_iff,
    List.mem_filterMap]
  constructor
  · rintro ⟨⟨known, _ | stored⟩, hentry, hsame⟩
    · cases hsame
    · cases hsame
      exact hentry
  · intro hentry
    exact ⟨(key, some value), hentry, rfl⟩

/-- The first declared method with neither a default body nor an override. -/
def Trait.uncovered? (trait : Trait) (overrides : Overrides) : Option String :=
  trait.methods.keys.find? fun method =>
    (trait.default? method).isNone && !overrides.contains method

namespace Implementation

/-- The implementation by default bodies and overrides, whether it is admissible or not. -/
def merged (trait : Trait) (overrides : Overrides) : Implementation :=
  ⟨trait, (ofDefaults trait).bodies.insertAll overrides.entries⟩

/-- An override counts, and else the default body. -/
theorem body?_merged (trait : Trait) (overrides : Overrides) (method : String) :
    (merged trait overrides).body? method =
      (overrides.find? method).or (trait.default? method) := by
  have hdefault : (ofDefaults trait).bodies.find? method = trait.default? method :=
    Table.find?_ofList_filterMap trait.methods method
  rw [← hdefault]
  exact Table.find?_insertAll _ overrides method

theorem missing?_merged (trait : Trait) (overrides : Overrides) :
    (merged trait overrides).missing? = trait.uncovered? overrides := by
  have hcontains (method : String) : (merged trait overrides).bodies.contains method =
      (overrides.contains method || (trait.default? method).isSome) := by
    show ((merged trait overrides).body? method).isSome = _
    rw [body?_merged]
    exact Option.isSome_or
  have htest : (fun method => !(merged trait overrides).bodies.contains method) =
      fun method => (trait.default? method).isNone && !overrides.contains method := by
    funext method
    rw [hcontains]
    cases overrides.contains method <;> cases trait.default? method <;> rfl
  unfold missing? Trait.uncovered?
  rw [htest]
  rfl

/-- Overrides are put in place together, or the first that does not belong there is reported. -/
theorem override_eq (implementation : Implementation) (entries : List (String × Method)) :
    implementation.override entries =
      match (entries.map Prod.fst).find? fun name => !implementation.trait.declares name with
      | some name => .error (.unknownMethod name implementation.trait.name)
      | none => .ok { implementation with bodies := implementation.bodies.insertAll entries } := by
  induction entries generalizing implementation with
  | nil => rfl
  | cons entry rest ih =>
      obtain ⟨name, method⟩ := entry
      unfold override
      cases hdeclares : implementation.trait.declares name with
      | true =>
          rw [if_pos rfl, ih, List.map_cons, List.find?_cons_of_neg (by simp [hdeclares])]
          rfl
      | false =>
          rw [if_neg Bool.false_ne_true, List.map_cons,
            List.find?_cons_of_pos (by simp [hdeclares])]

/-- Building an implementation comes to two questions, asked one after the other. -/
theorem ofOverrides_eq (targetName : String) (trait : Trait) (overrides : Overrides)
    (completeness : Completeness) :
    ofOverrides targetName trait overrides completeness =
      match overrides.keys.find? fun name => !trait.declares name with
      | some name => .error (.unknownMethod name trait.name)
      | none =>
        match completeness, trait.uncovered? overrides with
        | .atRegistration, some method => .error (.missingMethod method trait.name targetName)
        | _, _ => .ok (merged trait overrides) := by
  rw [← missing?_merged]
  have hkeys : (overrides.entries.map Prod.fst).find?
      (fun name => !(ofDefaults trait).trait.declares name) =
        overrides.keys.find? fun name => !trait.declares name := rfl
  unfold ofOverrides
  rw [override_eq, hkeys]
  cases overrides.keys.find? fun name => !trait.declares name with
  | some name => rfl
  | none => rfl

theorem eq_merged_of_ofOverrides {targetName : String} {trait : Trait} {overrides : Overrides}
    {completeness : Completeness} {implementation : Implementation}
    (hbuilt : ofOverrides targetName trait overrides completeness = .ok implementation) :
    implementation = merged trait overrides := by
  rw [ofOverrides_eq] at hbuilt
  split at hbuilt
  · cases hbuilt
  · split at hbuilt
    · cases hbuilt
    · cases hbuilt
      rfl

end Implementation

/-! ## Decisions -/

/-- Overrides are for declared methods only. -/
def Overrides.Belong (overrides : Overrides) (trait : Trait) : Prop :=
  ∀ name, overrides.contains name → trait.declares name

namespace Target

/-- The target does not implement the trait yet, but all of its ancestors. -/
def Admits (target : Target) (trait : Trait) : Prop :=
  target.doesImplement trait = false ∧
    ∀ ancestor ∈ trait.ancestors, target.doesImplement ancestor

/-- The answer to an implementation is settled: each of the possible answers is given exactly in its
case. -/
structure Decides (target : Target) (targetName : String) (trait : Trait) (overrides : Overrides)
    (completeness : Completeness) (answer : Except ImplementError Unit) : Prop where
  duplicate : answer = .error (.duplicate targetName trait.name) ↔ target.doesImplement trait
  missingParent : ∀ name, answer = .error (.missingParent targetName trait.name name) ↔
    target.doesImplement trait = false ∧ ∃ ancestor,
      trait.ancestors.find? (fun ancestor => !target.doesImplement ancestor) = some ancestor ∧
        ancestor.name = name
  unknownMethod : (∃ method, answer = .error (.unknownMethod method trait.name)) ↔
    target.Admits trait ∧ ¬ overrides.Belong trait
  /-- The method of the error is one of those that do not belong there. -/
  notDeclared : ∀ method, answer = .error (.unknownMethod method trait.name) →
    overrides.contains method ∧ trait.declares method = false
  missingMethod : ∀ method, answer = .error (.missingMethod method trait.name targetName) ↔
    target.Admits trait ∧ overrides.Belong trait ∧ completeness = .atRegistration ∧
      trait.uncovered? overrides = some method
  accepted : answer = .ok () ↔ target.Admits trait ∧ overrides.Belong trait ∧
    (completeness = .atRegistration → trait.uncovered? overrides = none)

section

variable {target : Target} {targetName : String} {trait : Trait} {overrides : Overrides}
  {completeness : Completeness}

theorem decides_of_implemented (himplemented : target.doesImplement trait) :
    target.Decides targetName trait overrides completeness
      (.error (.duplicate targetName trait.name)) := by
  have hadmits : ¬ target.Admits trait := fun hadmits => by
    rw [hadmits.1] at himplemented
    cases himplemented
  constructor <;> simp [himplemented, hadmits]

theorem decides_of_missingParent (hnew : target.doesImplement trait = false) {ancestor : Trait}
    (hmissing : trait.ancestors.find? (fun ancestor => !target.doesImplement ancestor) =
      some ancestor) :
    target.Decides targetName trait overrides completeness
      (.error (.missingParent targetName trait.name ancestor.name)) := by
  have hadmits : ¬ target.Admits trait := by
    intro hadmits
    have htest := List.find?_some hmissing
    rw [hadmits.2 ancestor (List.mem_of_find?_eq_some hmissing)] at htest
    cases htest
  constructor <;> simp [hnew, hmissing, hadmits]

theorem refusal?_of_admits (hadmits : target.Admits trait) :
    target.refusal? targetName trait = none := by
  refine (target.refusal?_eq_none_iff targetName trait).mpr ⟨?_, hadmits.2⟩
  exact (Table.contains_eq_false_iff _ _).mp hadmits.1

/-- What is decided of a trait that is admitted is a matter of its bodies. -/
theorem decides_of_admits (hadmits : target.Admits trait) :
    target.Decides targetName trait overrides completeness
      ((Implementation.ofOverrides targetName trait overrides completeness).map fun _ => ()) := by
  obtain ⟨hnew, hancestors⟩ := id hadmits
  have hnone : trait.ancestors.find? (fun ancestor => !target.doesImplement ancestor) = none :=
    List.find?_eq_none.mpr fun ancestor hancestor => by simp [hancestors ancestor hancestor]
  rw [Implementation.ofOverrides_eq]
  cases hunknown : overrides.keys.find? fun name => !trait.declares name with
  | some method =>
      have hmember : overrides.contains method :=
        (overrides.mem_keys_iff method).mp (List.mem_of_find?_eq_some hunknown)
      have hdeclares : trait.declares method = false := by
        simpa using List.find?_some hunknown
      have hbelong : ¬ overrides.Belong trait := fun hbelong => by
        rw [hbelong method hmember] at hdeclares
        cases hdeclares
      constructor <;> simp [Except.map, hnew, hnone, hadmits, hbelong, hmember, hdeclares]
  | none =>
      have hbelong : overrides.Belong trait := fun method hmember => by
        simpa using List.find?_eq_none.mp hunknown method ((overrides.mem_keys_iff method).mpr
          hmember)
      cases completeness with
      | atFirstCall => constructor <;> simp [Except.map, hnew, hnone, hadmits, hbelong]
      | atRegistration =>
          cases huncovered : trait.uncovered? overrides with
          | some method =>
              constructor <;> simp [Except.map, hnew, hnone, hadmits, hbelong, huncovered]
          | none => constructor <;> simp [Except.map, hnew, hnone, hadmits, hbelong, huncovered]

end

/-- Every answer is given exactly in its case. -/
theorem decides_implement (target : Target) (targetName : String) (trait : Trait)
    (overrides : Overrides) (completeness : Completeness) :
    target.Decides targetName trait overrides completeness
      ((target.implement targetName trait overrides completeness).map fun _ => ()) := by
  cases hnew : target.doesImplement trait with
  | true =>
      have himplement : target.implement targetName trait overrides completeness =
          .error (.duplicate targetName trait.name) := by
        simp only [implement, refusal?, hnew, if_true]
      rw [himplement]
      exact decides_of_implemented hnew
  | false =>
      cases hmissing : trait.ancestors.find? fun ancestor => !target.doesImplement ancestor with
      | some ancestor =>
          have himplement : target.implement targetName trait overrides completeness =
              .error (.missingParent targetName trait.name ancestor.name) := by
            simp only [implement, refusal?, hnew, hmissing, Bool.false_eq_true, if_false,
              Option.map_some]
          rw [himplement]
          exact decides_of_missingParent hnew hmissing
      | none =>
          have hadmits : target.Admits trait := ⟨hnew, fun ancestor hancestor => by
            simpa using List.find?_eq_none.mp hmissing ancestor hancestor⟩
          have hdecides := @decides_of_admits target targetName trait overrides completeness hadmits
          unfold implement
          rw [refusal?_of_admits hadmits]
          cases hbuilt : Implementation.ofOverrides targetName trait overrides completeness <;>
            rw [hbuilt] at hdecides <;> exact hdecides

end Target

/-! ## Changes -/

/-- A trait gets the names it declares that are neither native nor forwarded. -/
theorem Target.find?_forwards_register_eq_ite (target : Target) (implementation : Implementation)
    (name : String) :
    (target.register implementation).forwards.find? name =
      if implementation.trait.declares name ∧ target.hasMember name = false then
        some implementation.trait
      else target.forwards.find? name := by
  rw [find?_forwards_register]
  unfold hasMember Table.contains
  cases target.forwards.find? name with
  | some known => simp
  | none => simp

namespace Members

/-- All that changes when a trait is implemented for an identity: the target has one more
implementation, which comes last, and its free names among those that the trait declares are
forwarded to the trait. -/
structure Gains (old new : Members) (identity : Token) (trait : Trait) (overrides : Overrides) :
    Prop where
  others : ∀ other, other ≠ identity → new.targets.find? other = old.targets.find? other
  tracked : new.targets.contains identity
  implementations : ∃ implementation,
    (new.target identity).implementations.entries =
        (old.target identity).implementations.entries ++ [(trait.identity, implementation)] ∧
      implementation.trait = trait ∧
      ∀ method, implementation.body? method =
        (overrides.find? method).or (trait.default? method)
  order : (new.target identity).order = (old.target identity).order ++ [trait.identity]
  natives : (new.target identity).natives = (old.target identity).natives
  forwards : ∀ name, (new.target identity).forwards.find? name =
    if trait.declares name ∧ (old.target identity).hasMember name = false then some trait
    else (old.target identity).forwards.find? name

variable {members after : Members} {identity : Token} {targetName : String} {trait : Trait}
  {overrides : Overrides} {completeness : Completeness}

theorem eq_enter_of_implement
    (hafter : members.implement identity targetName trait overrides completeness = .ok after) :
    (members.target identity).implementations.find? trait.identity = none ∧
      after = members.enter identity
        ((members.target identity).register (Implementation.merged trait overrides))
        (.implementation identity trait overrides completeness) := by
  rw [implement_eq] at hafter
  cases htarget : (members.target identity).implement targetName trait overrides completeness with
  | error error =>
      rw [htarget] at hafter
      cases hafter
  | ok target =>
      rw [htarget] at hafter
      cases hafter
      obtain ⟨implementation, hbuilt, hnew, -, rfl⟩ := Target.implement_eq_ok htarget
      rw [Implementation.eq_merged_of_ofOverrides hbuilt]
      exact ⟨hnew, rfl⟩

theorem gains_implement
    (hafter : members.implement identity targetName trait overrides completeness = .ok after) :
    members.Gains after identity trait overrides := by
  obtain ⟨hnew, henter⟩ := eq_enter_of_implement hafter
  have hown : after.target identity =
      (members.target identity).register (Implementation.merged trait overrides) := by
    rw [henter, target_enter, if_pos rfl]
  refine ⟨?_, ?_, ⟨Implementation.merged trait overrides, ?_, rfl, ?_⟩, ?_, ?_, ?_⟩
  · intro other hne
    rw [henter]
    exact Table.find?_insert_of_ne _ _ (Ne.symm hne)
  · rw [henter, enter, Table.contains_insert, decide_eq_true rfl, Bool.true_or]
  · rw [hown, Target.implementations_register]
    exact Table.entries_insert _ _ hnew
  · exact Implementation.body?_merged trait overrides
  · rw [hown, Target.order_register]
    rfl
  · rw [hown, Target.natives_register]
  · intro name
    rw [hown]
    exact Target.find?_forwards_register_eq_ite _ _ name

end Members

/-! ## In a session -/

namespace Session

/-- **Implementing a trait is all or nothing, and every answer has its case.**  An error leaves the
whole session as it was, and success changes the members of the registry in one target.  Asking by
identity alone is the same under the description of the identity and the option of the registry. -/
theorem implementAs_outcome (session : Session) (id : RegistryId) (identity : Token)
    (targetName : String) (trait : Trait) (overrides : Overrides) (completeness : Completeness) :
    let outcome := implementAs id identity targetName trait overrides completeness session
    let registry := session.registry id
    (registry.members.target identity).Decides targetName trait overrides completeness outcome.1 ∧
      (∀ error, outcome.1 = .error error → outcome.2 = session) ∧
      (outcome.1 = .ok () → ∃ members, registry.members.Gains members identity trait overrides ∧
        outcome.2 = session.setRegistry id { registry with members }) ∧
      implement id identity trait overrides session =
        implementAs id identity (session.identities.describe identity) trait overrides
          registry.options.completeness session := by
  intro outcome registry
  have hdecides := (registry.members.target identity).decides_implement targetName trait overrides
    completeness
  have hanswer : outcome.1 = ((registry.members.target identity).implement targetName trait
      overrides completeness).map fun _ => () := by
    show (registry.members.tryImplement identity targetName trait overrides completeness).1 = _
    rw [Members.tryImplement_eq]
    cases (registry.members.target identity).implement targetName trait overrides completeness <;>
      rfl
  rw [← hanswer] at hdecides
  rcases session.implementAs_cases id identity targetName trait overrides completeness with
    ⟨error, hrefused⟩ | ⟨members, hmembers, haccepted⟩
  · have houtcome : outcome = (.error error, session) := hrefused
    rw [houtcome] at hdecides ⊢
    exact ⟨hdecides, fun _ _ => rfl, nofun, rfl⟩
  · have houtcome : outcome = (.ok (), session.setRegistry id { registry with members }) :=
      haccepted
    rw [houtcome] at hdecides ⊢
    exact ⟨hdecides, nofun, fun _ => ⟨members, Members.gains_implement hmembers, rfl⟩, rfl⟩

end Session

end TraitSystem
