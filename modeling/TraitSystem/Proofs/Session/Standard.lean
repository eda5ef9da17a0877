import TraitSystem.Proofs.Hierarchy.Standard
import TraitSystem.Proofs.Session.Permanence
import TraitSystem.Proofs.Session.Registrations

/-!
# The standard traits in every session

Asking for a standard trait is the one thing that ends with a panic when it fails.  It never fails:
in every session that there can be, every registry can define every standard trait, and so no call
panics (`standards_defined`).

The sessions in the middle of a call count as well, since a default body asks for its trait when it
runs.  So what is shown of a computation is that it does not panic in any session and leaves one
from which the argument can go on (`CallM.Safe`), which the evaluator respects.
-/

namespace TraitSystem

/-! ## Traits that registries have -/

namespace Session

variable {session later : Session} {id : RegistryId}

/-- The trait that a registry has for a key. -/
def held? (session : Session) (id : RegistryId) (key : TraitKey) : Option Trait :=
  (session.identities.find? (.type (.trait key))).bind (session.registry id).hierarchy.find?

theorem held?_eq_some_iff {key : TraitKey} {trait : Trait} :
    session.held? id key = some trait ↔ ∃ token,
      session.identities.find? (.type (.trait key)) = some token ∧
        (session.registry id).hierarchy.find? token = some trait :=
  Option.bind_eq_some_iff

theorem Extends.held? (hextends : session.Extends later) {key : TraitKey} {trait : Trait}
    (hheld : session.held? id key = some trait) : later.held? id key = some trait := by
  obtain ⟨token, htoken, hfind⟩ := held?_eq_some_iff.mp hheld
  exact held?_eq_some_iff.mpr
    ⟨token, hextends.identities.tokens _ _ htoken, hextends.traits id token trait hfind⟩

theorem Reachable.develops (hreachable : session.Reachable)
    (hdevelops : session.Develops id later) : later.Reachable := by
  induction hdevelops with
  | refl => exact hreachable
  | tail _ hchange ih =>
      obtain ⟨options, hreaches⟩ := ih
      exact ⟨options, hreaches.change hchange.change⟩

/-- What a session has after a trait was defined. -/
theorem Reachable.held?_defineUnder (hreachable : session.Reachable) {key : TraitKey}
    {policy : CyclePolicy} {trait : Trait}
    (hanswer : (defineUnder id key policy session).1 = .ok trait) :
    (defineUnder id key policy session).2.held? id key = some trait := by
  have hbefore := hreachable.hierarchy id
  have hlookup := hbefore.wellFormedLookup
  obtain ⟨-, hfound⟩ := Hierarchy.define_sound hbefore.identities_wellFormed hlookup
    session.signatures policy key session.nextSerial
  refine held?_eq_some_iff.mpr ⟨trait.identity, Hierarchy.find?_define_identity hlookup hanswer, ?_⟩
  show ((setRegistry _ id _).registry id).hierarchy.find? _ = _
  rw [registry_setRegistry_self]
  exact hfound trait hanswer

/-! ## Standard traits -/

/-- A standard trait can be defined, and its ancestors are those that the registry has. -/
theorem Reachable.defineUnder_standard (hreachable : session.Reachable) (id : RegistryId)
    (standard : Standard) (policy : CyclePolicy) :
    ∃ trait after, defineUnder id (.standard standard) policy session = (.ok trait, after) ∧
      after.Reachable ∧ session.Extends after ∧ after.held? id (.standard standard) = some trait ∧
        trait.ancestors.map some = standard.outline.ancestors.map (after.held? id) := by
  have hdevelops := session.develops_defineUnder id (.standard standard) policy
  obtain ⟨trait, hanswer, hrealizes⟩ := (hreachable.hierarchy id).define_standard
    session.signatures policy standard session.nextSerial
  have hheld := hreachable.held?_defineUnder hanswer
  have hafter := hreachable.develops hdevelops
  refine ⟨trait, _, Prod.ext hanswer rfl, hafter, hdevelops.extends, hheld, ?_⟩
  -- the trait shares its ancestors with the registry, where they have the tokens of their keys
  obtain ⟨token, -, hfind⟩ := held?_eq_some_iff.mp hheld
  have hshared := ((hafter.hierarchy id).wellFormedLookup.wellFormed token trait hfind).shared
  rw [← List.forall₂_eq_eq_eq, List.forall₂_map_left_iff, List.forall₂_map_right_iff]
  refine ((List.forall₂_and_left _ _).mpr ⟨hshared, hrealizes.follows.ancestors⟩).imp ?_
  rintro ancestor key ⟨hown, hportrays⟩
  refine (held?_eq_some_iff.mpr ⟨ancestor.identity, ?_, hown⟩).symm
  exact hportrays.identity

theorem standardTrait_apply (id : RegistryId) (standard : Standard) (session : Session) :
    standardTrait id standard session =
      match define id (.standard standard) session with
      | (.ok trait, after) => (.ok trait, after)
      | (.error error, after) => (.error (.panic error.message), after) := by
  unfold standardTrait
  rw [CallM.bind_apply, CallM.lift_apply]
  rcases define id (.standard standard) session with ⟨error | trait, after⟩ <;> rfl

theorem Reachable.standardTrait_eq (hreachable : session.Reachable) (id : RegistryId)
    (standard : Standard) :
    ∃ trait after, define id (.standard standard) session = (.ok trait, after) ∧
      standardTrait id standard session = (.ok trait, after) ∧
        after.Reachable ∧ session.Extends after ∧
          after.held? id (.standard standard) = some trait := by
  obtain ⟨trait, after, hanswer, hafter, hextends, hheld, -⟩ :=
    hreachable.defineUnder_standard id standard (session.registry id).options.cycles
  have hdefine : define id (.standard standard) session = (.ok trait, after) := hanswer
  refine ⟨trait, after, hdefine, ?_, hafter, hextends, hheld⟩
  rw [standardTrait_apply, hdefine]

/-- Asking for several standard traits gives those that the registry has then. -/
theorem Reachable.mapM_standardTrait (hreachable : session.Reachable) (id : RegistryId)
    (standards : List Standard) :
    ∃ traits after, standards.mapM (standardTrait id) session = (.ok traits, after) ∧
      session.Extends after ∧
        traits.map some = standards.map fun standard => after.held? id (.standard standard) := by
  induction standards generalizing session with
  | nil => exact ⟨[], session, rfl, Extends.refl session, rfl⟩
  | cons standard rest ih =>
      obtain ⟨trait, between, -, hfirst, hbetween, hextends, hheld⟩ :=
        hreachable.standardTrait_eq id standard
      obtain ⟨traits, after, hrest, hextends', htraits⟩ := ih hbetween
      refine ⟨trait :: traits, after, ?_, hextends.trans hextends', ?_⟩
      · rw [List.mapM_cons, CallM.bind_apply, hfirst]
        show (_ >>= _ : CallM (List Trait)) between = _
        rw [CallM.bind_apply, hrest]
        rfl
      · rw [List.map_cons, List.map_cons, htraits, hextends'.held? hheld]

end Session

/-! ## Panics -/

/-- A result is a panic. -/
def Panics {α : Type} (result : Except Fault α) : Prop :=
  ∃ message, result = .error (.panic message)

theorem Panics.of_fault {α β : Type} {fault : Fault}
    (hpanics : Panics (.error fault : Except Fault α)) :
    Panics (.error fault : Except Fault β) := by
  obtain ⟨message, hfault⟩ := hpanics
  cases hfault
  exact ⟨message, rfl⟩

namespace CallM

variable {α β : Type}

/-- A computation panics in no session that there can be, and leaves a session that there can be. -/
def Safe (action : CallM α) : Prop :=
  ∀ session : Session, session.Reachable →
    ¬ Panics (action session).1 ∧ (action session).2.Reachable

theorem Safe.bind {action : CallM α} {next : α → CallM β} (haction : action.Safe)
    (hnext : ∀ a, (next a).Safe) : (action >>= next).Safe := by
  intro session hreachable
  obtain ⟨hpanics, hafter⟩ := haction session hreachable
  rw [bind_apply]
  cases houtcome : action session with
  | mk result after =>
      rw [houtcome] at hpanics hafter
      cases result with
      | error fault => exact ⟨mt Panics.of_fault hpanics, hafter⟩
      | ok a => exact hnext a after hafter

theorem Safe.attempt {action : CallM α} (haction : action.Safe) : (CallM.attempt action).Safe := by
  intro session hreachable
  obtain ⟨hpanics, hafter⟩ := haction session hreachable
  unfold CallM.attempt
  cases houtcome : action session with
  | mk result after =>
      rw [houtcome] at hpanics hafter
      cases result with
      | ok a => exact ⟨nofun, hafter⟩
      | error fault =>
          cases fault with
          | raised error => exact ⟨nofun, hafter⟩
          | panic message => exact absurd ⟨message, rfl⟩ hpanics
          | tooDeep => exact ⟨nofun, hafter⟩

theorem safe_pure (a : α) : (pure a : CallM α).Safe := fun _ hreachable => ⟨nofun, hreachable⟩

theorem safe_raise (error : CallError) : (raise error : CallM α).Safe :=
  fun _ hreachable => ⟨nofun, hreachable⟩

theorem safe_tooDeep : (throw .tooDeep : CallM α).Safe :=
  fun _ hreachable => ⟨nofun, hreachable⟩

theorem safe_operation (operation : Operation α) : (liftM operation.run : CallM α).Safe :=
  fun _ hreachable => ⟨nofun, hreachable.after operation⟩

end CallM

open CallM

theorem safe_requestTrait (id : RegistryId) (key : TraitKey) : (requestTrait id key).Safe := by
  refine Safe.bind (safe_operation (.define id key)) fun result => ?_
  cases result with
  | ok trait => exact safe_pure trait
  | error error => exact safe_raise _

theorem safe_standardTrait (id : RegistryId) (standard : Standard) :
    (standardTrait id standard).Safe := by
  intro session hreachable
  obtain ⟨trait, after, -, hanswer, hafter, -, -⟩ := hreachable.standardTrait_eq id standard
  rw [hanswer]
  exact ⟨nofun, hafter⟩

theorem safe_registerTrait (id : RegistryId) (key : TraitKey) (target : Ty)
    (overrides : List (String × Body)) : (registerTrait id key target overrides).Safe := by
  refine Safe.bind (safe_requestTrait id key) fun trait => ?_
  refine Safe.bind (safe_operation (.newOverrides overrides)) fun built => ?_
  refine Safe.bind (safe_operation (.identify target)) fun identity => ?_
  refine Safe.bind (safe_operation (.implement id identity trait built)) fun result => ?_
  cases result with
  | ok done => exact safe_pure _
  | error error => exact safe_raise _

theorem safe_registerNative (id : RegistryId) (target : Ty) (name : String) (body : Body) :
    (registerNative id target name body).Safe := by
  refine Safe.bind (safe_operation (.newMethod body)) fun method => ?_
  refine Safe.bind (safe_operation (.identify target)) fun identity => ?_
  refine Safe.bind (safe_operation (.defineNative id identity name method)) fun done => ?_
  exact safe_pure _

/-- That nothing panics is respected by the evaluator. -/
def safety (id : RegistryId) : Congruence id where
  Related action _ := action.Safe
  pure := safe_pure
  raise := safe_raise
  bind := Safe.bind
  attempt := Safe.attempt
  get := fun _ hreachable => ⟨nofun, hreachable⟩
  identifyValue value := fun _ hreachable =>
    ⟨nofun, hreachable.after (.identifyValue (some value))⟩
  requestTrait := safe_requestTrait id
  standardTrait := safe_standardTrait id
  registerTrait := safe_registerTrait id
  registerNative := safe_registerNative id

theorem safety_calls (id : RegistryId) (depth : Nat) :
    (safety id).Calls (invoke depth) (invoke depth) :=
  Congruence.invoke 0 (fun _ _ _ _ => safe_tooDeep) depth

/-- An operation ends with a panic. -/
def Operation.Panics {α : Type} : Operation α → α → Prop
  | .call .., answer | .callTrait .., answer | .callView .., answer => TraitSystem.Panics answer
  | .standardTraits _, answer => TraitSystem.Panics answer
  | .equal .., answer | .notEqual .., answer => TraitSystem.Panics answer
  | .comparePartially .., answer => TraitSystem.Panics answer
  | .compareTotally .., answer => TraitSystem.Panics answer
  | .display .., answer => TraitSystem.Panics answer
  | .hash .., answer => TraitSystem.Panics answer
  | .copy .., answer => TraitSystem.Panics answer
  | _, _ => False

theorem Operation.not_panics_run {α : Type} (operation : Operation α) {session : Session}
    (hreachable : session.Reachable) : ¬ operation.Panics (operation.run session).1 := by
  have hcalls := fun id => safety_calls id callDepth
  cases operation with
  | call receiver name args =>
      exact (Congruence.call (hcalls _) rfl name args session hreachable).1
  | callTrait receiver trait method args =>
      exact (Congruence.callTrait (hcalls _) rfl trait method args session hreachable).1
  | callView view method args =>
      exact (Congruence.callView (hcalls _) rfl method args session hreachable).1
  | standardTraits id => exact ((safety id).standardTraits session hreachable).1
  | equal id left right | notEqual id left right | comparePartially id left right
  | compareTotally id left right =>
      exact (Congruence.askStandard (hcalls id) _ _ left [right] _ session hreachable).1
  | display id value | hash id value =>
      exact (Congruence.askStandard (hcalls id) _ _ value [] _ session hreachable).1
  | copy id value =>
      exact (Congruence.callStandard (hcalls id) _ _ value [] session hreachable).1
  | _ => exact id

namespace Session

variable {session : Session}

/-- **Every registry of every session can define the standard traits**, under either policy, and no
request for one panics, whether an operation makes it or a body in the middle of a call.  `Ord`
extends `PartialEq`, `Eq` and `PartialOrd`, and all four are those of the registry. -/
theorem standards_defined (hreachable : session.Reachable) (id : RegistryId) :
    (∀ standard policy, ∃ trait after,
      defineUnder id (.standard standard) policy session = (.ok trait, after) ∧
        after.held? id (.standard standard) = some trait) ∧
    (∀ standard, ∃ trait after, define id (.standard standard) session = (.ok trait, after) ∧
      standardTrait id standard session = (.ok trait, after) ∧
        after.held? id (.standard standard) = some trait) ∧
    (∃ traits after, standardTraits id session = (.ok traits, after) ∧
      traits.map some = Standard.all.map fun standard => after.held? id (.standard standard)) ∧
    (∀ depth method receiver args, ¬ Panics (invoke depth method receiver args session).1) ∧
    (∀ {α : Type} (operation : Operation α), ¬ operation.Panics (operation.run session).1) ∧
    ∀ policy ord after, defineUnder id (.standard .ord) policy session = (.ok ord, after) →
      after.held? id (.standard .ord) = some ord ∧
        ord.ancestors.map some =
          [Standard.partialEq, .eq, .partialOrd].map fun standard =>
            after.held? id (.standard standard) := by
  refine ⟨?_, ?_, ?_, ?_, fun operation => operation.not_panics_run hreachable, ?_⟩
  · intro standard policy
    obtain ⟨trait, after, hanswer, -, -, hheld, -⟩ :=
      hreachable.defineUnder_standard id standard policy
    exact ⟨trait, after, hanswer, hheld⟩
  · intro standard
    obtain ⟨trait, after, hdefine, hanswer, -, -, hheld⟩ := hreachable.standardTrait_eq id standard
    exact ⟨trait, after, hdefine, hanswer, hheld⟩
  · obtain ⟨traits, after, hanswer, -, htraits⟩ := hreachable.mapM_standardTrait id Standard.all
    exact ⟨traits, after, hanswer, htraits⟩
  · intro depth method receiver args
    exact (safety_calls receiver.registry depth method receiver args rfl session hreachable).1
  · intro policy ord after hord
    obtain ⟨trait, _, hanswer, -, -, hheld, hancestors⟩ :=
      hreachable.defineUnder_standard id .ord policy
    cases hord.symm.trans hanswer
    exact ⟨hheld, hancestors⟩

/-- A session in which custom traits were mixed with the standard ones: one has the name and the
method of `Ord`, one extends `Ord` and declares a method of `PartialEq`, and one extends itself and
`PartialOrd`.  The second cannot be defined, and the third only where its circle is cut. -/
def crowded : Session :=
  let unit : Token := ⟨1⟩
  let double : TraitKey := .custom "app::Ord" "Ord"
  let clash := Hierarchy.customKey "Clash"
  let circle := Hierarchy.customKey "Circle"
  let declared := (((start []).after (.identify .unit)).after
    (.declare double ⟨[], [("cmp", none)]⟩)).after
    (.declare clash ⟨[.standard .ord], [("eq", none)]⟩) |>.after
    (.declare circle ⟨[circle, .standard .partialOrd], []⟩)
  let defined := ((declared.after (.define .shared clash)).after
    (.define .shared circle)).after (.defineUnder .shared circle .truncate) |>.after
    (.define .shared double)
  defined.adopt .shared .shared (.standard .partialEq) unit

/-- What the custom traits do is no obstacle to the standard ones.  A unit value has only the
default body by which values differ, and this one gets as far as asking whether they are equal. -/
theorem standards_defined_crowded :
    let define (key : TraitKey) := (define .shared key crowded).1.toOption
    ((define (Hierarchy.customKey "Clash")).isNone = true ∧
      (define (Hierarchy.customKey "Circle")).map (fun trait => trait.ancestors.map Trait.name) =
        some ["PartialEq", "PartialOrd"] ∧
      (define (.standard .ord)).map (fun trait => trait.ancestors.map Trait.name) =
        some ["PartialEq", "Eq", "PartialOrd"] ∧
      (((Operation.notEqual .shared .unit .unit).run crowded).1 matches
        .error (.raised (.notImplemented "eq" "PartialEq" "()"))) = true) ∧
      crowded.Reachable ∧
      ∀ policy, ∃ trait after,
        defineUnder .shared (.standard .ord) policy crowded = (.ok trait, after) ∧
          after.held? .shared (.standard .ord) = some trait := by
  intro define
  have hreachable : crowded.Reachable := by
    refine Reachable.adopt ?_ _ _ _ _
    iterate 8 refine Reachable.after ?_ _
    exact reachable_start []
  exact ⟨by decide +kernel, hreachable, (standards_defined hreachable .shared).1 .ord⟩

end Session

end TraitSystem
