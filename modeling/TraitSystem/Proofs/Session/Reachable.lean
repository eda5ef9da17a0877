import TraitSystem.Operation
import TraitSystem.Proofs.Call.Changes
import TraitSystem.Proofs.Hierarchy.Reachable

/-!
# Reachable sessions

`Session.Reaches` says which sessions lie ahead of a session, and `Session.Reachable` which sessions
there can be at all.  Operations may be of any kind, in any order and with any operands, and they
may fail.  A session in the middle of a call counts too, since the bodies that are still to run see
it.

Whatever the operations are, every registry of a reachable session holds a reachable hierarchy and
reachable members (`Reachable.hierarchy`, `Reachable.members`), so what is known of those holds in
every reachable session.
-/

namespace TraitSystem

/-! ## Steps -/

namespace Session

/-- A single change of a session: in a registry, or of what a trait declares. -/
inductive Step : Session → Session → Prop
  | declare (session : Session) (key : TraitKey) (signature : Signature) :
      Step session (Session.declare key signature session).2
  | change {id : RegistryId} {old new : Session} (hchange : Change id old new) : Step old new

/-- What any number of steps make of a session. -/
def Steps : Session → Session → Prop := Relation.ReflTransGen Step

theorem Evolves.steps {id : RegistryId} {old new : Session} (hevolves : old.Evolves id new) :
    old.Steps new := by
  induction hevolves with
  | refl => exact Relation.ReflTransGen.refl
  | tail _ hchange ih => exact Relation.ReflTransGen.tail ih (.change hchange)

/-- Changes are steps, and grounded ones keep the table of tokens grounded. -/
theorem Grows.steps {id : RegistryId} {old new : Session} (hgrows : old.Grows id new) :
    old.Steps new ∧ old.identities.Grows new.identities :=
  ⟨hgrows.evolves.steps, hgrows.identities⟩

end Session

section

variable {α : Type} {id : RegistryId}

/-- An operation keeps to what the registries have, whatever it is given: it declares nothing, makes
no application, and is given no trait to implement. -/
def Operation.Plain : Operation α → Prop
  | .identifyGeneric .. | .instantiate .. | .declare .. | .implement .. | .implementAs .. => False
  | _ => True

/-- The registry that an operation works in.  What only asks for tokens, builds methods or says what
a trait declares works in none. -/
def Operation.registry? : Operation α → Option RegistryId
  | .identify .. | .identifyValue .. | .identifyGeneric .. | .instantiate .. | .newMethod ..
  | .newOverrides .. | .declare .. | .defineIn .. => none
  | .define id _ | .defineUnder id _ _ | .implement id _ _ _ | .implementAs id _ _ _ _ _
  | .defineNative id _ _ _ | .standardTraits id | .equal id _ _ | .notEqual id _ _
  | .comparePartially id _ _ | .compareTotally id _ _ | .display id _ | .hash id _ | .copy id _ =>
    some id
  | .call receiver _ _ | .callTrait receiver _ _ _ => some receiver.registry
  | .callView view _ _ => some view.receiver.registry

/-- All that comes of such an operation are changes in its registry that keep to what it has.  If it
works in none, any one may be named. -/
theorem Operation.develops_run {operation : Operation α} (hplain : operation.Plain)
    (hid : ∀ other ∈ operation.registry?, other = id) (session : Session) :
    session.Develops id (operation.run session).2 := by
  have hcalls := developing_calls id callDepth
  cases operation with
  -- requests for tokens write to no registry
  | identify type => exact session.develops_identify id type
  | identifyValue value? => exact session.develops_identifyValue? id value?
  | newMethod body => exact session.develops_newMethod id body
  | newOverrides bodies => exact session.develops_newOverrides id bodies
  | defineIn hierarchy key policy => exact session.develops_defineIn id hierarchy key policy
  | define other key =>
      obtain rfl := hid other rfl
      exact session.develops_define other key
  | defineUnder other key policy =>
      obtain rfl := hid other rfl
      exact session.develops_defineUnder other key policy
  | defineNative other identity name method =>
      obtain rfl := hid other rfl
      exact session.develops_defineNative other identity name method
  | call receiver name args => exact Congruence.call hcalls (hid _ rfl) name args session
  | callTrait receiver trait method args =>
      exact Congruence.callTrait hcalls (hid _ rfl) trait method args session
  | callView view method args => exact Congruence.callView hcalls (hid _ rfl) method args session
  | standardTraits other =>
      obtain rfl := hid other rfl
      exact (developing other).standardTraits session
  | equal other left right | notEqual other left right | comparePartially other left right
  | compareTotally other left right =>
      obtain rfl := hid other rfl
      exact Congruence.askStandard hcalls _ _ left [right] _ session
  | display other value | hash other value =>
      obtain rfl := hid other rfl
      exact Congruence.askStandard hcalls _ _ value [] _ session
  | copy other value =>
      obtain rfl := hid other rfl
      exact Congruence.callStandard hcalls _ _ value [] session
  | _ => exact hplain.elim

theorem Operation.exists_develops_run {operation : Operation α} (hplain : operation.Plain)
    (session : Session) : ∃ id, session.Develops id (operation.run session).2 := by
  refine ⟨operation.registry?.getD .shared, Operation.develops_run hplain ?_ session⟩
  intro other hother
  rw [Option.mem_def.mp hother, Option.getD_some]

/-- An operation is not given anything made up.  The tokens of which it makes an application were
handed out, and a hierarchy that it extends was made by definitions. -/
def Operation.Genuine (ids : Identities) : Operation α → Prop
  | .identifyGeneric _ args => ids.Knows args
  | .instantiate base args => ids.HandedOut base ∧ ids.Knows args.toList
  | .defineIn hierarchy _ _ => hierarchy.Reachable ids
  | _ => True

/-- Whatever comes of a genuine operation, it takes steps and keeps the table of tokens grounded. -/
theorem Operation.steps_of_genuine {operation : Operation α} {session : Session}
    (hgenuine : operation.Genuine session.identities) :
    session.Steps (operation.run session).2 ∧
      session.identities.Grows (operation.run session).2.identities := by
  by_cases hplain : operation.Plain
  · obtain ⟨id, hdevelops⟩ := Operation.exists_develops_run hplain session
    exact hdevelops.grows.steps
  cases operation with
  | identifyGeneric type args =>
      exact (session.develops_identifyGeneric .shared type hgenuine).grows.steps
  | instantiate base args =>
      exact (session.develops_instantiate .shared hgenuine.1 hgenuine.2).grows.steps
  | declare key signature =>
      exact ⟨Relation.ReflTransGen.single (.declare session key signature),
        Identities.Grows.refl _⟩
  | implement id identity trait overrides =>
      exact (session.grows_implementAs id identity _ trait overrides _).steps
  | implementAs id identity targetName trait overrides completeness =>
      exact (session.grows_implementAs id identity targetName trait overrides completeness).steps
  | _ => exact absurd trivial hplain

/-- Whatever an operation is and whatever comes of it, it takes steps. -/
theorem Operation.steps_run (operation : Operation α) (session : Session) :
    session.Steps (operation.run session).2 := by
  by_cases hgenuine : operation.Genuine session.identities
  · exact (Operation.steps_of_genuine hgenuine).1
  · cases operation with
    | identifyGeneric type args => exact (session.evolves_identifyGeneric .shared type args).steps
    | instantiate base args => exact (session.evolves_instantiate .shared base args).steps
    | defineIn hierarchy key policy =>
        exact (session.develops_defineIn .shared hierarchy key policy).grows.steps.1
    | _ => exact absurd trivial hgenuine

end

/-! ## Sessions that lie ahead -/

namespace Session

/-- The sessions that lie ahead of a session: what operations make of it, whatever they answer.  Any
single change is admitted too, so that the sessions in the middle of a call are among them. -/
inductive Reaches : Session → Session → Prop
  | refl (session : Session) : Reaches session session
  | operation {old session : Session} (hreaches : Reaches old session) {α : Type}
      (operation : Operation α) : Reaches old (operation.run session).2
  | change {old session new : Session} (hreaches : Reaches old session) {id : RegistryId}
      (hchange : Change id session new) : Reaches old new

/-- The sessions that there can be, from a start with any options. -/
def Reachable (session : Session) : Prop := ∃ options, (start options).Reaches session

theorem Reaches.steps {old new : Session} (hreaches : old.Reaches new) : old.Steps new := by
  induction hreaches with
  | refl => exact Relation.ReflTransGen.refl
  | operation _ operation ih => exact Relation.ReflTransGen.trans ih (operation.steps_run _)
  | change _ hchange ih => exact Relation.ReflTransGen.tail ih (.change hchange)

/-! ## The registries of reachable sessions -/

theorem members_start (options : List Options) (id : RegistryId) :
    ((start options).registry id).members = .empty := by
  cases id <;> rfl

theorem hierarchy_start (options : List Options) (id : RegistryId) :
    ((start options).registry id).hierarchy = .empty := by
  cases id <;> rfl

theorem Step.members {old new : Session} (hstep : Step old new) {id : RegistryId}
    (hold : (old.registry id).members.Reachable) : (new.registry id).members.Reachable := by
  cases hstep with
  | declare key signature => exact hold
  | change hchange =>
      rcases hchange.members id with hsame | ⟨_, _, _, _, _, haccepted⟩ | ⟨_, _, _, hnative⟩
      · rw [hsame]
        exact hold
      · exact hold.implement haccepted
      · rw [hnative]
        exact hold.defineNative _ _ _

theorem Step.hierarchy {old new : Session} (hstep : Step old new) {id : RegistryId}
    (hold : (old.registry id).hierarchy.Reachable old.identities) :
    (new.registry id).hierarchy.Reachable new.identities := by
  cases hstep with
  | declare key signature => exact hold
  | change hchange =>
      rcases hchange.hierarchy id with hsame | ⟨key, policy, hhierarchy, hidentities⟩
      · rw [hsame]
        exact hold.evolve hchange.identities
      · rw [hhierarchy, hidentities]
        exact hold.define _ _ _ _

namespace Reachable

variable {session : Session}

/-- What holds at the start and is preserved by every step holds of every session there can be. -/
theorem invariant (holds : Session → Prop) (hreachable : session.Reachable)
    (hstart : ∀ options, holds (start options))
    (hstep : ∀ old new, Step old new → holds old → holds new) : holds session := by
  obtain ⟨options, hreaches⟩ := hreachable
  have hsteps := hreaches.steps
  clear hreaches
  induction hsteps with
  | refl => exact hstart options
  | tail _ hlast ih => exact hstep _ _ hlast ih

theorem members (hreachable : session.Reachable) (id : RegistryId) :
    (session.registry id).members.Reachable := by
  refine hreachable.invariant (fun session => (session.registry id).members.Reachable) ?_
    fun old new hstep hold => hstep.members hold
  intro options
  rw [members_start]
  exact Members.Reachable.empty

theorem hierarchy (hreachable : session.Reachable) (id : RegistryId) :
    (session.registry id).hierarchy.Reachable session.identities := by
  refine hreachable.invariant
    (fun session => (session.registry id).hierarchy.Reachable session.identities) ?_
    fun old new hstep hold => hstep.hierarchy hold
  intro options
  rw [hierarchy_start]
  exact Hierarchy.Reachable.empty (Identities.Evolves.refl _)

end Reachable

end Session

end TraitSystem
