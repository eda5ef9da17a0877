import TraitSystem.Proofs.Hierarchy.Asking
import TraitSystem.Proofs.Session.Reachable

/-!
# The names in a session

Whoever writes down all requests for tokens, in their order, knows which tokens have names and what
these are (`named_of_requested`).  `Requested` is a run of a session together with its requests.  It
does not matter whether a request was made directly, for the sake of a trait, or by a method body:
every operation is such a run (`Operation.exists_requested`), and where it asks for something
itself, that is the first request of its run.

Only a request by name gives a type its name, and it may come long after the token.  An application
has a name from the first.  So if its parts were named by then, it is called what one would call it
now, and otherwise it keeps the number of a part that has got a name since.
-/

namespace TraitSystem

open Identities (Request)

namespace Session

/-! ## Runs with their requests -/

/-- One thing that is done to a session, with the requests for tokens that are made for it. -/
inductive Asks : Session → List Request → Session → Prop
  | identify (session : Session) (type : Ty) :
      Asks session [.byName type] (Session.identify type session).2
  | identifyValue (session : Session) (value : Value) :
      Asks session [.byValue value.type] (Session.identifyValue value session).2
  /-- The base is asked for even if the arguments are refused. -/
  | refused (session : Session) (type : Ty) {args : List TypeArg} {error : TargetError}
      (hrefused : TypeArgs.ofList? args = .error error) :
      Asks session [.byName type] (identifyGeneric type args session).2
  | identifyGeneric (session : Session) (type : Ty) {args : List TypeArg} {checked : TypeArgs}
      (hchecked : TypeArgs.ofList? args = .ok checked) :
      Asks session [.byName type, .application (session.identities.ofType type).1 checked]
        (identifyGeneric type args session).2
  | instantiate (session : Session) (base : Token) (args : TypeArgs) :
      Asks session [.application base args] (Session.instantiate base args session).2
  | newMethod (session : Session) (body : Body) :
      Asks session [] (Session.newMethod body session).2
  | newOverrides (session : Session) (bodies : List (String × Body)) :
      Asks session [] (Session.newOverrides bodies session).2
  | declare (session : Session) (key : TraitKey) (signature : Signature) :
      Asks session [] (Session.declare key signature session).2
  | defineIn (session : Session) {hierarchy : Hierarchy} {key : TraitKey} {policy : CyclePolicy}
      {asked : List TraitKey}
      (hasked : hierarchy.Asks session.signatures policy key session.identities session.nextSerial
        asked) :
      Asks session (asked.map .ofKey) (Session.defineIn hierarchy key policy session).2
  | defineUnder (session : Session) {id : RegistryId} {key : TraitKey} {policy : CyclePolicy}
      {asked : List TraitKey}
      (hasked : (session.registry id).hierarchy.Asks session.signatures policy key
        session.identities session.nextSerial asked) :
      Asks session (asked.map .ofKey) (Session.defineUnder id key policy session).2
  | implementAs (session : Session) (id : RegistryId) (identity : Token) (targetName : String)
      (trait : Trait) (overrides : Overrides) (completeness : Completeness) :
      Asks session []
        (Session.implementAs id identity targetName trait overrides completeness session).2
  | defineNative (session : Session) (id : RegistryId) (identity : Token) (name : String)
      (method : Method) : Asks session [] (Session.defineNative id identity name method session).2

/-- A run from one session to another, with all requests for tokens on the way. -/
inductive Requested (old : Session) : List Request → Session → Prop
  | start : Requested old [] old
  | step {requests more : List Request} {session new : Session}
      (hrun : Requested old requests session) (hasks : Asks session more new) :
      Requested old (requests ++ more) new

variable {old session new : Session} {requests more : List Request}

theorem Asks.requested (hasks : Asks old requests new) : old.Requested requests new :=
  .step .start hasks

theorem Requested.trans (hfirst : old.Requested requests session)
    (hsecond : session.Requested more new) : old.Requested (requests ++ more) new := by
  induction hsecond with
  | start =>
      rw [List.append_nil]
      exact hfirst
  | step _ hasks ih =>
      rw [← List.append_assoc]
      exact ih.step hasks

theorem Asks.identities_eq (hasks : Asks old requests new) :
    new.identities = old.identities.replay requests := by
  cases hasks with
  | identifyGeneric type hchecked =>
      show (old.identities.ofGeneric type _).2 = _
      unfold Identities.ofGeneric
      rw [hchecked]
      rfl
  | refused type hrefused =>
      show (old.identities.ofGeneric type _).2 = _
      unfold Identities.ofGeneric
      rw [hrefused]
      rfl
  | defineIn hasked => exact hasked.identities_eq
  | defineUnder hasked => exact hasked.identities_eq
  | implementAs id identity targetName trait overrides completeness =>
      rcases old.implementAs_cases id identity targetName trait overrides completeness with
        ⟨_, hrefused⟩ | ⟨members, -, haccepted⟩
      · rw [hrefused]
        rfl
      · rw [haccepted]
        rfl
  | _ => rfl

/-- The tokens and names of a session are what the requests made of them. -/
theorem Requested.identities_eq (hrun : old.Requested requests new) :
    new.identities = old.identities.replay requests := by
  induction hrun with
  | start => rfl
  | step _ hasks ih => rw [hasks.identities_eq, ih, Identities.replay_append]

/-! ## What computations ask for -/

/-- That a session is led to another one by a run. -/
def Leads (old new : Session) : Prop := ∃ requests, old.Requested requests new

theorem course_leads : Course Leads where
  refl _ := ⟨[], .start⟩
  trans hfirst hsecond := by
    obtain ⟨requests, hfirst⟩ := hfirst
    obtain ⟨more, hsecond⟩ := hsecond
    exact ⟨requests ++ more, hfirst.trans hsecond⟩

theorem Asks.leads (hasks : Asks old requests new) : old.Leads new := ⟨requests, hasks.requested⟩

/-- A run that begins with given requests. -/
def LeadsFrom (first : List Request) (old new : Session) : Prop :=
  ∃ requests, first <+: requests ∧ old.Requested requests new

theorem Asks.leadsFrom {first : List Request} (hasks : Asks old requests new)
    (hfirst : first <+: requests) : old.LeadsFrom first new :=
  ⟨requests, hfirst, hasks.requested⟩

theorem LeadsFrom.leads {first : List Request} (hleads : old.LeadsFrom first new) :
    old.Leads new := by
  obtain ⟨requests, -, hrun⟩ := hleads
  exact ⟨requests, hrun⟩

theorem Leads.leadsFrom (hleads : old.Leads new) : old.LeadsFrom [] new := by
  obtain ⟨requests, hrun⟩ := hleads
  exact ⟨requests, List.nil_prefix, hrun⟩

/-- The definition of a trait asks for the token of the trait first. -/
theorem leadsFrom_defineUnder (session : Session) (id : RegistryId) (key : TraitKey)
    (policy : CyclePolicy) :
    session.LeadsFrom [.ofKey key] (defineUnder id key policy session).2 := by
  obtain ⟨asked, hasked, -⟩ := (session.registry id).hierarchy.exists_asks session.signatures policy
    key session.identities session.nextSerial
  exact (Asks.defineUnder session hasked).leadsFrom (hasked.head.map _)

theorem leadsFrom_defineIn (session : Session) (hierarchy : Hierarchy) (key : TraitKey)
    (policy : CyclePolicy) :
    session.LeadsFrom [.ofKey key] (defineIn hierarchy key policy session).2 := by
  obtain ⟨asked, hasked, -⟩ := hierarchy.exists_asks session.signatures policy key
    session.identities session.nextSerial
  exact (Asks.defineIn session hasked).leadsFrom (hasked.head.map _)

theorem leads_define (id : RegistryId) (key : TraitKey) (session : Session) :
    session.Leads (define id key session).2 :=
  (session.leadsFrom_defineUnder id key _).leads

end Session

open CallM Session

theorem leads_registerTrait (id : RegistryId) (key : TraitKey) (target : Ty)
    (overrides : List (String × Body)) : Moves Leads (registerTrait id key target overrides) := by
  refine Moves.bind course_leads (moves_requestTrait course_leads (leads_define id) key) ?_
  intro trait
  refine Moves.bind course_leads (fun session => (Asks.newOverrides session overrides).leads) ?_
  intro built
  refine Moves.bind course_leads (fun session => (Asks.identify session target).leads) ?_
  intro identity
  refine Moves.bind course_leads (fun session => (Asks.implementAs ..).leads) ?_
  intro result
  cases result with
  | ok done => exact course_leads.refl
  | error error => exact course_leads.refl

theorem leads_registerNative (id : RegistryId) (target : Ty) (name : String) (body : Body) :
    Moves Leads (registerNative id target name body) := by
  refine Moves.bind course_leads (fun session => (Asks.newMethod session body).leads) ?_
  intro method
  refine Moves.bind course_leads (fun session => (Asks.identify session target).leads) ?_
  intro identity
  refine Moves.bind course_leads (fun session => ?_) fun done => course_leads.refl
  exact (Asks.defineNative session id identity name method).leads

/-- That a session is led on by a run is respected by the evaluator. -/
def requesting (id : RegistryId) : Congruence id :=
  .moving course_leads (leads_define id)
    (fun value session => (Asks.identifyValue session value).leads) (leads_registerTrait id)
    (leads_registerNative id)

theorem requesting_calls (id : RegistryId) (depth : Nat) :
    (requesting id).Calls (invoke depth) (invoke depth) :=
  Congruence.invoke 0 (fun _ _ _ _ => moves_throw course_leads .tooDeep) depth

/-- What is asked for first is asked for first whatever follows. -/
theorem CallM.leadsFrom_bind {α β : Type} {first : List Request} {action : CallM α}
    {next : α → CallM β} {session : Session}
    (haction : session.LeadsFrom first (action session).2) (hnext : ∀ a, Moves Leads (next a)) :
    session.LeadsFrom first ((action >>= next) session).2 := by
  rw [bind_apply]
  cases houtcome : action session with
  | mk result after =>
      rw [houtcome] at haction
      cases result with
      | error fault => exact haction
      | ok a =>
          obtain ⟨requests, hfirst, hrun⟩ := haction
          obtain ⟨more, hmore⟩ := hnext a after
          exact ⟨requests ++ more, hfirst.trans (List.prefix_append _ _), hrun.trans hmore⟩

theorem leadsFrom_standardTrait (id : RegistryId) (trait : Standard) (session : Session) :
    session.LeadsFrom [.ofKey (.standard trait)] (standardTrait id trait session).2 := by
  refine leadsFrom_bind (session.leadsFrom_defineUnder id _ _) fun result => ?_
  cases result with
  | ok trait => exact course_leads.refl
  | error error => exact course_leads.refl

theorem leadsFrom_standardTraits (id : RegistryId) (session : Session) :
    session.LeadsFrom [.ofKey (.standard .partialEq)] (standardTraits id session).2 := by
  unfold standardTraits Standard.all
  rw [List.mapM_cons]
  refine leadsFrom_bind (leadsFrom_standardTrait id .partialEq session) fun trait => ?_
  refine Moves.bind course_leads ?_ fun traits => course_leads.refl
  exact Congruence.mapM (requesting id).standardTrait

theorem leadsFrom_callStandard (id : RegistryId) (trait : Standard) (method : String)
    (value : Value) (args : Args) (session : Session) :
    session.LeadsFrom [.ofKey (.standard trait)]
      (callStandard (invoke callDepth) id trait method value args session).2 := by
  refine leadsFrom_bind (leadsFrom_standardTrait id trait session) fun trait => ?_
  rw [Receiver.ofValue_bind]
  refine Moves.bind course_leads (fun session => (Asks.identifyValue session value).leads) ?_
  intro token
  exact Congruence.callTrait (requesting_calls id callDepth) rfl trait method args

theorem leadsFrom_askStandard (id : RegistryId) (trait : Standard) (method : String)
    (value : Value) (args : Args) (expected : Ty) (session : Session) :
    session.LeadsFrom [.ofKey (.standard trait)]
      (askStandard (invoke callDepth) id trait method value args expected session).2 :=
  leadsFrom_bind (leadsFrom_callStandard id trait method value args session) fun answer =>
    (requesting id).ofExcept (answer.result expected)

/-! ## Operations -/

namespace Operation

variable {α : Type}

/-- The request that an operation makes itself, before anything else happens. -/
def asked? : Operation α → Option Request
  | .identify type => some (.byName type)
  | .identifyValue value? => value?.map fun value => .byValue value.type
  | .identifyGeneric type _ => some (.byName type)
  | .instantiate base args => some (.application base args)
  | .define _ key | .defineUnder _ key _ | .defineIn _ key _ => some (.ofKey key)
  | .standardTraits _ | .equal _ _ _ | .notEqual _ _ _ => some (.ofKey (.standard .partialEq))
  | .comparePartially _ _ _ => some (.ofKey (.standard .partialOrd))
  | .compareTotally _ _ _ => some (.ofKey (.standard .ord))
  | .display _ _ => some (.ofKey (.standard .display))
  | .hash _ _ => some (.ofKey (.standard .hash))
  | .copy _ _ => some (.ofKey (.standard .clone))
  | _ => none

/-- **Every operation is a run**, which begins with what the operation asks for itself. -/
theorem leadsFrom_run (operation : Operation α) (session : Session) :
    session.LeadsFrom operation.asked?.toList (operation.run session).2 := by
  cases operation with
  | identify type => exact (Asks.identify session type).leadsFrom List.prefix_rfl
  | identifyValue value? =>
      cases value? with
      | none => exact (course_leads.refl session).leadsFrom
      | some value => exact (Asks.identifyValue session value).leadsFrom List.prefix_rfl
  | identifyGeneric type args =>
      cases hchecked : TypeArgs.ofList? args with
      | error error => exact (Asks.refused session type hchecked).leadsFrom List.prefix_rfl
      | ok checked => exact (Asks.identifyGeneric session type hchecked).leadsFrom ⟨_, rfl⟩
  | instantiate base args =>
      exact (Asks.instantiate session base args).leadsFrom List.prefix_rfl
  | newMethod body => exact (Asks.newMethod session body).leads.leadsFrom
  | newOverrides bodies => exact (Asks.newOverrides session bodies).leads.leadsFrom
  | declare key signature => exact (Asks.declare session key signature).leads.leadsFrom
  | define id key => exact session.leadsFrom_defineUnder id key _
  | defineUnder id key policy => exact session.leadsFrom_defineUnder id key policy
  | defineIn hierarchy key policy => exact session.leadsFrom_defineIn hierarchy key policy
  | implement id identity trait overrides => exact (Asks.implementAs ..).leads.leadsFrom
  | implementAs id identity targetName trait overrides completeness =>
      exact (Asks.implementAs ..).leads.leadsFrom
  | defineNative id identity name method =>
      exact (Asks.defineNative session id identity name method).leads.leadsFrom
  | call receiver name args =>
      exact (Congruence.call (requesting_calls _ callDepth) rfl name args session).leadsFrom
  | callTrait receiver trait method args =>
      exact (Congruence.callTrait (requesting_calls _ callDepth) rfl trait method args
        session).leadsFrom
  | callView view method args =>
      exact (Congruence.callView (requesting_calls _ callDepth) rfl method args session).leadsFrom
  | standardTraits id => exact leadsFrom_standardTraits id session
  | equal id left right | notEqual id left right | comparePartially id left right
  | compareTotally id left right => exact leadsFrom_askStandard id _ _ left [right] _ session
  | display id value | hash id value => exact leadsFrom_askStandard id _ _ value [] _ session
  | copy id value => exact leadsFrom_callStandard id _ _ value [] session

end Operation

/-! ## The names of all tokens -/

namespace Identities

/-- The name of an application stays what one would call it, once its parts are named. -/
theorem Extends.describeApplication {ids later : Identities} (hextends : ids.Extends later)
    {base : Token} {args : TypeArgs} (hbase : (ids.nameOf? base).isSome)
    (hargs : ∀ arg, .token arg ∈ args.toList → (ids.nameOf? arg).isSome) :
    later.describeApplication base args = ids.describeApplication base args := by
  have hdescribe : ∀ token, (ids.nameOf? token).isSome →
      later.describe token = ids.describe token := by
    intro token hnamed
    obtain ⟨name, hname⟩ := Option.isSome_iff_exists.mp hnamed
    unfold describe
    rw [hname, hextends.names token name hname]
  have hmap : args.toList.map later.describeArg = args.toList.map ids.describeArg := by
    refine List.map_congr_left fun arg harg => ?_
    cases arg with
    | token token => exact hdescribe token (hargs token harg)
    | named name => rfl
  unfold Identities.describeApplication
  rw [hdescribe base hbase, hmap]

end Identities

namespace Session

variable {requests : List Request} {session : Session}

/-- **The requests tell which tokens have names, and which names.**  A type is named if it was asked
for by name, and then by its own name.  An application is always named, as its parts were described
when it was first asked for, and if these had names then, that is how they are described ever after.
No name changes, and every operation is a run, so this is so in every session there can be. -/
theorem named_of_requested {options : List Options}
    (hrun : (start options).Requested requests session) :
    session.identities = Identities.empty.replay requests ∧
      (∀ type token, session.identities.find? (.type type) = some token →
        ((session.identities.nameOf? token).isSome ↔ .byName type ∈ requests) ∧
          ∀ name, session.identities.nameOf? token = some name → name = type.name) ∧
      (∀ base args token, session.identities.find? (.application base args) = some token →
        ∃ earlier later, requests = earlier ++ .application base args :: later ∧
          .application base args ∉ earlier ∧
          let before := Identities.empty.replay earlier
          session.identities.nameOf? token = some (before.describeApplication base args) ∧
            ((before.nameOf? base).isSome →
              (∀ arg, .token arg ∈ args.toList → (before.nameOf? arg).isSome) →
                ∀ more ahead, session.Requested more ahead →
                  ahead.identities.nameOf? token =
                    some (ahead.identities.describeApplication base args))) ∧
      (∀ more ahead, session.Requested more ahead → ∀ token name,
        session.identities.nameOf? token = some name →
          ahead.identities.nameOf? token = some name) ∧
      ∀ {α : Type} (operation : Operation α), ∃ more, operation.asked?.toList <+: more ∧
        session.Requested more (operation.run session).2 := by
  have hidentities : session.identities = Identities.empty.replay requests := hrun.identities_eq
  have hnamed := Identities.namedBy_replay requests
  rw [← hidentities] at hnamed
  have hkeeps : ∀ more ahead, session.Requested more ahead →
      session.identities.Extends ahead.identities := by
    intro more ahead hmore
    rw [hmore.identities_eq]
    exact (Identities.evolves_replay _ more).extends
  refine ⟨hidentities, ?_, ?_, ?_, fun operation => operation.leadsFrom_run session⟩
  · intro type token htoken
    rw [hnamed.type type token htoken]
    by_cases hasked : .byName type ∈ requests
    · rw [if_pos hasked]
      exact ⟨iff_of_true rfl hasked, fun name hname => (Option.some_inj.mp hname).symm⟩
    · rw [if_neg hasked]
      exact ⟨iff_of_false Bool.false_ne_true hasked, nofun⟩
  · intro base args token htoken
    obtain ⟨earlier, later, hsplit, hfirst, hname⟩ := hnamed.application base args token htoken
    refine ⟨earlier, later, hsplit, hfirst, hname, ?_⟩
    intro hbase hargs more ahead hmore
    have hextends : (Identities.empty.replay earlier).Extends ahead.identities := by
      refine Identities.Extends.trans ?_ (hkeeps more ahead hmore)
      rw [hidentities, hsplit, Identities.replay_append]
      exact (Identities.evolves_replay _ _).extends
    rw [hextends.describeApplication hbase hargs]
    exact (hkeeps more ahead hmore).names _ _ hname
  · intro more ahead hmore token name hname
    exact (hkeeps more ahead hmore).names token name hname

/-- A type is met as that of a value, an application of it is asked for, and then the type is asked
for by name.  The application keeps the number of the type in its name, and a later one does not. -/
theorem named_of_requested_late :
    let early : TypeArgs := ⟨[.token ⟨1⟩], by decide⟩
    let late : TypeArgs := ⟨[.token ⟨1⟩, .named "n"], by decide⟩
    let met := ((Operation.identifyValue (some ⟨.int64, 5⟩)).run (start [])).2
    let applied := ((Operation.identifyGeneric .string early.toList).run met).2
    let named := ((Operation.identify .int64).run applied).2
    let session := ((Operation.instantiate ⟨2⟩ late).run named).2
    [1, 2, 3, 4].map (fun raw => session.identities.nameOf? ⟨raw⟩) =
        [some "i64", some "alloc::string::String", some "alloc::string::String<#1>",
          some "alloc::string::String<i64, n>"] ∧
      applied.identities.nameOf? ⟨1⟩ = none ∧
      ∃ requests, (start []).Requested requests session ∧
        ((session.identities.nameOf? ⟨1⟩).isSome ↔ .byName .int64 ∈ requests) ∧
        ∃ earlier later, requests = earlier ++ .application ⟨2⟩ early :: later ∧
          session.identities.nameOf? ⟨3⟩ =
            some ((Identities.empty.replay earlier).describeApplication ⟨2⟩ early) := by
  intro early late met applied named session
  have hmet : (start []).Requested _ met := (Asks.identifyValue _ _).requested
  have hchecked : TypeArgs.ofList? early.toList = .ok early := rfl
  have happlied := hmet.step (.identifyGeneric met .string hchecked)
  have hrun := (happlied.step (.identify applied .int64)).step (.instantiate named ⟨2⟩ late)
  obtain ⟨-, htypes, happlications, -, -⟩ := named_of_requested hrun
  obtain ⟨earlier, later, hsplit, -, hname, -⟩ :=
    happlications ⟨2⟩ early ⟨3⟩ (by decide +kernel)
  exact ⟨by decide +kernel, by decide +kernel, _, hrun, (htypes .int64 ⟨1⟩ (by decide +kernel)).1,
    earlier, later, hsplit, hname⟩

end Session

end TraitSystem
