import TraitSystem.Proofs.Members.History
import TraitSystem.Proofs.Session.Registrations

/-!
# A registry is its log

Whoever writes down the registrations that were accepted, in the order in which they were, knows
what a registry answers about them (`log_of_reaches`).  It does not matter whether they were asked
for directly or by method bodies, nor what was asked for and refused in between.

`Logged` is a run of a session together with its log.  An entry is made when an implementation is
answered by success and when a native is defined, and at no other time.  Every session that can be
reached has a run of this kind, because all that operations do is done in steps.
-/

namespace TraitSystem.Session

/-! ## Runs with a log -/

/-- A step that registers nothing.  It requests tokens, defines a trait, or says what one declares.
-/
inductive Silent : Session → Session → Prop
  | declare (session : Session) (key : TraitKey) (signature : Signature) :
      Silent session (Session.declare key signature session).2
  | request {session : Session} {identities : Identities}
      (hevolves : session.identities.Evolves identities) (nextSerial : Nat) :
      Silent session { session with identities, nextSerial }
  | define (session : Session) (id : RegistryId) (key : TraitKey) (policy : CyclePolicy) :
      Silent session (defineUnder id key policy session).2

/-- A run from one session to another, with all registrations that were accepted on the way. -/
inductive Logged (old : Session) : List (RegistryId × Registration) → Session → Prop
  | start : Logged old [] old
  | silent {log : List (RegistryId × Registration)} {session new : Session}
      (hlogged : Logged old log session) (hsilent : Silent session new) : Logged old log new
  | accepted {log : List (RegistryId × Registration)} {session new : Session}
      (hlogged : Logged old log session) {id : RegistryId} {identity : Token} {targetName : String}
      {trait : Trait} {overrides : Overrides} {completeness : Completeness}
      (hanswer : implementAs id identity targetName trait overrides completeness session =
        (.ok (), new)) :
      Logged old (log ++ [(id, .implementation identity trait overrides completeness)]) new
  | refused {log : List (RegistryId × Registration)} {session new : Session}
      (hlogged : Logged old log session) {id : RegistryId} {identity : Token} {targetName : String}
      {trait : Trait} {overrides : Overrides} {completeness : Completeness} {error : ImplementError}
      (hanswer : implementAs id identity targetName trait overrides completeness session =
        (.error error, new)) :
      Logged old log new
  | native {log : List (RegistryId × Registration)} {session : Session}
      (hlogged : Logged old log session) (id : RegistryId) (identity : Token) (name : String)
      (method : Method) :
      Logged old (log ++ [(id, .native identity name method)])
        (defineNative id identity name method session).2

/-- The entries of one registry. -/
def entriesOf (id : RegistryId) (log : List (RegistryId × Registration)) : List Registration :=
  log.filterMap fun entry => if entry.1 = id then some entry.2 else none

theorem entriesOf_concat (id other : RegistryId) (log : List (RegistryId × Registration))
    (registration : Registration) :
    entriesOf id (log ++ [(other, registration)]) =
      entriesOf id log ++ if other = id then [registration] else [] := by
  unfold entriesOf
  rw [List.filterMap_append]
  by_cases hother : other = id <;> simp [hother]

/-! ## Every session has a run -/

theorem implementAs_eq_of_implement {session : Session} {id : RegistryId} {members : Members}
    {identity : Token} {targetName : String} {trait : Trait} {overrides : Overrides}
    {completeness : Completeness}
    (hmembers : (session.registry id).members.implement identity targetName trait overrides
      completeness = .ok members) :
    implementAs id identity targetName trait overrides completeness session =
      (.ok (), session.setRegistry id { session.registry id with members }) := by
  unfold implementAs
  simp only [Members.tryImplement_eq_of_implement hmembers]

/-- Whatever operations do, there is a run that does the same. -/
theorem Steps.logged {old new : Session} (hsteps : old.Steps new) : ∃ log, Logged old log new := by
  induction hsteps with
  | refl => exact ⟨[], .start⟩
  | tail _ hstep ih =>
      obtain ⟨log, hlogged⟩ := ih
      cases hstep with
      | declare _ key signature => exact ⟨log, hlogged.silent (.declare _ key signature)⟩
      | change hchange =>
          cases hchange with
          | request hevolves nextSerial =>
              exact ⟨log, hlogged.silent (.request hevolves nextSerial)⟩
          | define key policy => exact ⟨log, hlogged.silent (.define _ _ key policy)⟩
          | implement hmembers =>
              exact ⟨_, hlogged.accepted (implementAs_eq_of_implement hmembers)⟩
          | defineNative identity name method =>
              exact ⟨_, hlogged.native _ identity name method⟩

/-! ## The log is the history of each registry -/

theorem implementAs_eq_ok {session new : Session} {id : RegistryId} {identity : Token}
    {targetName : String} {trait : Trait} {overrides : Overrides} {completeness : Completeness}
    (hanswer : implementAs id identity targetName trait overrides completeness session =
      (.ok (), new)) :
    ∃ members, (session.registry id).members.implement identity targetName trait overrides
        completeness = .ok members ∧
      new = session.setRegistry id { session.registry id with members } := by
  rcases session.implementAs_cases id identity targetName trait overrides completeness with
    ⟨_, hrefused⟩ | ⟨members, hmembers, haccepted⟩
  · rw [hrefused] at hanswer
    cases hanswer
  · rw [haccepted] at hanswer
    cases hanswer
    exact ⟨members, hmembers, rfl⟩

theorem implementAs_eq_error {session new : Session} {id : RegistryId} {identity : Token}
    {targetName : String} {trait : Trait} {overrides : Overrides} {completeness : Completeness}
    {error : ImplementError}
    (hanswer : implementAs id identity targetName trait overrides completeness session =
      (.error error, new)) : new = session := by
  rcases session.implementAs_cases id identity targetName trait overrides completeness with
    ⟨_, hrefused⟩ | ⟨members, hmembers, haccepted⟩
  · rw [hrefused] at hanswer
    cases hanswer
    rfl
  · rw [haccepted] at hanswer
    cases hanswer

theorem Silent.members_eq {session new : Session} (hsilent : Silent session new) (id : RegistryId) :
    (new.registry id).members = (session.registry id).members := by
  cases hsilent with
  | declare key signature => rfl
  | request hevolves nextSerial => rfl
  | define other key policy => exact session.members_defineUnder other key policy id

/-- What a run makes of members, with the entries that it adds to their history. -/
theorem Logged.members {old new : Session} {log : List (RegistryId × Registration)}
    (hlogged : Logged old log new) (id : RegistryId)
    (hold : (old.registry id).members.Reachable) :
    (new.registry id).members.Reachable ∧ (new.registry id).members.history =
      (old.registry id).members.history ++ entriesOf id log := by
  induction hlogged with
  | start => exact ⟨hold, (List.append_nil _).symm⟩
  | silent _ hsilent ih =>
      rw [hsilent.members_eq]
      exact ih
  | @accepted log session new _ other _ _ _ _ _ hanswer ih =>
      obtain ⟨members, hmembers, rfl⟩ := implementAs_eq_ok hanswer
      obtain ⟨-, -, -, -, hhistory⟩ := Members.implement_eq_ok hmembers
      rw [entriesOf_concat, registry_setRegistry, ← List.append_assoc, ← ih.2]
      by_cases hother : other = id
      · subst hother
        rw [if_pos rfl, if_pos rfl]
        exact ⟨ih.1.implement hmembers, hhistory⟩
      · rw [if_neg (Ne.symm hother), if_neg hother, List.append_nil]
        exact ⟨ih.1, rfl⟩
  | refused _ hanswer ih =>
      rw [implementAs_eq_error hanswer]
      exact ih
  | @native log session _ other identity name method ih =>
      rw [entriesOf_concat, defineNative_eq, registry_setRegistry, ← List.append_assoc, ← ih.2]
      by_cases hother : other = id
      · subst hother
        rw [if_pos rfl, if_pos rfl]
        exact ⟨ih.1.defineNative identity name method, rfl⟩
      · rw [if_neg (Ne.symm hother), if_neg hother, List.append_nil]
        exact ⟨ih.1, rfl⟩

/-- What a registry answers about implementations, as told by registrations. -/
structure Tells (registered : List Registration) (members : Members) : Prop where
  /-- The traits of a target are those that were registered for it, in order. -/
  traits : ∀ identity,
    members.traitsOf identity = registered.filterMap (Registration.implemented? identity)
  nodup : ∀ identity, ((members.traitsOf identity).map Trait.identity).Nodup
  contains_iff : ∀ identity token,
    members.contains identity token ↔ (members.implementation? identity token).isSome
  listed_iff : ∀ identity token,
    members.contains identity token ↔ token ∈ (members.traitsOf identity).map Trait.identity
  size : members.size = (registered.filterMap Registration.pair?).length
  targetCount : members.targetCount = (registered.map Registration.identity).dedup.length
  /-- No trait was registered for an identity twice. -/
  once : (registered.filterMap Registration.pair?).Nodup

theorem tells_history {members : Members} (hreachable : members.Reachable) :
    Tells members.history members where
  traits := hreachable.traitsOf_eq
  nodup identity := (hreachable.parentFirst identity).nodup
  contains_iff _ _ := Iff.rfl
  listed_iff := hreachable.contains_iff
  size := hreachable.size_eq
  targetCount := hreachable.targetCount_eq
  once := hreachable.nodup_pairs

/-- **A registry is its log.**  However a session was reached, there is a run that leads to it, and
whatever run that is, the log tells what every registry answers. -/
theorem log_of_reaches {options : List Options} {session : Session}
    (hreaches : (start options).Reaches session) :
    (∃ log, Logged (start options) log session) ∧
      ∀ log, Logged (start options) log session →
        ∀ id, Tells (entriesOf id log) (session.registry id).members := by
  refine ⟨hreaches.steps.logged, fun log hlogged id => ?_⟩
  have hstart : ((start options).registry id).members = .empty := members_start options id
  obtain ⟨hreachable, hhistory⟩ := hlogged.members id (hstart ▸ Members.Reachable.empty)
  have hentries : (session.registry id).members.history = entriesOf id log := by
    rw [hhistory, hstart]
    rfl
  rw [← hentries]
  exact tells_history hreachable

/-- After traits of two registries have been implemented, and a method body has implemented one more
and failed, a trait is refused that is implemented already. -/
theorem log_of_reaches_mixed :
    let session := mixed.adopt (.numbered 0) .shared (Hierarchy.customKey "Figure") ⟨1⟩
    let members := (session.registry .shared).members
    members.size = 3 ∧ members.targetCount = 1 ∧ ∃ options log,
      (start options).Reaches session ∧ Logged (start options) log session ∧
        Tells (entriesOf .shared log) members ∧
        ((entriesOf .shared log).filterMap (Registration.implemented? ⟨1⟩)).map Trait.name =
          ["Figure", "Shape", "Solid"] := by
  intro session members
  have hmixed : mixed.Reachable := by
    iterate 3 refine Reachable.after ?_ _
    iterate 2 refine Reachable.adopt ?_ _ _ _ _
    iterate 5 refine Reachable.after ?_ _
    exact reachable_start []
  obtain ⟨options, hreaches⟩ :=
    hmixed.adopt (.numbered 0) .shared (Hierarchy.customKey "Figure") ⟨1⟩
  obtain ⟨⟨log, hlogged⟩, htells⟩ := log_of_reaches hreaches
  have hshared := htells log hlogged .shared
  refine ⟨by decide +kernel, by decide +kernel, options, log, hreaches, hlogged, hshared, ?_⟩
  rw [← hshared.traits]
  decide +kernel

end TraitSystem.Session
