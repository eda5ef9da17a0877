import TraitSystem.Proofs.Session.Reachable
import Mathlib.Data.List.Forall2

/-!
# What tokens stand for

Many operations answer with a token.  Some ask for it outright, by the name of a type, by a value or
by arguments, and some come upon it, as a definition does.  Whichever way it is asked for, a token
is the same exactly if the same thing is meant (`requests_of_proceeds`).

This needs that operations are not given made-up tokens: `Proceeds` is `Reaches` for genuine
operations.  Then all tokens are numbered without gaps, too, and what is made of tokens is younger
than they are.
-/

namespace TraitSystem

/-! ## When two referents are the same -/

/-- Arguments are compared as tokens or as texts, and no token is a text. -/
def TypeArg.Same : TypeArg → TypeArg → Prop
  | .token first, .token second => first = second
  | .named first, .named second => first = second
  | _, _ => False

/-- Types are compared as such, applications by their base and their arguments in order. -/
def Referent.Same : Referent → Referent → Prop
  | .type first, .type second => first = second
  | .application base args, .application other others =>
    base = other ∧ List.Forall₂ TypeArg.Same args.toList others.toList
  | _, _ => False

theorem TypeArg.same_iff (first second : TypeArg) : first.Same second ↔ first = second := by
  cases first <;> cases second <;> simp [Same]

theorem Referent.same_iff (first second : Referent) : first.Same second ↔ first = second := by
  have hargs : TypeArg.Same = Eq := by
    funext first second
    exact propext (TypeArg.same_iff first second)
  cases first <;> cases second
  case application.application base args other others =>
    rcases args with ⟨args, hargs⟩
    rcases others with ⟨others, hothers⟩
    simp [Same, *, List.forall₂_eq_eq_eq]
  all_goals simp [Same]

/-! ## What is meant -/

namespace Identities

variable {ids : Identities}

/-- What a token stands for. -/
def meaning? (ids : Identities) (token : Token) : Option Referent :=
  (ids.tokens.entries.find? fun entry => entry.2 = token).map Prod.fst

theorem meaning?_eq_some_iff (hids : ids.WellFormed) {token : Token} {referent : Referent} :
    ids.meaning? token = some referent ↔ ids.find? referent = some token := by
  have hsound : ∀ found, ids.meaning? token = some found → ids.find? found = some token := by
    intro found hfound
    obtain ⟨⟨known, other⟩, hentry, rfl⟩ := Option.map_eq_some_iff.mp hfound
    have hsame : other = token := by simpa using List.find?_some hentry
    subst hsame
    exact (ids.tokens.mem_entries_iff known other).mp (List.mem_of_find?_eq_some hentry)
  refine ⟨hsound referent, fun htoken => ?_⟩
  cases hfound : ids.meaning? token with
  | some found => rw [hids.injective _ _ _ htoken (hsound found hfound)]
  | none =>
      have hentry := (ids.tokens.mem_entries_iff referent token).mpr htoken
      have hnone := List.find?_eq_none.mp (Option.map_eq_none_iff.mp hfound) _ hentry
      simp at hnone

/-- What is meant by applying what a token stands for: that itself, if there are no arguments. -/
def applied? (ids : Identities) (base : Token) (args : TypeArgs) : Option Referent :=
  if args.toList = [] then ids.meaning? base else some (.application base args)

/-- The token of an application is that of what is meant by it. -/
theorem find?_applied {before : Identities} {base : Token} {args : TypeArgs}
    (hbase : before.HandedOut base) (hextends : (before.instantiate base args).2.Extends ids)
    (hids : ids.WellFormed) :
    ∃ referent, ids.applied? base args = some referent ∧
      ids.find? referent = some (before.instantiate base args).1 := by
  unfold instantiate at hextends ⊢
  unfold applied?
  by_cases hempty : args.toList = []
  · obtain ⟨referent, hreferent⟩ := hbase
    simp only [if_pos hempty] at hextends ⊢
    have htoken := hextends.tokens referent base hreferent
    exact ⟨referent, (meaning?_eq_some_iff hids).mpr htoken, htoken⟩
  · simp only [if_neg hempty] at hextends ⊢
    refine ⟨.application base args, rfl, ?_⟩
    cases hfind : before.find? (.application base args) with
    | some token =>
        simp only [hfind] at hextends
        exact hextends.tokens _ _ hfind
    | none =>
        simp only [hfind] at hextends
        refine hextends.tokens _ _ ?_
        rw [find?_recordName, find?_assign, if_pos rfl]
        rfl

theorem ofGeneric_eq {type : Ty} {args : List TypeArg} {checked : TypeArgs}
    (hchecked : TypeArgs.ofList? args = .ok checked) :
    ids.ofGeneric type args =
      let applied := (ids.ofType type).2.instantiate (ids.ofType type).1 checked
      (.ok applied.1, applied.2) := by
  unfold ofGeneric
  rw [hchecked]

end Identities

/-! ## Operations that answer with a token -/

namespace Operation

variable {α β : Type}

/-- The token in the answer of an operation; that of a trait is its identity. -/
def token? : Operation α → α → Option Token
  | identify _ => some
  | identifyValue _ => Except.toOption
  | identifyGeneric _ _ => Except.toOption
  | instantiate _ _ => some
  | define _ _ => fun result => result.toOption.map Trait.identity
  | defineUnder _ _ _ => fun result => result.toOption.map Trait.identity
  | defineIn _ _ _ => fun result => result.1.toOption.map Trait.identity
  | _ => fun _ => none

/-- What an operation asks for the token of. -/
def meaning? (ids : Identities) : Operation α → Option Referent
  | identify type => some (.type type)
  | identifyValue value? => value?.map fun value => .type value.type
  | identifyGeneric type args => do
    let base ← ids.find? (.type type)
    let args ← (TypeArgs.ofList? args).toOption
    ids.applied? base args
  | instantiate base args => ids.applied? base args
  | define _ key => some (.type (.trait key))
  | defineUnder _ key _ => some (.type (.trait key))
  | defineIn _ key _ => some (.type (.trait key))
  | _ => none

/-- The identity of a trait that was asked for is the token of its key. -/
private theorem find?_identity {hierarchy : Hierarchy} {session : Session}
    (hhierarchy : hierarchy.Reachable session.identities) {key : TraitKey} {policy : CyclePolicy}
    {token : Token} {ids : Identities} :
    let definition := hierarchy.define session.signatures policy key session.identities
      session.nextSerial
    definition.result.toOption.map Trait.identity = some token → definition.identities.Extends ids →
      ids.find? (.type (.trait key)) = some token := by
  intro definition htoken hextends
  obtain ⟨trait, htrait, rfl⟩ := Option.map_eq_some_iff.mp htoken
  have hresult : definition.result = .ok trait := by
    generalize definition.result = result at htrait
    cases result with
    | error error => cases htrait
    | ok answer => exact congrArg _ (Option.some_inj.mp htrait)
  exact hextends.tokens _ _
    (Hierarchy.find?_define_identity hhierarchy.wellFormedLookup hresult)

/-- **The token that an operation answers with is that of what is meant**, now and later. -/
theorem find?_meaning {operation : Operation α} {session : Session}
    (hsession : session.Reachable) (hgenuine : operation.Genuine session.identities)
    {token : Token} (htoken : operation.token? (operation.run session).1 = some token)
    {ids : Identities} (hextends : (operation.run session).2.identities.Extends ids)
    (hids : ids.WellFormed) :
    ∃ referent, operation.meaning? ids = some referent ∧ ids.find? referent = some token := by
  cases operation with
  | identify type =>
      cases htoken
      exact ⟨.type type, rfl, hextends.tokens _ _ (Identities.find?_ofType _ type)⟩
  | identifyValue value? =>
      cases value? with
      | none => cases htoken
      | some value =>
          cases htoken
          exact ⟨.type value.type, rfl,
            hextends.tokens _ _ (Identities.find?_ofValueType _ value.type)⟩
  | identifyGeneric type args =>
      have hrequest := session.identities.evolves_ofType type
      have hbase := session.identities.find?_ofType type
      change (session.identities.ofGeneric type args).1.toOption = some token at htoken
      change (session.identities.ofGeneric type args).2.Extends ids at hextends
      cases hchecked : TypeArgs.ofList? args with
      | error error =>
          unfold Identities.ofGeneric at htoken
          rw [hchecked] at htoken
          cases htoken
      | ok checked =>
          rw [Identities.ofGeneric_eq hchecked] at htoken hextends
          cases htoken
          obtain ⟨referent, hreferent, htoken⟩ :=
            Identities.find?_applied ⟨_, hbase⟩ hextends hids
          refine ⟨referent, ?_, htoken⟩
          have hlater := (Identities.evolves_instantiate _ _ checked).extends.trans hextends
          simp only [meaning?, hlater.tokens _ _ hbase, hchecked]
          exact hreferent
  | instantiate base args =>
      cases htoken
      exact Identities.find?_applied hgenuine.1 hextends hids
  | define id key => exact ⟨_, rfl, find?_identity (hsession.hierarchy id) htoken hextends⟩
  | defineUnder id key policy =>
      exact ⟨_, rfl, find?_identity (hsession.hierarchy id) htoken hextends⟩
  | defineIn hierarchy key policy => exact ⟨_, rfl, find?_identity hgenuine htoken hextends⟩
  | _ => cases htoken

end Operation

/-! ## Requests in a session -/

namespace Session

/-- The sessions that lie ahead of a session as long as all operations are genuine, with those in
the middle of a call. -/
inductive Proceeds : Session → Session → Prop
  | refl (session : Session) : Proceeds session session
  | operation {old session : Session} (hproceeds : Proceeds old session) {α : Type}
      {operation : Operation α} (hgenuine : operation.Genuine session.identities) :
      Proceeds old (operation.run session).2
  | change {old session new : Session} (hproceeds : Proceeds old session) {id : RegistryId}
      (hchange : GroundedChange id session new) : Proceeds old new

namespace Proceeds

variable {old session new : Session}

theorem trans (hfirst : old.Proceeds session) (hsecond : session.Proceeds new) :
    old.Proceeds new := by
  induction hsecond with
  | refl => exact hfirst
  | operation _ hgenuine ih => exact ih.operation hgenuine
  | change _ hchange ih => exact ih.change hchange

theorem reaches (hproceeds : old.Proceeds new) : old.Reaches new := by
  induction hproceeds with
  | refl => exact Reaches.refl old
  | operation _ _ ih => exact ih.operation _
  | change _ hchange ih => exact ih.change hchange.change

/-- All that is made of tokens is made of such that were handed out. -/
theorem grows (hproceeds : old.Proceeds new) : old.identities.Grows new.identities := by
  induction hproceeds with
  | refl => exact Identities.Grows.refl _
  | operation _ hgenuine ih => exact ih.trans (Operation.steps_of_genuine hgenuine).2
  | change _ hchange ih => exact ih.trans hchange.grows

end Proceeds

/-- **Tokens are the same exactly if the same is meant.**  They are handed out by counting, a type
has no token in common with an application, and the parts of an application are older than it is.
The two requests may be made at any time and in any way. -/
theorem requests_of_proceeds {options : List Options} {session : Session}
    (hsession : (start options).Proceeds session) :
    (∀ token, session.identities.HandedOut token ↔
        1 ≤ token.raw ∧ token.raw ≤ session.identities.size) ∧
      (∀ type base args token, session.identities.find? (.type type) = some token →
        session.identities.find? (.application base args) ≠ some token) ∧
      (∀ base args token, session.identities.find? (.application base args) = some token →
        base.raw < token.raw ∧ ∀ arg, .token arg ∈ args.toList → arg.raw < token.raw) ∧
      ∀ {α β : Type} (first : Operation α) (second : Operation β) (later : Session)
        (token other : Token), first.Genuine session.identities →
          (first.run session).2.Proceeds later → second.Genuine later.identities →
            first.token? (first.run session).1 = some token →
              second.token? (second.run later).1 = some other →
                (first.run session).2.identities.HandedOut token ∧
                  let ids := (second.run later).2.identities
                  ∃ referent otherReferent, first.meaning? ids = some referent ∧
                    second.meaning? ids = some otherReferent ∧
                      (token = other ↔ referent.Same otherReferent) := by
  have hnumbered := hsession.grows.numbered Identities.numbered_empty
  have hids := hsession.grows.evolves.wellFormed Identities.wellFormed_empty
  refine ⟨?_, ?_, ?_, ?_⟩
  · intro token
    rw [hnumbered.handedOut_iff, hnumbered.next_eq]
    omega
  · intro type base args token htype happlication
    cases hids.injective _ _ _ htype happlication
  · intro base args token htoken
    exact (hnumbered.younger base args token htoken).2
  · intro α β first second later token other hfirst hlater hsecond htoken hother
    have hafter := hsession.operation hfirst
    have hahead := hafter.trans hlater
    have hend := hahead.operation hsecond
    have hfinal := hend.grows.evolves.wellFormed Identities.wellFormed_empty
    have hextends := (hlater.operation hsecond).grows.evolves.extends
    obtain ⟨known, -, hknown⟩ := first.find?_meaning ⟨options, hsession.reaches⟩ hfirst htoken
      (Identities.Extends.refl _) (hafter.grows.evolves.wellFormed Identities.wellFormed_empty)
    -- both requests are read in the last table, where the first token still means what it meant
    obtain ⟨referent, hmeaning, hreferent⟩ := first.find?_meaning ⟨options, hsession.reaches⟩ hfirst
      htoken hextends hfinal
    obtain ⟨otherReferent, hotherMeaning, hotherReferent⟩ := second.find?_meaning
      ⟨options, hahead.reaches⟩ hsecond hother (Identities.Extends.refl _) hfinal
    refine ⟨⟨known, hknown⟩, referent, otherReferent, hmeaning, hotherMeaning, ?_⟩
    rw [Referent.same_iff]
    constructor
    · rintro rfl
      exact hfinal.injective _ _ _ hreferent hotherReferent
    · rintro rfl
      exact Option.some_inj.mp (hreferent.symm.trans hotherReferent)

/-- An application is asked for by the name of its base and again by the token of its base, and an
application of it has a token of its own. -/
theorem requests_of_proceeds_nested :
    let generic : Operation _ := .identifyGeneric .string [.token ⟨1⟩, .named "n"]
    let again : Operation _ := .instantiate ⟨2⟩ ⟨[.token ⟨1⟩, .named "n"], by decide⟩
    let nested : Operation _ := .instantiate ⟨3⟩ ⟨[.token ⟨1⟩, .named "n"], by decide⟩
    let session := ((Operation.identify .int64).run (start [])).2
    let later := (generic.run session).2
    generic.token? (generic.run session).1 = some ⟨3⟩ ∧
      again.token? (again.run later).1 = some ⟨3⟩ ∧
      (∃ referent other, generic.meaning? (again.run later).2.identities = some referent ∧
        again.meaning? (again.run later).2.identities = some other ∧ referent.Same other) ∧
      nested.token? (nested.run later).1 = some ⟨4⟩ ∧
      ∃ referent other, generic.meaning? (nested.run later).2.identities = some referent ∧
        nested.meaning? (nested.run later).2.identities = some other ∧ ¬ referent.Same other := by
  intro generic again nested session later
  have hsession : (start []).Proceeds session :=
    @Proceeds.operation _ _ (.refl _) _ (.identify .int64) trivial
  have harg (ids : Identities) (hint : ids.HandedOut ⟨1⟩) :
      ids.Knows [.token ⟨1⟩, .named "n"] := by
    intro token htoken
    have hsame : token = ⟨1⟩ := by simpa using htoken
    rw [hsame]
    exact hint
  have hgeneric : generic.Genuine session.identities :=
    harg _ ⟨.type .int64, by decide +kernel⟩
  have hlaterArg := harg later.identities ⟨.type .int64, by decide +kernel⟩
  have hagain : again.Genuine later.identities :=
    ⟨⟨.type .string, by decide +kernel⟩, hlaterArg⟩
  have hnested : nested.Genuine later.identities :=
    ⟨⟨.application ⟨2⟩ ⟨[.token ⟨1⟩, .named "n"], by decide⟩, by decide +kernel⟩, hlaterArg⟩
  obtain ⟨-, -, -, hrequests⟩ := requests_of_proceeds hsession
  have htoken : generic.token? (generic.run session).1 = some ⟨3⟩ := by decide +kernel
  have hagainToken : again.token? (again.run later).1 = some ⟨3⟩ := by decide +kernel
  have hnestedToken : nested.token? (nested.run later).1 = some ⟨4⟩ := by decide +kernel
  obtain ⟨-, referent, other, hreferent, hother, hsame⟩ :=
    hrequests generic again later _ _ hgeneric (.refl later) hagain htoken hagainToken
  obtain ⟨-, first, second, hfirst, hsecond, hdiffer⟩ :=
    hrequests generic nested later _ _ hgeneric (.refl later) hnested htoken hnestedToken
  exact ⟨htoken, hagainToken, ⟨referent, other, hreferent, hother, hsame.mp rfl⟩, hnestedToken,
    first, second, hfirst, hsecond, mt hdiffer.mpr (by decide)⟩

end Session

end TraitSystem
