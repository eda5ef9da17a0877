import TraitSystem.Proofs.Identity
import Mathlib.Data.List.Induction

/-!
# Where names come from

A token is asked for in one of three ways: for a type by its name, for the type of a value, and for
an application (`Request`).  The table of tokens is what the requests made of it, one after the
other (`replay`), and so it is from the requests that one knows which names there are
(`namedBy_replay`).

A type has a name if it was asked for by name, be it after it got its token or when it did, and the
name is its own.  The name of an application was put together when it was first asked for, from what
the table had for its parts at that time.

## Strategy

A request hands out at most one token, which is the next one, and records at most one name, which is
for the token that it answers with (`find?_serve`, `nameOf?_serve`).  All else is the same as
before.  So the invariant has to be looked at for what is requested, and there are two cases: it has
a token already, or it gets one that cannot have a name yet.
-/

namespace TraitSystem.Identities

/-! ## Requests -/

/-- A request for a token. -/
inductive Request where
  /-- A type is asked for by name. -/
  | byName (type : Ty)
  /-- The type of a value is asked for. -/
  | byValue (type : Ty)
  /-- What has a token is asked for, applied to arguments. -/
  | application (base : Token) (args : TypeArgs)
  deriving DecidableEq

/-- What gets a token by a request.  Without arguments nothing does. -/
def Request.referent? : Request → Option Referent
  | byName type => some (.type type)
  | byValue type => some (.type type)
  | application base args =>
    if args.toList = [] then none else some (.application base args)

theorem Request.of_referent?_type {request : Request} {type : Ty}
    (hreferent : request.referent? = some (.type type)) :
    request = byName type ∨ request = byValue type := by
  cases request with
  | byName other =>
      cases hreferent
      exact Or.inl rfl
  | byValue other =>
      cases hreferent
      exact Or.inr rfl
  | application base args =>
      change (if args.toList = [] then none else some (Referent.application base args)) = _
        at hreferent
      split at hreferent <;> cases hreferent

theorem Request.of_referent?_application {request : Request} {base : Token} {args : TypeArgs}
    (hreferent : request.referent? = some (.application base args)) :
    request = application base args := by
  cases request with
  | byName other => cases hreferent
  | byValue other => cases hreferent
  | application other others =>
      change (if others.toList = [] then none else some (Referent.application other others)) = _
        at hreferent
      split at hreferent
      · cases hreferent
      · cases hreferent
        rfl

/-- The name that a request records, unless there is one. -/
def Request.name? (ids : Identities) : Request → Option String
  | byName type => some type.name
  | byValue _ => none
  | application base args => some (ids.describeApplication base args)

/-- The table of tokens after a request. -/
def serve (ids : Identities) : Request → Identities
  | .byName type => (ids.ofType type).2
  | .byValue type => (ids.ofValueType type).2
  | .application base args => (ids.instantiate base args).2

/-- The table of tokens after several requests. -/
def replay (ids : Identities) (requests : List Request) : Identities := requests.foldl serve ids

variable {ids : Identities}

theorem replay_append (ids : Identities) (earlier later : List Request) :
    ids.replay (earlier ++ later) = (ids.replay earlier).replay later :=
  List.foldl_append

theorem replay_concat (ids : Identities) (requests : List Request) (request : Request) :
    ids.replay (requests ++ [request]) = (ids.replay requests).serve request := by
  rw [replay_append]
  rfl

theorem evolves_serve (ids : Identities) (request : Request) : ids.Evolves (ids.serve request) := by
  cases request with
  | byName type => exact ids.evolves_ofType type
  | byValue type => exact ids.evolves_ofValueType type
  | application base args => exact ids.evolves_instantiate base args

theorem evolves_replay (ids : Identities) (requests : List Request) :
    ids.Evolves (ids.replay requests) := by
  induction requests generalizing ids with
  | nil => exact Evolves.refl ids
  | cons request rest ih => exact (ids.evolves_serve request).trans (ih _)

/-! ## What a request does to the two tables -/

theorem ofValueType_of_found {type : Ty} {token : Token}
    (hfind : ids.find? (.type type) = some token) : ids.ofValueType type = (token, ids) := by
  unfold ofValueType
  rw [hfind]

theorem ofValueType_of_new {type : Ty} (hnew : ids.find? (.type type) = none) :
    ids.ofValueType type = ids.assign (.type type) := by
  unfold ofValueType
  rw [hnew]

theorem instantiate_of_nil (ids : Identities) (base : Token) {args : TypeArgs}
    (hempty : args.toList = []) : ids.instantiate base args = (base, ids) := if_pos hempty

theorem instantiate_of_found {base token : Token} {args : TypeArgs} (hargs : args.toList ≠ [])
    (hfind : ids.find? (.application base args) = some token) :
    ids.instantiate base args = (token, ids) := by
  unfold instantiate
  rw [if_neg hargs, hfind]

theorem instantiate_of_new {base : Token} {args : TypeArgs} (hargs : args.toList ≠ [])
    (hnew : ids.find? (.application base args) = none) :
    ids.instantiate base args =
      (⟨ids.next⟩, (ids.assign (.application base args)).2.recordName ⟨ids.next⟩
        (ids.describeApplication base args)) := by
  unfold instantiate
  rw [if_neg hargs, hnew]
  rfl

theorem find?_ofValueType_eq (ids : Identities) (type : Ty) (referent : Referent) :
    (ids.ofValueType type).2.find? referent =
      if some (.type type) = some referent then some ((ids.find? referent).getD ⟨ids.next⟩)
      else ids.find? referent := by
  by_cases hsame : .type type = referent
  · subst hsame
    rw [if_pos rfl]
    cases hfind : ids.find? (.type type) with
    | some token =>
        rw [ofValueType_of_found hfind]
        exact hfind
    | none => rw [ofValueType_of_new hfind, find?_assign, if_pos rfl, Option.getD_none]
  · rw [if_neg (mt Option.some_inj.mp hsame)]
    cases hfind : ids.find? (.type type) with
    | some token => rw [ofValueType_of_found hfind]
    | none => rw [ofValueType_of_new hfind, find?_assign, if_neg hsame]

/-- What is asked for has a token afterwards, the next one if it had none. -/
theorem find?_serve (ids : Identities) (request : Request) (referent : Referent) :
    (ids.serve request).find? referent =
      if request.referent? = some referent then some ((ids.find? referent).getD ⟨ids.next⟩)
      else ids.find? referent := by
  cases request with
  | byName type =>
      show ((ids.ofValueType type).2.recordName _ _).find? referent = _
      rw [find?_recordName, find?_ofValueType_eq]
      rfl
  | byValue type => exact ids.find?_ofValueType_eq type referent
  | application base args =>
      show (ids.instantiate base args).2.find? referent =
        if (if args.toList = [] then none else some (.application base args)) = some referent then _
        else _
      by_cases hempty : args.toList = []
      · rw [ids.instantiate_of_nil base hempty, if_pos hempty, if_neg nofun]
      · rw [if_neg hempty]
        by_cases hsame : .application base args = referent
        · subst hsame
          rw [if_pos rfl]
          cases hfind : ids.find? (.application base args) with
          | some token =>
              rw [instantiate_of_found hempty hfind]
              exact hfind
          | none =>
              rw [instantiate_of_new hempty hfind, find?_recordName, find?_assign, if_pos rfl,
                Option.getD_none]
        · rw [if_neg (mt Option.some_inj.mp hsame)]
          cases hfind : ids.find? (.application base args) with
          | some token => rw [instantiate_of_found hempty hfind]
          | none =>
              rw [instantiate_of_new hempty hfind, find?_recordName, find?_assign, if_neg hsame]

theorem nameOf?_recordName_eq (ids : Identities) (token : Token) (name : String) (other : Token) :
    (ids.recordName token name).nameOf? other =
      (ids.nameOf? other).or (if token = other then some name else none) := by
  by_cases hsame : token = other
  · subst hsame
    rw [if_pos rfl]
    cases hname : ids.nameOf? token with
    | some old => exact nameOf?_recordName hname token name
    | none =>
        unfold recordName
        rw [if_neg (Bool.eq_false_iff.mp ((Table.contains_eq_false_iff _ _).mpr hname))]
        exact Table.find?_insert_self ids.names token name
  · rw [if_neg hsame, Option.or_none]
    unfold recordName
    split
    · rfl
    · exact Table.find?_insert_of_ne ids.names name hsame

theorem nameOf?_ofValueType (ids : Identities) (type : Ty) (token : Token) :
    (ids.ofValueType type).2.nameOf? token = ids.nameOf? token := by
  cases hfind : ids.find? (.type type) with
  | some known => rw [ofValueType_of_found hfind]
  | none =>
      rw [ofValueType_of_new hfind]
      rfl

/-- A name is recorded for nothing but the token that is answered, and only if it has none. -/
theorem nameOf?_serve (request : Request) (token : Token)
    (hnamed : ∀ base args known, ids.find? (.application base args) = some known →
      (ids.nameOf? known).isSome) :
    (ids.serve request).nameOf? token =
      (ids.nameOf? token).or
        (if request.referent?.bind (ids.serve request).find? = some token then request.name? ids
        else none) := by
  cases request with
  | byName type =>
      have htoken : (Request.byName type).referent?.bind (ids.serve (.byName type)).find? =
          some (ids.ofType type).1 := ids.find?_ofType type
      simp only [htoken, Option.some_inj]
      show ((ids.ofValueType type).2.recordName _ _).nameOf? token = _
      rw [nameOf?_recordName_eq, nameOf?_ofValueType]
      rfl
  | byValue type =>
      show (ids.ofValueType type).2.nameOf? token = (ids.nameOf? token).or (ite _ none none)
      rw [nameOf?_ofValueType, ite_self, Option.or_none]
  | application base args =>
      by_cases hempty : args.toList = []
      · have hnone : (Request.application base args).referent? = none := if_pos hempty
        show (ids.instantiate base args).2.nameOf? token = _
        rw [ids.instantiate_of_nil base hempty, hnone]
        simp
      · have hsome : (Request.application base args).referent? = some (.application base args) :=
          if_neg hempty
        have hserve := ids.find?_serve (.application base args) (.application base args)
        rw [if_pos hsome] at hserve
        simp only [hsome, Option.bind_some, hserve, Option.some_inj]
        show (ids.instantiate base args).2.nameOf? token = _
        cases hfind : ids.find? (.application base args) with
        | some known =>
            -- it has its name since it got its token
            obtain ⟨name, hname⟩ := Option.isSome_iff_exists.mp (hnamed base args known hfind)
            rw [instantiate_of_found hempty hfind, Option.getD_some]
            by_cases hsame : known = token
            · subst hsame
              rw [hname, Option.some_or]
            · rw [if_neg hsame, Option.or_none]
        | none =>
            rw [instantiate_of_new hempty hfind, nameOf?_recordName_eq]
            rfl

/-! ## The names that requests account for -/

/-- The names in a table are those that requests gave. -/
structure NamedBy (requests : List Request) (ids : Identities) : Prop where
  /-- What was asked for has a token. -/
  answered : ∀ request ∈ requests, ∀ referent, request.referent? = some referent →
    ∃ token, ids.find? referent = some token
  /-- No token has a name before it is handed out. -/
  lt_next : ∀ token name, ids.nameOf? token = some name → token.raw < ids.next
  /-- A type is named if it was asked for by name, and then by its own name. -/
  type : ∀ type token, ids.find? (.type type) = some token →
    ids.nameOf? token = if .byName type ∈ requests then some type.name else none
  /-- An application is named as its parts were described when it was first asked for. -/
  application : ∀ base args token, ids.find? (.application base args) = some token →
    ∃ earlier later, requests = earlier ++ .application base args :: later ∧
      .application base args ∉ earlier ∧
      ids.nameOf? token = some ((empty.replay earlier).describeApplication base args)

theorem namedBy_empty : NamedBy [] empty where
  answered _ h := nomatch h
  lt_next _ _ h := nomatch h
  type _ _ h := nomatch h
  application _ _ _ h := nomatch h

theorem Evolves.next_le {old new : Identities} (hevolves : old.Evolves new) :
    old.next ≤ new.next := by
  induction hevolves with
  | refl => exact Nat.le_refl _
  | tail _ hchange ih =>
      cases hchange with
      | assign _ =>
          rw [next_assign]
          omega
      | recordName token name =>
          rw [next_recordName]
          exact ih

namespace NamedBy

variable {requests : List Request}

theorem isSome_application (hnamed : NamedBy requests ids) (base : Token) (args : TypeArgs)
    (token : Token) (htoken : ids.find? (.application base args) = some token) :
    (ids.nameOf? token).isSome := by
  obtain ⟨_, _, -, -, hname⟩ := hnamed.application base args token htoken
  rw [hname]
  rfl

theorem nameOf?_next (hnamed : NamedBy requests ids) : ids.nameOf? ⟨ids.next⟩ = none := by
  cases hnext : ids.nameOf? ⟨ids.next⟩ with
  | none => rfl
  | some name => exact absurd (hnamed.lt_next _ name hnext) (Nat.lt_irrefl _)

/-- What had no token was not asked for. -/
theorem notMem (hnamed : NamedBy requests ids) {request : Request} {referent : Referent}
    (hreferent : request.referent? = some referent) (hnone : ids.find? referent = none) :
    request ∉ requests := by
  intro hmem
  obtain ⟨_, hknown⟩ := hnamed.answered request hmem referent hreferent
  cases hnone.symm.trans hknown

/-- What is not asked for keeps its token and its name. -/
theorem of_notAsked (hnamed : NamedBy requests ids) (hids : ids.WellFormed) {request : Request}
    {referent : Referent} {token : Token} (hother : request.referent? ≠ some referent)
    (htoken : (ids.serve request).find? referent = some token) :
    ids.find? referent = some token ∧
      (ids.serve request).nameOf? token = ids.nameOf? token := by
  refine ⟨by rwa [find?_serve, if_neg hother] at htoken, ?_⟩
  rw [nameOf?_serve request token hnamed.isSome_application, if_neg, Option.or_none]
  intro hbind
  obtain ⟨asked, hasked, hfound⟩ := Option.bind_eq_some_iff.mp hbind
  have hafter := (ids.evolves_serve request).wellFormed hids
  cases hafter.injective _ _ _ hfound htoken
  exact hother hasked

/-- What is asked for had its token before, or it gets one that has no name yet. -/
theorem of_asked (hnamed : NamedBy requests ids) {request : Request} {referent : Referent}
    {token : Token} (hreferent : request.referent? = some referent)
    (htoken : (ids.serve request).find? referent = some token) :
    (ids.serve request).nameOf? token = (ids.nameOf? token).or (request.name? ids) ∧
      (ids.find? referent = some token ∨ ids.find? referent = none ∧ ids.nameOf? token = none) := by
  refine ⟨?_, ?_⟩
  · rw [nameOf?_serve request token hnamed.isSome_application, hreferent, Option.bind_some, htoken,
      if_pos rfl]
  · rw [find?_serve, if_pos hreferent, Option.some_inj] at htoken
    cases hfind : ids.find? referent with
    | some known =>
        rw [hfind, Option.getD_some] at htoken
        exact Or.inl (congrArg some htoken)
    | none =>
        rw [hfind, Option.getD_none] at htoken
        rw [← htoken]
        exact Or.inr ⟨rfl, hnamed.nameOf?_next⟩

theorem type_serve (hnamed : NamedBy requests ids) (hids : ids.WellFormed) (request : Request)
    (type : Ty) (token : Token) (htoken : (ids.serve request).find? (.type type) = some token) :
    (ids.serve request).nameOf? token =
      if .byName type ∈ requests ++ [request] then some type.name else none := by
  by_cases hreferent : request.referent? = some (.type type)
  · obtain ⟨hrecorded, hbefore⟩ := hnamed.of_asked hreferent htoken
    have hold : ids.nameOf? token = if .byName type ∈ requests then some type.name else none := by
      rcases hbefore with hknown | ⟨hnone, hunnamed⟩
      · exact hnamed.type type token hknown
      · rw [hunnamed, if_neg (hnamed.notMem rfl hnone)]
    rw [hrecorded, hold]
    rcases Request.of_referent?_type hreferent with rfl | rfl
    · rw [if_pos (List.mem_append_right _ (List.mem_singleton_self _))]
      split <;> rfl
    · simp [Request.name?]
  · obtain ⟨hbefore, hsame⟩ := hnamed.of_notAsked hids hreferent htoken
    have hne : .byName type ≠ request := by
      rintro rfl
      exact hreferent rfl
    rw [hsame, hnamed.type type token hbefore]
    simp [hne]

theorem application_serve (hnamed : NamedBy requests (empty.replay requests)) (request : Request)
    (base : Token) (args : TypeArgs) (token : Token)
    (htoken : ((empty.replay requests).serve request).find? (.application base args) =
      some token) :
    ∃ earlier later, requests ++ [request] = earlier ++ .application base args :: later ∧
      .application base args ∉ earlier ∧
      ((empty.replay requests).serve request).nameOf? token =
        some ((empty.replay earlier).describeApplication base args) := by
  have hids : (empty.replay requests).WellFormed :=
    (evolves_replay _ _).wellFormed wellFormed_empty
  by_cases hreferent : request.referent? = some (.application base args)
  · obtain ⟨hrecorded, hknown | ⟨hnone, hunnamed⟩⟩ := hnamed.of_asked hreferent htoken
    · obtain ⟨earlier, later, hsplit, hfirst, happlied⟩ :=
        hnamed.application base args token hknown
      refine ⟨earlier, later ++ [request], by simp [hsplit], hfirst, ?_⟩
      rw [hrecorded, happlied, Option.some_or]
    · obtain rfl := Request.of_referent?_application hreferent
      refine ⟨requests, [], rfl, hnamed.notMem hreferent hnone, ?_⟩
      rw [hrecorded, hunnamed]
      rfl
  · obtain ⟨hbefore, hsame⟩ := hnamed.of_notAsked hids hreferent htoken
    obtain ⟨earlier, later, hsplit, hfirst, happlied⟩ :=
      hnamed.application base args token hbefore
    exact ⟨earlier, later ++ [request], by simp [hsplit], hfirst, hsame.trans happlied⟩

theorem lt_next_serve (hnamed : NamedBy requests ids) (hids : ids.WellFormed) (request : Request)
    (token : Token) (name : String) (hname : (ids.serve request).nameOf? token = some name) :
    token.raw < (ids.serve request).next := by
  have hevolves := ids.evolves_serve request
  have hle := hevolves.next_le
  rw [nameOf?_serve request token hnamed.isSome_application] at hname
  rcases Option.or_eq_some_iff.mp hname with hold | ⟨-, hnew⟩
  · have hlt := hnamed.lt_next token name hold
    omega
  · split at hnew
    · rename_i hbind
      obtain ⟨asked, -, hfound⟩ := Option.bind_eq_some_iff.mp hbind
      exact (hevolves.wellFormed hids).lt_next asked token hfound
    · cases hnew

/-- A request accounts for the name that it records. -/
theorem serve (hnamed : NamedBy requests (empty.replay requests)) (request : Request) :
    NamedBy (requests ++ [request]) ((empty.replay requests).serve request) := by
  have hids : (empty.replay requests).WellFormed :=
    (evolves_replay _ _).wellFormed wellFormed_empty
  refine ⟨?_, hnamed.lt_next_serve hids request, hnamed.type_serve hids request,
    hnamed.application_serve request⟩
  intro other hother referent hreferent
  rw [find?_serve]
  split
  · exact ⟨_, rfl⟩
  · rename_i hne
    rcases List.mem_append.mp hother with hbefore | hlast
    · exact hnamed.answered other hbefore referent hreferent
    · rw [List.mem_singleton.mp hlast] at hreferent
      exact absurd hreferent hne

end NamedBy

/-- **Requests account for all names.** -/
theorem namedBy_replay (requests : List Request) : NamedBy requests (empty.replay requests) := by
  induction requests using List.reverseRecOn with
  | nil => exact namedBy_empty
  | append_singleton requests request ih =>
      rw [replay_concat]
      exact ih.serve request

end TraitSystem.Identities
