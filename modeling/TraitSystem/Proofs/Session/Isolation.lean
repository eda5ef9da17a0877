import TraitSystem.Proofs.Members.Separate
import TraitSystem.Proofs.Session.Registrations
import TraitSystem.Proofs.Session.Requests

/-!
# Registries and targets do not get in each other's way

A method body acts in the registry of its receiver, wherever the body comes from, and so does all
that it calls.  So an operation leaves the other registries as they are, and only the tables of
tokens, which registries share, may grow (`ActsIn`).

Within a registry, an operation that registers something does so for one target
(`Operation.target?`), and leaves what is known of all others as it is.  A type, its applications,
and the applications that it is an argument of are different targets (`Identities.Kin`), so none of
them gets anything from another one.

## Strategy

Everything that an operation does is made of changes in its registry, so the first part is an
induction on these.  For the second part, an operation that registers something is brought to the
form of `Session.edit`: it looks at one target, at the tokens and at the options, and two operations
of this form do not notice each other.
-/

namespace TraitSystem

/-! ## Registries -/

namespace Session

variable {id : RegistryId} {old session new : Session}

/-- All that is different is in one registry, except that tokens and names may be new. -/
structure ActsIn (id : RegistryId) (old new : Session) : Prop where
  others : ∀ other, other ≠ id → new.registry other = old.registry other
  options : (new.registry id).options = (old.registry id).options
  signatures : new.signatures = old.signatures
  identities : old.identities.Extends new.identities

theorem ActsIn.refl (session : Session) : session.ActsIn id session :=
  ⟨fun _ _ => rfl, rfl, rfl, Identities.Extends.refl _⟩

theorem ActsIn.trans (hfirst : old.ActsIn id session) (hsecond : session.ActsIn id new) :
    old.ActsIn id new where
  others other hother := (hsecond.others other hother).trans (hfirst.others other hother)
  options := hsecond.options.trans hfirst.options
  signatures := hsecond.signatures.trans hfirst.signatures
  identities := hfirst.identities.trans hsecond.identities

theorem actsIn_setRegistry (session : Session) {registry : Registry}
    (hoptions : registry.options = (session.registry id).options) :
    session.ActsIn id (session.setRegistry id registry) := by
  refine ⟨fun other hother => session.registry_setRegistry_of_ne registry hother, ?_, rfl,
    Identities.Extends.refl _⟩
  rw [registry_setRegistry_self]
  exact hoptions

theorem Change.actsIn (hchange : Change id old new) : old.ActsIn id new := by
  cases hchange with
  | request hevolves nextSerial => exact ⟨fun _ _ => rfl, rfl, rfl, hevolves.extends⟩
  | define key policy =>
      have hrequest : old.ActsIn id { old with
          identities := (old.definition id key policy).identities
          nextSerial := (old.definition id key policy).nextSerial } :=
        ⟨fun _ _ => rfl, rfl, rfl, (Hierarchy.evolves_define _ _ _ _ _ _).extends⟩
      rw [defineUnder_eq]
      exact hrequest.trans (actsIn_setRegistry _ rfl)
  | implement _ => exact actsIn_setRegistry _ rfl
  | defineNative identity name method => exact actsIn_setRegistry _ rfl

theorem Evolves.actsIn (hevolves : old.Evolves id new) : old.ActsIn id new := by
  induction hevolves with
  | refl => exact ActsIn.refl old
  | tail _ hchange ih => exact ih.trans hchange.actsIn

end Session

namespace Operation

variable {α β : Type} {id other : RegistryId} {identity target : Token}

/-- Whatever an operation in a registry is given and whatever comes of it, it acts in that
registry. -/
theorem actsIn_run {operation : Operation α} (hid : operation.registry? = some id)
    (session : Session) : session.ActsIn id (operation.run session).2 := by
  by_cases hplain : operation.Plain
  · have hother : ∀ other ∈ operation.registry?, other = id := by
      intro other hother
      exact Option.some_inj.mp (hother.symm.trans hid)
    exact (develops_run hplain hother session).grows.evolves.actsIn
  cases operation with
  | implement other identity trait overrides =>
      cases hid
      exact (session.grows_implementAs id identity _ trait overrides _).evolves.actsIn
  | implementAs other identity targetName trait overrides completeness =>
      cases hid
      exact (session.grows_implementAs id identity targetName trait overrides
        completeness).evolves.actsIn
  | identifyGeneric _ _ | instantiate _ _ | declare _ _ => cases hid
  | _ => exact absurd trivial hplain

theorem registry_run_of_registry?_eq_none {operation : Operation α}
    (hnone : operation.registry? = none) (session : Session) :
    (operation.run session).2.registry = session.registry := by
  cases operation with
  | identifyValue value? => cases value? <;> rfl
  | identify _ | identifyGeneric _ _ | instantiate _ _ | newMethod _ | newOverrides _ | declare _ _
  | defineIn _ _ _ => rfl
  | _ => cases hnone

/-! ## Targets -/

/-- The registry and the target that an operation registers something for, if it is accepted. -/
def target? : Operation α → Option (RegistryId × Token)
  | .implement id identity _ _ | .implementAs id identity _ _ _ _ | .defineNative id identity _ _ =>
    some (id, identity)
  | _ => none

theorem registry?_of_target? {operation : Operation α}
    (htarget : operation.target? = some (id, identity)) : operation.registry? = some id := by
  cases operation with
  | implement _ _ _ _ | implementAs _ _ _ _ _ _ | defineNative _ _ _ _ =>
      cases htarget
      rfl
  | _ => cases htarget

end Operation

/-- What comes of the request to implement a trait, by what it made of the target. -/
def Registration.outcome (registration : Registration) :
    Except ImplementError Target → Except ImplementError Unit × Option (Target × Registration)
  | .error error => (.error error, none)
  | .ok target => (.ok (), some (target, registration))

namespace Session

variable {α β : Type} {id other : RegistryId} {identity target : Token}

/-- Looks at a target, answers, and stores what comes of it. -/
def edit (session : Session) (id : RegistryId) (identity : Token)
    (act : Target → α × Option (Target × Registration)) : α × Session :=
  let registry := session.registry id
  let outcome := act (registry.members.target identity)
  (outcome.1, session.setRegistry id
    { registry with members := registry.members.store identity outcome.2 })

theorem implementAs_eq_edit (session : Session) (id : RegistryId) (identity : Token)
    (targetName : String) (trait : Trait) (overrides : Overrides) (completeness : Completeness) :
    implementAs id identity targetName trait overrides completeness session =
      session.edit id identity fun target =>
        (Registration.implementation identity trait overrides completeness).outcome
          (target.implement targetName trait overrides completeness) := by
  unfold implementAs edit
  dsimp only
  rw [Members.tryImplement_eq]
  cases ((session.registry id).members.target identity).implement targetName trait overrides
    completeness <;> rfl

theorem defineNative_eq_edit (session : Session) (id : RegistryId) (identity : Token)
    (name : String) (method : Method) :
    defineNative id identity name method session =
      session.edit id identity fun target =>
        ((), some (target.defineNative name method, .native identity name method)) := by
  rw [defineNative_eq, Members.defineNative_eq]
  rfl

end Session

/-- An operation that registers something looks at one target.  What comes of it depends on nothing
else but the tokens and the options. -/
theorem Operation.exists_edit {α : Type} {id : RegistryId} {identity : Token}
    {operation : Operation α} (htarget : operation.target? = some (id, identity)) :
    ∃ act : Identities → Options → Target → α × Option (Target × Registration),
      ∀ session, operation.run session =
        session.edit id identity (act session.identities (session.registry id).options) := by
  cases operation with
  | implement other identity trait overrides =>
      cases htarget
      exact ⟨fun ids options target =>
        (Registration.implementation _ trait overrides options.completeness).outcome
          (target.implement (ids.describe _) trait overrides options.completeness),
        fun session => session.implementAs_eq_edit _ _ _ _ _ _⟩
  | implementAs other identity targetName trait overrides completeness =>
      cases htarget
      exact ⟨fun _ _ target =>
        (Registration.implementation _ trait overrides completeness).outcome
          (target.implement targetName trait overrides completeness),
        fun session => session.implementAs_eq_edit _ _ _ _ _ _⟩
  | defineNative other identity name method =>
      cases htarget
      exact ⟨fun _ _ target => ((), some (target.defineNative name method, .native _ name method)),
        fun session => session.defineNative_eq_edit _ _ _ _⟩
  | _ => cases htarget

namespace Session

variable {α β : Type} {id other : RegistryId} {identity target : Token}

/-! ## What an edit leaves -/

theorem members_edit (session : Session) (id : RegistryId) (identity : Token)
    (act : Target → α × Option (Target × Registration)) (other : RegistryId) :
    ((session.edit id identity act).2.registry other).members =
      if other = id then
        (session.registry id).members.store identity
          (act ((session.registry id).members.target identity)).2
      else (session.registry other).members := by
  unfold edit
  rw [registry_setRegistry]
  split <;> rfl

theorem options_edit (session : Session) (id : RegistryId) (identity : Token)
    (act : Target → α × Option (Target × Registration)) (other : RegistryId) :
    ((session.edit id identity act).2.registry other).options =
      (session.registry other).options := by
  unfold edit
  rw [registry_setRegistry]
  split
  · subst other
    rfl
  · rfl

theorem hierarchy_edit (session : Session) (id : RegistryId) (identity : Token)
    (act : Target → α × Option (Target × Registration)) (other : RegistryId) :
    ((session.edit id identity act).2.registry other).hierarchy =
      (session.registry other).hierarchy :=
  session.hierarchy_setRegistry (by rfl) other

/-- All other targets stay as they are. -/
theorem target_edit_of_ne (session : Session) (hne : (other, target) ≠ (id, identity))
    (act : Target → α × Option (Target × Registration)) :
    ((session.edit id identity act).2.registry other).members.target target =
      (session.registry other).members.target target := by
  rw [members_edit]
  split
  · rename_i hother
    subst hother
    exact Members.target_store_of_ne _ (fun hsame => hne (congrArg (Prod.mk _) hsame)) _
  · rfl

/-! ## Two edits -/

/-- Sessions that differ in no more than the order in which registrations were made. -/
structure Rearranged (first second : Session) : Prop where
  identities : second.identities = first.identities
  signatures : second.signatures = first.signatures
  nextSerial : second.nextSerial = first.nextSerial
  options : ∀ id, (second.registry id).options = (first.registry id).options
  hierarchy : ∀ id, (second.registry id).hierarchy = (first.registry id).hierarchy
  members : ∀ id, (first.registry id).members.Rearranged (second.registry id).members

/-- Edits of two targets do not notice each other. -/
theorem edit_comm (session : Session) (hne : (other, target) ≠ (id, identity))
    (act : Target → α × Option (Target × Registration))
    (following : Target → β × Option (Target × Registration)) :
    let first := session.edit id identity act
    let second := session.edit other target following
    (first.2.edit other target following).1 = second.1 ∧
      (second.2.edit id identity act).1 = first.1 ∧
      (first.2.edit other target following).2.Rearranged (second.2.edit id identity act).2 := by
  intro first second
  have hsecond : (first.2.registry other).members.target target =
      (session.registry other).members.target target := session.target_edit_of_ne hne act
  have hfirst : (second.2.registry id).members.target identity =
      (session.registry id).members.target identity :=
    session.target_edit_of_ne (Ne.symm hne) following
  refine ⟨?_, ?_, rfl, rfl, rfl, ?_, ?_, ?_⟩
  · exact congrArg (fun target => (following target).1) hsecond
  · exact congrArg (fun target => (act target).1) hfirst
  · intro third
    rw [options_edit, options_edit, options_edit, options_edit]
  · intro third
    rw [hierarchy_edit, hierarchy_edit, hierarchy_edit, hierarchy_edit]
  · intro third
    have hforth : ((first.2.edit other target following).2.registry third).members =
        if third = other then (first.2.registry other).members.store target
          (following ((session.registry other).members.target target)).2
        else (first.2.registry third).members := by
      rw [members_edit, hsecond]
    have hback : ((second.2.edit id identity act).2.registry third).members =
        if third = id then (second.2.registry id).members.store identity
          (act ((session.registry id).members.target identity)).2
        else (second.2.registry third).members := by
      rw [members_edit, hfirst]
    rw [hforth, hback]
    simp only [first, second, members_edit]
    by_cases hsame : id = other
    · subst hsame
      have htargets : identity ≠ target := fun heq => hne (congrArg (Prod.mk _) heq.symm)
      by_cases hthird : third = id
      · simp only [if_pos hthird, if_pos]
        exact Members.rearranged_store _ htargets _ _
      · simp only [if_neg hthird]
        exact Members.Rearranged.refl _
    · -- each registry is written to once at most
      simp only [if_neg hsame, if_neg (Ne.symm hsame)]
      by_cases hid : third = id
      · subst hid
        simp only [if_neg hsame, if_pos]
        exact Members.Rearranged.refl _
      · simp only [if_neg hid]
        exact Members.Rearranged.refl _

end Session

/-! ## Targets that have to do with each other -/

/-- A target that an application is made of, or another application of the same base. -/
inductive Identities.Kin (ids : Identities) : Token → Token → Prop
  | base {base token : Token} {args : TypeArgs}
      (htoken : ids.find? (.application base args) = some token) : Kin ids token base
  | argument {base token arg : Token} {args : TypeArgs}
      (htoken : ids.find? (.application base args) = some token)
      (harg : .token arg ∈ args.toList) : Kin ids token arg
  | sibling {base token other : Token} {args others : TypeArgs}
      (htoken : ids.find? (.application base args) = some token)
      (hother : ids.find? (.application base others) = some other) (hargs : args ≠ others) :
      Kin ids token other

theorem Identities.Kin.ne {ids : Identities} (hnumbered : ids.Numbered) (hids : ids.WellFormed)
    {token other : Token} (hkin : ids.Kin token other) : token ≠ other := by
  rintro rfl
  cases hkin with
  | base htoken => exact absurd (hnumbered.younger _ _ _ htoken).2.1 (Nat.lt_irrefl _)
  | argument htoken harg =>
      exact absurd ((hnumbered.younger _ _ _ htoken).2.2 _ harg) (Nat.lt_irrefl _)
  | sibling htoken hother hargs =>
      cases hids.injective _ _ _ htoken hother
      exact hargs rfl

/-! ## Isolation -/

namespace Session

/-- **Registries and targets do not get in each other's way.**  An operation in a registry, whatever
bodies it runs and wherever they come from, leaves all other registries as they are.  One that
registers something for a target, or fails to, leaves the answers about all other targets as they
are, so it does not matter which of two such operations comes first.  Both answer as they would by
themselves, and afterwards the answers about every target are the same. -/
theorem isolated (session : Session) :
    (∀ {α : Type} (operation : Operation α),
        (∀ id, operation.registry? = some id → session.ActsIn id (operation.run session).2) ∧
        (operation.registry? = none → (operation.run session).2.registry = session.registry)) ∧
      (∀ {α : Type} (operation : Operation α) (id : RegistryId) (identity : Token),
        operation.target? = some (id, identity) →
          session.ActsIn id (operation.run session).2 ∧
          (∀ other, other ≠ identity → Members.SameAt other (session.registry id).members
            ((operation.run session).2.registry id).members) ∧
          ∀ options, (start options).Proceeds session →
            ∀ other, session.identities.Kin identity other ∨ session.identities.Kin other identity →
              Members.SameAt other (session.registry id).members
                ((operation.run session).2.registry id).members) ∧
      ∀ {α β : Type} (first : Operation α) (second : Operation β) (id other : RegistryId)
        (identity target : Token), first.target? = some (id, identity) →
          second.target? = some (other, target) → (other, target) ≠ (id, identity) →
            (second.run (first.run session).2).1 = (second.run session).1 ∧
            (first.run (second.run session).2).1 = (first.run session).1 ∧
            (second.run (first.run session).2).2.Rearranged
              (first.run (second.run session).2).2 ∧
            ∀ registry token, Members.SameAt token
              ((second.run (first.run session).2).2.registry registry).members
              ((first.run (second.run session).2).2.registry registry).members := by
  refine ⟨?_, ?_, ?_⟩
  · intro α operation
    exact ⟨fun id hid => operation.actsIn_run hid session,
      fun hnone => Operation.registry_run_of_registry?_eq_none hnone session⟩
  · intro α operation id identity htarget
    obtain ⟨act, hact⟩ := Operation.exists_edit htarget
    have hsame : ∀ other, other ≠ identity → Members.SameAt other (session.registry id).members
        ((operation.run session).2.registry id).members := by
      intro other hother
      rw [hact]
      refine .of_target (session.target_edit_of_ne ?_ _)
      exact fun heq => hother (congrArg Prod.snd heq)
    refine ⟨operation.actsIn_run (Operation.registry?_of_target? htarget) session, hsame, ?_⟩
    intro options hsession other hkin
    have hnumbered := hsession.grows.numbered Identities.numbered_empty
    have hids := hsession.grows.evolves.wellFormed Identities.wellFormed_empty
    refine hsame other ?_
    rcases hkin with hkin | hkin
    · exact Ne.symm (hkin.ne hnumbered hids)
    · exact hkin.ne hnumbered hids
  · intro α β first second id other identity target hfirst hsecond hne
    obtain ⟨act, hact⟩ := Operation.exists_edit hfirst
    obtain ⟨following, hfollowing⟩ := Operation.exists_edit hsecond
    rw [hact, hfollowing session, hfollowing, hact]
    have hcomm := session.edit_comm hne (act session.identities (session.registry id).options)
      (following session.identities (session.registry other).options)
    rw [options_edit, options_edit]
    exact ⟨hcomm.1, hcomm.2.1, hcomm.2.2, fun registry => (hcomm.2.2.members registry).sameAt⟩

/-- A trait is implemented for the application of a type, and a native of the same name is defined
for the type itself.  Each keeps its own member, whichever comes first, and a body that registers
natives and then fails does so in the registry of its receiver. -/
theorem isolated_nested :
    let stub : Body := .untyped (.value .unit)
    let grow : Body := .untyped (.sequence [.defineNative .int64 "area" stub, .fail "stopped"])
    let figure : Trait := ⟨⟨9⟩, "Figure", Table.ofList [("area", none)], [], [], 60⟩
    let named := ((Operation.identify .int64).run (start [])).2
    let session := ((Operation.identifyGeneric .string [.token ⟨1⟩]).run named).2
    let first : Operation _ :=
      .implement .shared ⟨3⟩ figure (Table.ofList [("area", ⟨61, stub⟩)])
    let second : Operation _ := .defineNative .shared ⟨2⟩ "area" ⟨62, grow⟩
    let both := (second.run (first.run session).2).2
    let reversed := (first.run (second.run session).2).2
    let call : Operation _ := .call ⟨.unit, ⟨2⟩, .shared⟩ "area" []
    let shown (session : Session) : List (Option String) :=
      [1, 2, 3].map fun raw =>
        ((session.registry .shared).members.member? ⟨raw⟩ "area").map Member.shown
    shown both = [none, some "native 62", some "Figure"] ∧
      shown (call.run both).2 = [some "native 0", some "native 62", some "Figure"] ∧
      (first.run (second.run session).2).1 = (first.run session).1 ∧
      both.Rearranged reversed ∧
      (reversed.registry .shared).members.size = (both.registry .shared).members.size ∧
      (∀ token, Members.SameAt token (both.registry .shared).members
        (reversed.registry .shared).members) ∧
      Members.SameAt ⟨2⟩ (session.registry .shared).members
        ((first.run session).2.registry .shared).members ∧
      (call.run both).2.registry (.numbered 0) = both.registry (.numbered 0) := by
  intro stub grow figure named session first second both reversed call shown
  have hnamed : (start []).Proceeds named :=
    @Proceeds.operation _ _ (.refl _) _ (.identify .int64) trivial
  have hsession : (start []).Proceeds session := by
    refine hnamed.operation fun token htoken => ⟨.type .int64, ?_⟩
    have hsame : token = ⟨1⟩ := by simpa using htoken
    rw [hsame]
    decide +kernel
  have happlied : session.identities.find?
      (.application ⟨2⟩ ⟨[.token ⟨1⟩], by decide⟩) = some ⟨3⟩ := by
    decide +kernel
  obtain ⟨-, htargets, horder⟩ := isolated session
  obtain ⟨-, -, hrelated⟩ := htargets first .shared ⟨3⟩ rfl
  obtain ⟨-, hanswer, hrearranged, hsame⟩ :=
    horder first second .shared .shared ⟨3⟩ ⟨2⟩ rfl rfl (by decide)
  have hcall := ((isolated both).1 call).1 .shared rfl
  exact ⟨by decide +kernel, by decide +kernel, hanswer, hrearranged,
    (hrearranged.members .shared).size_eq.1, hsame .shared,
    hrelated [] hsession ⟨2⟩ (Or.inl (.base happlied)), hcall.others (.numbered 0) (by decide)⟩

end Session

end TraitSystem
