import TraitSystem.Proofs.Call.Inheritance
import TraitSystem.Proofs.Hierarchy.Declaring

/-!
# Why a call finds nothing

A call by name that leads to no body fails before any body is run, and the error tells how far the
name got (`unanswered_of_reachable`).  A name without a native goes to the first implemented trait
that declares it, and this trait is blamed if its implementation has no body for it.  If no
implemented trait declares the name, the blame is on a trait that the registry could have
implemented, the one with the smallest identity.  And if there is none of these either, the member
is missing.

## Strategy

The four ways are told apart once (`Reachable.member_cases`), along the two look-ups that a call
makes: what the name stands for, and then which body the implementation has.  Each lemma before that
says what one of the ways comes to.
-/

namespace TraitSystem

/-! ## Names without a body -/

/-- The trait that was implemented first among those that declare a name has no body for it. -/
structure Members.LeavesOpen (members : Members) (identity : Token) (name : String)
    (trait : Trait) : Prop where
  declares : trait.declares name
  first : ∃ earlier later, members.traitsOf identity = earlier ++ trait :: later ∧
    NoneDeclares earlier name
  bodiless : ∃ implementation, members.implementation? identity trait.identity =
      some implementation ∧
    implementation.trait = trait ∧ implementation.body? name = none

theorem Members.LeavesOpen.mem {members : Members} {identity : Token} {name : String}
    {trait : Trait} (hopen : members.LeavesOpen identity name trait) :
    trait ∈ members.traitsOf identity := by
  obtain ⟨earlier, later, htraits, -⟩ := hopen.first
  rw [htraits]
  exact List.mem_append_right _ List.mem_cons_self

namespace Receiver

variable (receiver : Receiver) (session : Session) (name : String)

/-- Whether the target of a receiver defines a member itself. -/
def hasNative : Bool :=
  ((session.registry receiver.registry).members.target receiver.identity).natives.contains name

/-- The traits that are implemented for a receiver, in the order of registration. -/
def traits : List Trait :=
  (session.registry receiver.registry).members.traitsOf receiver.identity

/-- The error of a call by name that leads to no body, and what it is raised for. -/
inductive Unanswered : CallError → Prop
  /-- The first implemented trait that declares the name has no body for it. -/
  | leftOpen {trait : Trait} (hnative : receiver.hasNative session name = false)
      (hopen : (session.registry receiver.registry).members.LeavesOpen receiver.identity name
        trait) :
      Unanswered (.notImplemented name trait.name (session.identities.describe receiver.identity))
  /-- Only traits that are not implemented declare the name. -/
  | unimplemented {trait : Trait} (hnative : receiver.hasNative session name = false)
      (hnone : NoneDeclares (receiver.traits session) name)
      (hfirst : (session.registry receiver.registry).hierarchy.DeclaredFirst name trait) :
      Unanswered (.notImplemented name trait.name (session.identities.describe receiver.identity))
  /-- No trait declares the name. -/
  | missing (hnative : receiver.hasNative session name = false)
      (hnone : NoneDeclares (receiver.traits session) name)
      (hundeclared : NoneDeclares (session.registry receiver.registry).hierarchy.traits.values
        name) :
      Unanswered (.missingMember name (session.identities.describe receiver.identity))

variable {receiver session name}

/-- Without a native, a name is forwarded to the first implemented trait that declares it. -/
theorem member?_of_hasNative_eq_false (hreachable : session.Reachable)
    (hnative : receiver.hasNative session name = false) :
    (session.registry receiver.registry).members.member? receiver.identity name =
      ((receiver.traits session).find? fun trait => trait.declares name).map .forward := by
  have hmembers := hreachable.members receiver.registry
  rw [hmembers.member?_eq, ← hmembers.find?_natives,
    (Table.contains_eq_false_iff _ _).mp hnative, Option.map_none, Option.none_or]
  rfl

/-- A trait that leaves a name open is blamed for it. -/
theorem member_of_leavesOpen (hreachable : session.Reachable)
    (hnative : receiver.hasNative session name = false) {trait : Trait}
    (hopen : (session.registry receiver.registry).members.LeavesOpen receiver.identity name
      trait) :
    receiver.member session name = .error (receiver.notImplemented session trait name) := by
  obtain ⟨earlier, later, htraits, hnone⟩ := hopen.first
  obtain ⟨implementation, hfind, rfl, hbody⟩ := hopen.bodiless
  have hfirst : (receiver.traits session).find? (fun trait => trait.declares name) =
      some implementation.trait := by
    refine List.find?_eq_some_iff_append.mpr ⟨hopen.declares, earlier, later, htraits, ?_⟩
    simpa [NoneDeclares] using hnone
  have hforward := member?_of_hasNative_eq_false hreachable hnative
  rw [hfirst] at hforward
  rw [member_of_forward hforward hopen.declares hfind, hbody]

/-- Where no implemented trait declares the name, it is left to the traits of the registry. -/
theorem member_of_noneDeclares (hreachable : session.Reachable)
    (hnative : receiver.hasNative session name = false)
    (hnone : NoneDeclares (receiver.traits session) name) :
    receiver.member session name =
      match (session.registry receiver.registry).hierarchy.declaring? name with
      | some trait => .error (receiver.notImplemented session trait name)
      | none => .error (.missingMember name (session.identities.describe receiver.identity)) := by
  have hfind : (receiver.traits session).find? (fun trait => trait.declares name) = none := by
    simpa [NoneDeclares] using hnone
  have hmember := member?_of_hasNative_eq_false hreachable hnative
  rw [hfind, Option.map_none] at hmember
  cases hdeclaring : (session.registry receiver.registry).hierarchy.declaring? name with
  | none => simp only [member, hmember, hdeclaring]
  | some trait => simp only [member, hmember, hdeclaring]

/-- The errors are those that are raised. -/
theorem Unanswered.member_eq (hreachable : session.Reachable) {error : CallError}
    (hunanswered : receiver.Unanswered session name error) :
    receiver.member session name = .error error := by
  have hlookup := (hreachable.hierarchy receiver.registry).wellFormedLookup
  cases hunanswered with
  | leftOpen hnative hopen => exact member_of_leavesOpen hreachable hnative hopen
  | @unimplemented trait hnative hnone hfirst =>
      rw [member_of_noneDeclares hreachable hnative hnone,
        (Hierarchy.declaring?_eq_some_iff hlookup name trait).mpr hfirst]
      rfl
  | missing hnative hnone hundeclared =>
      rw [member_of_noneDeclares hreachable hnative hnone,
        (Hierarchy.declaring?_eq_none_iff _ name).mpr hundeclared]

end Receiver

/-! ## Every session -/

namespace Session

variable {session : Session} {receiver : Receiver} {name : String}

/-- A name leads to a body, unless there is no native and either a trait leaves it open or no
implemented trait declares it. -/
theorem Reachable.member_cases (hreachable : session.Reachable) (receiver : Receiver)
    (name : String) :
    (∃ body, receiver.member session name = .ok body) ∨
      receiver.hasNative session name = false ∧
        ((∃ trait, (session.registry receiver.registry).members.LeavesOpen receiver.identity name
            trait) ∨
          NoneDeclares (receiver.traits session) name) := by
  have hmembers := hreachable.members receiver.registry
  cases hnative : receiver.hasNative session name with
  | true =>
      obtain ⟨body, hbody⟩ := Option.isSome_iff_exists.mp hnative
      refine Or.inl ⟨body, Receiver.member_of_native ?_⟩
      simp only [Members.member?, Target.member?, hbody]
  | false =>
      have hmember := Receiver.member?_of_hasNative_eq_false hreachable hnative
      cases hfirst : (receiver.traits session).find? fun trait => trait.declares name with
      | none => exact Or.inr ⟨rfl, Or.inr (by simpa [NoneDeclares] using hfirst)⟩
      | some trait =>
          rw [hfirst] at hmember
          obtain ⟨hdeclares, implementation, hfind, rfl⟩ :=
            hmembers.find?_forwards (Target.find?_forwards_of_member? hmember)
          cases hbody : implementation.body? name with
          | some body =>
              refine Or.inl ⟨body, ?_⟩
              rw [Receiver.member_of_forward hmember hdeclares hfind, hbody]
          | none =>
              obtain ⟨-, earlier, later, htraits, hearlier⟩ :=
                List.find?_eq_some_iff_append.mp hfirst
              refine Or.inr ⟨rfl, Or.inl ⟨implementation.trait, hdeclares, ?_, ?_⟩⟩
              · exact ⟨earlier, later, htraits, by simpa [NoneDeclares] using hearlier⟩
              · exact ⟨implementation, hfind, rfl, hbody⟩

/-- **A call by name leads to no body in these three ways and no other.** -/
theorem Reachable.member_eq_error_iff (hreachable : session.Reachable) (receiver : Receiver)
    (name : String) (error : CallError) :
    receiver.member session name = .error error ↔ receiver.Unanswered session name error := by
  refine ⟨fun hmember => ?_, Receiver.Unanswered.member_eq hreachable⟩
  rcases hreachable.member_cases receiver name with
    ⟨body, hbody⟩ | ⟨hnative, ⟨trait, hopen⟩ | hnone⟩
  · cases hbody.symm.trans hmember
  · cases (Receiver.member_of_leavesOpen hreachable hnative hopen).symm.trans hmember
    exact .leftOpen hnative hopen
  · rw [Receiver.member_of_noneDeclares hreachable hnative hnone] at hmember
    cases hdeclaring : (session.registry receiver.registry).hierarchy.declaring? name with
    | none =>
        rw [hdeclaring] at hmember
        cases hmember
        exact .missing hnative hnone ((Hierarchy.declaring?_eq_none_iff _ name).mp hdeclaring)
    | some trait =>
        rw [hdeclaring] at hmember
        cases hmember
        exact .unimplemented hnative hnone (Hierarchy.declaredFirst_of_declaring? hdeclaring)

/-- **Why a call finds nothing.**  Without a native, a member is missing if no trait of the target
or the registry declares it, and it is not implemented if the first implemented trait that declares
it has no body for it, or else if only traits that are not implemented declare it.  Nothing else can
go wrong before a body is run, no body is run then, and the call leaves the session as it is. -/
theorem unanswered_of_reachable (hreachable : session.Reachable) (receiver : Receiver)
    (name : String) :
    let registry := session.registry receiver.registry
    let target := session.identities.describe receiver.identity
    (receiver.member session name = .error (.missingMember name target) ↔
      receiver.hasNative session name = false ∧ NoneDeclares (receiver.traits session) name ∧
        NoneDeclares registry.hierarchy.traits.values name) ∧
      (∀ blamed, receiver.member session name = .error (.notImplemented name blamed target) ↔
        receiver.hasNative session name = false ∧ ∃ trait, trait.name = blamed ∧
          (registry.members.LeavesOpen receiver.identity name trait ∨
            NoneDeclares (receiver.traits session) name ∧
              registry.hierarchy.DeclaredFirst name trait)) ∧
      (∀ body, receiver.member session name = .ok body → ∀ invoke args,
        receiver.call invoke name args session = invoke body receiver args session) ∧
      ∀ error, receiver.member session name = .error error →
        (error = .missingMember name target ∨ ∃ blamed, error = .notImplemented name blamed target) ∧
        ∀ invoke args,
          receiver.call invoke name args session = (.error (.raised error), session) := by
  intro registry target
  have hiff := hreachable.member_eq_error_iff receiver name
  refine ⟨⟨?_, ?_⟩, fun blamed => ⟨?_, ?_⟩, ?_, ?_⟩
  · intro hmember
    cases (hiff _).mp hmember with
    | missing hnative hnone hundeclared => exact ⟨hnative, hnone, hundeclared⟩
  · rintro ⟨hnative, hnone, hundeclared⟩
    exact (hiff _).mpr (.missing hnative hnone hundeclared)
  · intro hmember
    cases (hiff _).mp hmember with
    | leftOpen hnative hopen => exact ⟨hnative, _, rfl, Or.inl hopen⟩
    | unimplemented hnative hnone hfirst => exact ⟨hnative, _, rfl, Or.inr ⟨hnone, hfirst⟩⟩
  · rintro ⟨hnative, trait, rfl, hopen | ⟨hnone, hfirst⟩⟩
    · exact (hiff _).mpr (.leftOpen hnative hopen)
    · exact (hiff _).mpr (.unimplemented hnative hnone hfirst)
  · intro body hbody invoke args
    rw [Receiver.call_apply, hbody]
  · intro error hmember
    refine ⟨?_, fun invoke args => by rw [Receiver.call_apply, hmember]⟩
    cases (hiff error).mp hmember with
    | leftOpen _ _ => exact Or.inr ⟨_, rfl⟩
    | unimplemented _ _ _ => exact Or.inr ⟨_, rfl⟩
    | missing _ _ _ => exact Or.inl rfl

/-- A session in which the type of units implements two traits, both of which declare `area`, and
the first without a body.  The registry has two more traits, both of which declare `volume`; the one
that was defined last has the smaller identity.  A native has the name of a method of the first
trait. -/
def vacant : Session :=
  let stub : Body := .untyped (.value .unit)
  let declared := ((((start []).after (.identify .unit)).after
    (.identify (.trait (Hierarchy.customKey "Early")))).after
    (.declare (Hierarchy.customKey "Shape") ⟨[], [("area", none), ("edge", none)]⟩)).after
    (.declare (Hierarchy.customKey "Figure") ⟨[], [("area", some stub)]⟩)
  let known := (declared.after
    (.declare (Hierarchy.customKey "Late") ⟨[], [("volume", some stub)]⟩)).after
    (.declare (Hierarchy.customKey "Early") ⟨[], [("volume", some stub)]⟩)
  let implemented := (known.adopt .shared .shared (Hierarchy.customKey "Shape") ⟨1⟩).adopt
    .shared .shared (Hierarchy.customKey "Figure") ⟨1⟩
  ((implemented.after (.define .shared (Hierarchy.customKey "Late"))).after
    (.define .shared (Hierarchy.customKey "Early"))).after
    (.defineNative .shared ⟨1⟩ "edge" ⟨70, stub⟩)

/-- Each name of the session is answered or blamed as it should be. -/
theorem unanswered_vacant :
    let receiver : Receiver := ⟨.unit, ⟨1⟩, .shared⟩
    let registry := vacant.registry .shared
    let found (name : String) := (receiver.member vacant name).map Method.serial
    vacant.Reachable ∧ found "edge" = .ok 70 ∧
      found "area" = .error (.notImplemented "area" "Shape" "()") ∧
      (∃ trait, trait.name = "Shape" ∧ registry.members.LeavesOpen ⟨1⟩ "area" trait) ∧
      found "volume" = .error (.notImplemented "volume" "Early" "()") ∧
      (∃ trait, trait.name = "Early" ∧ registry.hierarchy.DeclaredFirst "volume" trait) ∧
      found "size" = .error (.missingMember "size" "()") ∧
      NoneDeclares registry.hierarchy.traits.values "size" ∧
      ∀ invoke args, receiver.call invoke "size" args vacant =
        (.error (.raised (.missingMember "size" "()")), vacant) := by
  intro receiver registry found
  have hreachable : vacant.Reachable := by
    iterate 3 refine Reachable.after ?_ _
    iterate 2 refine Reachable.adopt ?_ _ _ _ _
    iterate 6 refine Reachable.after ?_ _
    exact reachable_start []
  have hnames := unanswered_of_reachable hreachable receiver
  have hunit : vacant.identities.describe receiver.identity = "()" := by decide +kernel
  rw [hunit] at hnames
  have harea : found "area" = .error (.notImplemented "area" "Shape" "()") := by decide +kernel
  have hvolume : found "volume" = .error (.notImplemented "volume" "Early" "()") := by
    decide +kernel
  have hsize : found "size" = .error (.missingMember "size" "()") := by decide +kernel
  -- `area` is declared by an implemented trait, and `volume` is not
  have hclaimed : ¬ NoneDeclares (receiver.traits vacant) "area" := by decide +kernel
  have hunclaimed : NoneDeclares (receiver.traits vacant) "volume" := by decide +kernel
  obtain ⟨-, shape, hshape, hopen | ⟨hnone, -⟩⟩ :=
    ((hnames "area").2.1 "Shape").mp (eq_error_of_map harea)
  · obtain ⟨-, early, hearly, hopen' | ⟨-, hfirst⟩⟩ :=
      ((hnames "volume").2.1 "Early").mp (eq_error_of_map hvolume)
    · exact absurd hopen'.declares (hunclaimed early hopen'.mem)
    · have hmissing := eq_error_of_map hsize
      exact ⟨hreachable, by decide +kernel, harea, ⟨shape, hshape, hopen⟩, hvolume,
        ⟨early, hearly, hfirst⟩, hsize, ((hnames "size").1.mp hmissing).2.2,
        ((hnames "size").2.2.2 _ hmissing).2⟩
  · exact absurd hnone hclaimed

end Session

end TraitSystem
