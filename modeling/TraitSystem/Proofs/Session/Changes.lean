import TraitSystem.Session
import TraitSystem.Proofs.Hierarchy.Growth
import TraitSystem.Proofs.Members.Reachable

/-!
# What can happen to a session

However an operation is composed, all it does to a session are a few changes: tokens and serial
numbers are requested, a trait is defined, an implementation is accepted, or a native is defined
(`Change`).  They are told apart by the registry that they write to, because whatever a method body
does it does in the registry of its receiver.

That a definition fails or an implementation is refused is no case of its own.  The former is a
request for tokens, and the latter changes nothing.

Tokens are asked for of what has tokens, unless a token is passed that was never handed out.  This
can only be done where applications are asked for; everything else is made of changes that keep the
table of tokens grounded (`GroundedChange`).  And only from outside can a trait be implemented that
the registry does not have itself; everything else keeps to the registry's own traits (`OwnChange`).
-/

namespace TraitSystem.Session

/-! ## Changes -/

/-- A single change of a session that writes to no registry but the given one. -/
inductive Change (id : RegistryId) : Session → Session → Prop
  | request {session : Session} {identities : Identities}
      (hevolves : session.identities.Evolves identities) (nextSerial : Nat) :
      Change id session { session with identities, nextSerial }
  | define (session : Session) (key : TraitKey) (policy : CyclePolicy) :
      Change id session (defineUnder id key policy session).2
  | implement {session : Session} {members : Members} {identity : Token} {targetName : String}
      {trait : Trait} {overrides : Overrides} {completeness : Completeness}
      (hmembers : (session.registry id).members.implement identity targetName trait overrides
        completeness = .ok members) :
      Change id session (session.setRegistry id { session.registry id with members })
  | defineNative (session : Session) (identity : Token) (name : String) (method : Method) :
      Change id session (session.defineNative id identity name method).2

/-- What any number of changes in one registry make of a session. -/
def Evolves (id : RegistryId) : Session → Session → Prop := Relation.ReflTransGen (Change id)

section

variable {id : RegistryId} {old new : Session}

theorem Evolves.refl (session : Session) : session.Evolves id session := Relation.ReflTransGen.refl

theorem Evolves.trans {first second third : Session} (hfirst : first.Evolves id second)
    (hsecond : second.Evolves id third) : first.Evolves id third :=
  Relation.ReflTransGen.trans hfirst hsecond

theorem Change.evolves (hchange : Change id old new) : old.Evolves id new :=
  Relation.ReflTransGen.single hchange

/-- A single change that hands out tokens only for what is grounded. -/
structure GroundedChange (id : RegistryId) (old new : Session) : Prop where
  change : Change id old new
  grows : old.identities.Grows new.identities

/-- What any number of such changes in one registry make of a session. -/
def Grows (id : RegistryId) : Session → Session → Prop :=
  Relation.ReflTransGen (GroundedChange id)

theorem Grows.refl (session : Session) : session.Grows id session := Relation.ReflTransGen.refl

theorem Change.grows_of_identities (hchange : Change id old new)
    (hgrows : old.identities.Grows new.identities) : old.Grows id new :=
  Relation.ReflTransGen.single ⟨hchange, hgrows⟩

theorem Grows.evolves (hgrows : old.Grows id new) : old.Evolves id new := by
  induction hgrows with
  | refl => exact Evolves.refl old
  | tail _ hchange ih => exact ih.trans hchange.change.evolves

theorem Grows.identities (hgrows : old.Grows id new) : old.identities.Grows new.identities := by
  induction hgrows with
  | refl => exact Identities.Grows.refl _
  | tail _ hchange ih => exact ih.trans hchange.grows

/-- A grounded change that implements no trait but those that the registry has. -/
structure OwnChange (id : RegistryId) (old new : Session) : Prop
    extends GroundedChange id old new where
  own : ∀ other trait, (new.registry other).members.Registers trait →
    (old.registry other).members.Registers trait ∨
      trait ∈ (new.registry other).hierarchy.traits.values

/-- What any number of such changes in one registry make of a session. -/
def Develops (id : RegistryId) : Session → Session → Prop := Relation.ReflTransGen (OwnChange id)

theorem Develops.refl (session : Session) : session.Develops id session :=
  Relation.ReflTransGen.refl

theorem Develops.trans {first second third : Session} (hfirst : first.Develops id second)
    (hsecond : second.Develops id third) : first.Develops id third :=
  Relation.ReflTransGen.trans hfirst hsecond

theorem OwnChange.develops (hchange : OwnChange id old new) : old.Develops id new :=
  Relation.ReflTransGen.single hchange

theorem Develops.grows (hdevelops : old.Develops id new) : old.Grows id new := by
  induction hdevelops with
  | refl => exact Grows.refl old
  | tail _ hchange ih => exact ih.tail hchange.toGroundedChange

/-! ## What a change does to the parts of a session -/

theorem registry_setRegistry (session : Session) (id : RegistryId) (registry : Registry)
    (other : RegistryId) :
    (session.setRegistry id registry).registry other =
      if other = id then registry else session.registry other := rfl

theorem members_setRegistry (session : Session) {id : RegistryId} {registry : Registry}
    (hsame : registry.members = (session.registry id).members) (other : RegistryId) :
    ((session.setRegistry id registry).registry other).members =
      (session.registry other).members := by
  rw [registry_setRegistry]
  split
  · subst other
    exact hsame
  · rfl

theorem hierarchy_setRegistry (session : Session) {id : RegistryId} {registry : Registry}
    (hsame : registry.hierarchy = (session.registry id).hierarchy) (other : RegistryId) :
    ((session.setRegistry id registry).registry other).hierarchy =
      (session.registry other).hierarchy := by
  rw [registry_setRegistry]
  split
  · subst other
    exact hsame
  · rfl

/-- The definition of a trait in a registry, as the session is. -/
def definition (session : Session) (id : RegistryId) (key : TraitKey) (policy : CyclePolicy) :
    Definition :=
  (session.registry id).hierarchy.define session.signatures policy key session.identities
    session.nextSerial

theorem defineUnder_eq (session : Session) (id : RegistryId) (key : TraitKey)
    (policy : CyclePolicy) :
    defineUnder id key policy session =
      let definition := session.definition id key policy
      (definition.result,
        ({ session with identities := definition.identities
                        nextSerial := definition.nextSerial }).setRegistry id
          { session.registry id with hierarchy := definition.hierarchy }) := rfl

theorem defineNative_eq (session : Session) (id : RegistryId) (identity : Token) (name : String)
    (method : Method) :
    defineNative id identity name method session =
      ((), session.setRegistry id
        { session.registry id with
          members := (session.registry id).members.defineNative identity name method }) := rfl

theorem Change.identities (hchange : Change id old new) :
    old.identities.Evolves new.identities := by
  cases hchange with
  | request hevolves _ => exact hevolves
  | define key policy => exact Hierarchy.evolves_define _ _ _ _ _ _
  | implement _ => exact Identities.Evolves.refl _
  | defineNative identity name method => exact Identities.Evolves.refl _

/-- A change leaves a hierarchy as it is, or defines a trait in it. -/
theorem Change.hierarchy (hchange : Change id old new) (other : RegistryId) :
    (new.registry other).hierarchy = (old.registry other).hierarchy ∨
      ∃ key policy,
        (new.registry other).hierarchy = (old.definition other key policy).hierarchy ∧
          new.identities = (old.definition other key policy).identities := by
  cases hchange with
  | request _ _ => exact Or.inl rfl
  | define key policy =>
      rw [defineUnder_eq, registry_setRegistry]
      split
      · subst other
        exact Or.inr ⟨key, policy, rfl, rfl⟩
      · exact Or.inl rfl
  | implement _ => exact Or.inl (hierarchy_setRegistry old (by rfl) other)
  | defineNative identity name method => exact Or.inl (hierarchy_setRegistry old (by rfl) other)

/-- A definition registers nothing. -/
theorem members_defineUnder (session : Session) (id : RegistryId) (key : TraitKey)
    (policy : CyclePolicy) (other : RegistryId) :
    ((defineUnder id key policy session).2.registry other).members =
      (session.registry other).members := by
  rw [defineUnder_eq]
  exact members_setRegistry { session with identities := _, nextSerial := _ } (by rfl) other

/-- A change leaves members as they are, or registers something. -/
theorem Change.members (hchange : Change id old new) (other : RegistryId) :
    (new.registry other).members = (old.registry other).members ∨
      (∃ identity targetName trait overrides completeness,
        (old.registry other).members.implement identity targetName trait overrides completeness =
          .ok (new.registry other).members) ∨
      ∃ identity name method,
        (new.registry other).members =
          (old.registry other).members.defineNative identity name method := by
  cases hchange with
  | request _ _ => exact Or.inl rfl
  | define key policy => exact Or.inl (old.members_defineUnder id key policy other)
  | implement hmembers =>
      rw [registry_setRegistry]
      split
      · subst other
        exact Or.inr (Or.inl ⟨_, _, _, _, _, hmembers⟩)
      · exact Or.inl rfl
  | defineNative identity name method =>
      rw [defineNative_eq, registry_setRegistry]
      split
      · subst other
        exact Or.inr (Or.inr ⟨identity, name, method, rfl⟩)
      · exact Or.inl rfl

end

/-! ## Operations that run no method body -/

section

variable (id : RegistryId) (session : Session)

theorem develops_request {identities : Identities} (hgrows : session.identities.Grows identities)
    (nextSerial : Nat) : session.Develops id { session with identities, nextSerial } :=
  OwnChange.develops ⟨⟨.request hgrows.evolves nextSerial, hgrows⟩, fun _ _ => Or.inl⟩

theorem develops_identify (type : Ty) : session.Develops id (identify type session).2 :=
  session.develops_request id (Identities.grows_ofType _ type) session.nextSerial

theorem develops_identifyValue (value : Value) :
    session.Develops id (identifyValue value session).2 :=
  session.develops_request id (Identities.grows_ofValueType _ value.type) session.nextSerial

theorem develops_identifyValue? (value? : Option Value) :
    session.Develops id (identifyValue? value? session).2 := by
  cases value? with
  | none => exact Develops.refl session
  | some value => exact session.develops_identifyValue id value

theorem evolves_identifyGeneric (type : Ty) (args : List TypeArg) :
    session.Evolves id (identifyGeneric type args session).2 :=
  (Change.request (Identities.evolves_ofGeneric _ type args) session.nextSerial).evolves

theorem develops_identifyGeneric (type : Ty) {args : List TypeArg}
    (hargs : session.identities.Knows args) :
    session.Develops id (identifyGeneric type args session).2 :=
  session.develops_request id (Identities.grows_ofGeneric type hargs) session.nextSerial

theorem evolves_instantiate (base : Token) (args : TypeArgs) :
    session.Evolves id (instantiate base args session).2 :=
  (Change.request (Identities.evolves_instantiate _ base args) session.nextSerial).evolves

theorem develops_instantiate {base : Token} {args : TypeArgs}
    (hbase : session.identities.HandedOut base) (hargs : session.identities.Knows args.toList) :
    session.Develops id (instantiate base args session).2 :=
  session.develops_request id (Identities.grows_instantiate hbase hargs) session.nextSerial

theorem develops_newMethod (body : Body) : session.Develops id (newMethod body session).2 :=
  session.develops_request id (Identities.Grows.refl _) _

theorem develops_newOverrides (bodies : List (String × Body)) :
    session.Develops id (newOverrides bodies session).2 :=
  session.develops_request id (Identities.Grows.refl _) _

theorem develops_defineIn (hierarchy : Hierarchy) (key : TraitKey) (policy : CyclePolicy) :
    session.Develops id (defineIn hierarchy key policy session).2 :=
  session.develops_request id (Hierarchy.grows_define _ _ _ _ _ _) _

theorem develops_defineUnder (key : TraitKey) (policy : CyclePolicy) :
    session.Develops id (defineUnder id key policy session).2 := by
  refine OwnChange.develops ⟨⟨.define session key policy, Hierarchy.grows_define _ _ _ _ _ _⟩, ?_⟩
  intro other trait hregisters
  rw [members_defineUnder] at hregisters
  exact Or.inl hregisters

theorem develops_define (key : TraitKey) : session.Develops id (define id key session).2 :=
  session.develops_defineUnder id key (session.registry id).options.cycles

/-- A trait that is defined is one of the registry's own from then on. -/
theorem mem_values_define {id : RegistryId} {session : Session} {key : TraitKey} {trait : Trait}
    (hanswer : (define id key session).1 = .ok trait) :
    trait ∈ ((define id key session).2.registry id).hierarchy.traits.values := by
  show trait ∈ ((setRegistry _ id _).registry id).hierarchy.traits.values
  rw [registry_setRegistry_self]
  exact Hierarchy.mem_values_define _ _ _ _ _ _ hanswer

/-- An implementation is refused, which leaves the session as it is, or accepted. -/
theorem implementAs_cases (identity : Token) (targetName : String) (trait : Trait)
    (overrides : Overrides) (completeness : Completeness) :
    (∃ error, implementAs id identity targetName trait overrides completeness session =
      (.error error, session)) ∨
    ∃ members,
      (session.registry id).members.implement identity targetName trait overrides completeness =
        .ok members ∧
      implementAs id identity targetName trait overrides completeness session =
        (.ok (), session.setRegistry id { session.registry id with members }) := by
  unfold implementAs
  dsimp only
  rw [Members.implement_eq, Members.tryImplement_eq]
  cases ((session.registry id).members.target identity).implement targetName trait overrides
      completeness with
  | error error =>
      -- the registry is written back as it was
      exact Or.inl ⟨error, congrArg (Prod.mk _) (session.setRegistry_eq_self id)⟩
  | ok target => exact Or.inr ⟨_, rfl, rfl⟩

theorem grows_implementAs (identity : Token) (targetName : String) (trait : Trait)
    (overrides : Overrides) (completeness : Completeness) :
    session.Grows id
      (implementAs id identity targetName trait overrides completeness session).2 := by
  rcases session.implementAs_cases id identity targetName trait overrides completeness with
    ⟨_, hrefused⟩ | ⟨members, hmembers, haccepted⟩
  · rw [hrefused]
    exact Grows.refl session
  · rw [haccepted]
    exact (Change.implement hmembers).grows_of_identities (Identities.Grows.refl _)

/-- The one trait that can be registered anew is the one that is implemented. -/
theorem registers_implementAs {identity : Token} {targetName : String} {trait known : Trait}
    {overrides : Overrides} {completeness : Completeness} {other : RegistryId}
    (hknown : ((implementAs id identity targetName trait overrides completeness
      session).2.registry other).members.Registers known) :
    (session.registry other).members.Registers known ∨ other = id ∧ known = trait := by
  rcases session.implementAs_cases id identity targetName trait overrides completeness with
    ⟨_, hrefused⟩ | ⟨members, hmembers, haccepted⟩
  · rw [hrefused] at hknown
    exact Or.inl hknown
  · rw [haccepted, registry_setRegistry] at hknown
    split at hknown
    · subst other
      exact (Members.registers_implement hmembers hknown).imp_right fun hsame => ⟨rfl, hsame⟩
    · exact Or.inl hknown

theorem develops_implementAs (identity : Token) (targetName : String) {trait : Trait}
    (overrides : Overrides) (completeness : Completeness)
    (htrait : trait ∈ (session.registry id).hierarchy.traits.values) :
    session.Develops id
      (implementAs id identity targetName trait overrides completeness session).2 := by
  rcases session.implementAs_cases id identity targetName trait overrides completeness with
    ⟨_, hrefused⟩ | ⟨members, hmembers, haccepted⟩
  · rw [hrefused]
    exact Develops.refl session
  · rw [haccepted]
    refine OwnChange.develops ⟨⟨.implement hmembers, Identities.Grows.refl _⟩, ?_⟩
    intro other known hknown
    rw [← haccepted] at hknown
    refine (session.registers_implementAs id hknown).imp_right ?_
    rintro ⟨rfl, rfl⟩
    rw [registry_setRegistry_self]
    exact htrait

theorem develops_defineNative (identity : Token) (name : String) (method : Method) :
    session.Develops id (session.defineNative id identity name method).2 := by
  refine OwnChange.develops
    ⟨⟨.defineNative session identity name method, Identities.Grows.refl _⟩, ?_⟩
  intro other trait hregisters
  rw [defineNative_eq, registry_setRegistry] at hregisters
  split at hregisters
  · subst other
    exact Or.inl (Members.registers_defineNative hregisters)
  · exact Or.inl hregisters

end

end TraitSystem.Session
