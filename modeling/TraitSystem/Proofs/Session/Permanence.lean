import TraitSystem.Proofs.Session.Reachable

/-!
# Nothing is ever lost

Whatever is done in a session, what was assigned, defined or registered before stays as it was
(`Reaches.keeps`).  That includes operations that fail and calls whose bodies register something
before they fail.

## Strategy

Tokens, hierarchies and targets are each known to be permanent under their own changes.  A step of
the session is at most one of these changes in one registry, so `Extends` follows for a step and by
transitivity for all that operations do.  That a trait is still answered when it is asked for
(`Extends.defined`) is a matter of the new session alone: the token of the trait and the trait found
under it are still there, and a definition looks no further.
-/

namespace TraitSystem.Session

/-- Everything that was assigned, defined or registered in the old session is so in the new one. -/
structure Extends (old new : Session) : Prop where
  /-- Tokens and recorded names. -/
  identities : old.identities.Extends new.identities
  /-- The traits of every registry. -/
  traits : ∀ id token trait, (old.registry id).hierarchy.find? token = some trait →
    (new.registry id).hierarchy.find? token = some trait
  /-- A trait is still answered when it is asked for, whatever is declared by then. -/
  defined : ∀ id key token trait, old.identities.find? (.type (.trait key)) = some token →
    (old.registry id).hierarchy.find? token = some trait →
      (define id key new).1 = .ok trait ∧ ∀ policy, (defineUnder id key policy new).1 = .ok trait
  /-- What is registered for every identity. -/
  targets : ∀ id identity,
    ((old.registry id).members.target identity).Extends ((new.registry id).members.target identity)

/-! ## Traits that are there are answered -/

theorem defineUnder_eq_ok {session : Session} {id : RegistryId} {key : TraitKey} {token : Token}
    {trait : Trait} (htoken : session.identities.find? (.type (.trait key)) = some token)
    (htrait : (session.registry id).hierarchy.find? token = some trait) (policy : CyclePolicy) :
    (defineUnder id key policy session).1 = .ok trait := by
  rw [defineUnder_eq]
  show (session.definition id key policy).result = _
  unfold definition
  rw [Hierarchy.define_eq _ _ _ _ _ _ htoken htrait]

/-- Sessions whose parts extend each other. -/
private theorem Extends.of_parts {old new : Session}
    (hidentities : old.identities.Extends new.identities)
    (htraits : ∀ id token trait, (old.registry id).hierarchy.find? token = some trait →
      (new.registry id).hierarchy.find? token = some trait)
    (htargets : ∀ id identity, ((old.registry id).members.target identity).Extends
      ((new.registry id).members.target identity)) : old.Extends new where
  identities := hidentities
  traits := htraits
  targets := htargets
  defined id key token trait htoken htrait := by
    have hanswered := defineUnder_eq_ok (hidentities.tokens _ token htoken)
      (htraits id token trait htrait)
    exact ⟨hanswered (new.registry id).options.cycles, hanswered⟩

theorem Extends.refl (session : Session) : session.Extends session :=
  .of_parts (Identities.Extends.refl _) (fun _ _ _ h => h) fun _ _ => Target.Extends.refl _

theorem Extends.trans {first second third : Session} (hfirst : first.Extends second)
    (hsecond : second.Extends third) : first.Extends third :=
  .of_parts (hfirst.identities.trans hsecond.identities)
    (fun id token trait h => hsecond.traits id token trait (hfirst.traits id token trait h))
    fun id identity => (hfirst.targets id identity).trans (hsecond.targets id identity)

/-! ## Steps lose nothing -/

theorem Change.find?_hierarchy {id other : RegistryId} {old new : Session}
    (hchange : Change id old new) {token : Token} {trait : Trait}
    (hfind : (old.registry other).hierarchy.find? token = some trait) :
    (new.registry other).hierarchy.find? token = some trait := by
  rcases hchange.hierarchy other with hsame | ⟨key, policy, hhierarchy, -⟩
  · rw [hsame]
    exact hfind
  · rw [hhierarchy]
    exact Hierarchy.find?_define _ _ _ _ _ _ hfind

/-- Traits stay in their hierarchies. -/
theorem Change.mem_values {id other : RegistryId} {old new : Session}
    (hchange : Change id old new) {trait : Trait}
    (hmem : trait ∈ (old.registry other).hierarchy.traits.values) :
    trait ∈ (new.registry other).hierarchy.traits.values := by
  obtain ⟨token, hfind⟩ := (Table.mem_values_iff _ _).mp hmem
  exact (Table.mem_values_iff _ _).mpr ⟨token, hchange.find?_hierarchy hfind⟩

theorem Change.evolves_members {id other : RegistryId} {old new : Session}
    (hchange : Change id old new) :
    (old.registry other).members.Evolves (new.registry other).members := by
  rcases hchange.members other with hsame | ⟨_, _, _, _, _, haccepted⟩ | ⟨_, _, _, hnative⟩
  · rw [hsame]
    exact Members.Evolves.refl _
  · exact Members.evolves_implement haccepted
  · rw [hnative]
    exact Members.evolves_defineNative _ _ _ _

theorem Step.extends {old new : Session} (hstep : Step old new) : old.Extends new := by
  cases hstep with
  | declare key signature =>
      -- what traits declare is no part of what is kept
      exact .of_parts (Identities.Extends.refl _) (fun _ _ _ h => h) fun _ _ =>
        Target.Extends.refl _
  | change hchange =>
      refine .of_parts hchange.identities.extends (fun _ _ _ h => hchange.find?_hierarchy h) ?_
      exact fun _ identity => (hchange.evolves_members identity).extends

theorem Steps.extends {old new : Session} (hsteps : old.Steps new) : old.Extends new := by
  induction hsteps with
  | refl => exact Extends.refl old
  | tail _ hlast ih => exact ih.trans hlast.extends

theorem Develops.extends {old new : Session} {id : RegistryId} (hdevelops : old.Develops id new) :
    old.Extends new := hdevelops.grows.steps.1.extends

/-- What is registered for an identity stays so. -/
theorem Reaches.target_extends {old new : Session} (hreaches : old.Reaches new) (id : RegistryId)
    (identity : Token) : ((old.registry id).members.target identity).Extends
      ((new.registry id).members.target identity) :=
  hreaches.steps.extends.targets id identity

/-- **Nothing is ever lost**, whatever operations make of a session and whether they succeed. -/
theorem Reaches.keeps {old new : Session} (hreaches : old.Reaches new) : old.Extends new :=
  hreaches.steps.extends

/-- Prepares a unit value that has the area of a shape, and a member that registers more and then
fails. -/
def prepareGrowth : StateM Session Receiver := do
  let shape := Hierarchy.customKey "Shape"
  let solid := Hierarchy.customKey "Solid"
  declare shape ⟨[], [("area", none)]⟩
  declare solid ⟨[shape], [("volume", some (.untyped (.value .unit)))]⟩
  let unit ← identify .unit
  if let .ok trait ← define .shared shape then
    let overrides ← newOverrides [("area", .untyped (.value .unit))]
    let _ ← implement .shared unit trait overrides
  let grow ← newMethod <| .untyped <| .sequence
    [.implement solid .unit [], .defineNative .unit "area" (.untyped (.fail "covered")),
      .fail "stopped"]
  defineNative .shared unit "grow" grow
  return ⟨.unit, unit, .shared⟩

/-- The call fails, but what it registered stays.  The signatures are changed afterwards so that
they extend each other; the traits that are there stay and are answered all the same. -/
theorem keeps_growth :
    let old := (prepareGrowth (start [])).2
    let receiver := (prepareGrowth (start [])).1
    let grown := (Operation.call receiver "grow" []).run old
    let changed := Operation.declare (Hierarchy.customKey "Shape")
      ⟨[Hierarchy.customKey "Solid"], []⟩
    let new := (changed.run grown.2).2
    let traits := fun session : Session =>
      ((session.registry .shared).members.traitsOf receiver.identity).map Trait.name
    (grown.1 matches .error (.raised (.failure "stopped"))) = true ∧
      traits old = ["Shape"] ∧ traits new = ["Shape", "Solid"] ∧
        old.Reaches new ∧ old.Extends new := by
  intro old receiver grown changed new traits
  have hreaches : old.Reaches new :=
    ((Reaches.refl old).operation (.call receiver "grow" [])).operation changed
  exact ⟨by decide +kernel, by decide +kernel, by decide +kernel, hreaches, hreaches.keeps⟩

end TraitSystem.Session
