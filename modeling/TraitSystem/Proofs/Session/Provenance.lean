import TraitSystem.Proofs.Hierarchy.Naming
import TraitSystem.Proofs.Session.Permanence

/-!
# Where implemented traits come from

An operation may implement a trait that some other registry made, and method bodies implement traits
of their own registry.  So unless an operation is given a trait that is made up
(`Session.Unfolds`), every trait that is implemented anywhere was made by a definition
(`Sourced.unfolds`).  What is known of such traits, say that their identity determines their name,
then holds of all traits that a look-up can lead to.

## Strategy

Operations that are given no trait to implement consist of changes that keep to the traits of the
registry, and these were made by the definitions of its hierarchy.  The others are looked at one by
one.
-/

namespace TraitSystem

/-- A trait that an operation is given to implement was made by a definition. -/
def Operation.PassesMade {α : Type} (ids : Identities) : Operation α → Prop
  | .implement _ _ trait _ => trait.Made ids
  | .implementAs _ _ _ trait _ _ => trait.Made ids
  | _ => True

namespace Session

variable {old session new : Session}

/-- The sessions that lie ahead of a session as long as no trait is made up, with those in the
middle of a call. -/
inductive Unfolds : Session → Session → Prop
  | refl (session : Session) : Unfolds session session
  | operation {old session : Session} (hunfolds : Unfolds old session) {α : Type}
      {operation : Operation α} (hmade : operation.PassesMade session.identities) :
      Unfolds old (operation.run session).2
  | change {old session new : Session} (hunfolds : Unfolds old session) {id : RegistryId}
      (hchange : OwnChange id session new) : Unfolds old new

namespace Unfolds

theorem trans (hfirst : old.Unfolds session) (hsecond : session.Unfolds new) :
    old.Unfolds new := by
  induction hsecond with
  | refl => exact hfirst
  | operation _ hmade ih => exact ih.operation hmade
  | change _ hchange ih => exact ih.change hchange

theorem reaches (hunfolds : old.Unfolds new) : old.Reaches new := by
  induction hunfolds with
  | refl => exact Reaches.refl old
  | operation _ _ ih => exact ih.operation _
  | change _ hchange ih => exact ih.change hchange.change

theorem identities (hunfolds : old.Unfolds new) : old.identities.Evolves new.identities := by
  have hsteps := hunfolds.reaches.steps
  clear hunfolds
  induction hsteps with
  | refl => exact Identities.Evolves.refl _
  | tail _ hlast ih =>
      cases hlast with
      | declare key signature => exact ih
      | change hchange => exact ih.trans hchange.identities

/-- An implementation that was there is there for good. -/
theorem implementation? (hunfolds : old.Unfolds new) {id : RegistryId} {identity token : Token}
    {implementation : Implementation}
    (hfind : (old.registry id).members.implementation? identity token = some implementation) :
    (new.registry id).members.implementation? identity token = some implementation :=
  (hunfolds.reaches.target_extends id identity).implementations token _ hfind

end Unfolds

/-! ## Sessions without made-up traits -/

/-- All traits, those of the hierarchies and those that were implemented, come from definitions. -/
structure Sourced (session : Session) : Prop where
  hierarchy : ∀ id, (session.registry id).hierarchy.Reachable session.identities
  made : ∀ id trait, (session.registry id).members.Registers trait →
    trait.Made session.identities

theorem sourced_start (options : List Options) : (start options).Sourced := by
  refine ⟨?_, ?_⟩
  · intro id
    rw [hierarchy_start]
    exact Hierarchy.Reachable.empty (Identities.Evolves.refl _)
  · rintro id trait ⟨identity, overrides, completeness, hmem⟩
    rw [members_start] at hmem
    cases hmem

namespace Sourced

/-- A trait that a registry answers was made by a definition. -/
theorem made_define (hsourced : session.Sourced) {id : RegistryId} {key : TraitKey} {trait : Trait}
    (hanswer : (define id key session).1 = .ok trait) :
    trait.Made (define id key session).2.identities := by
  have hstep : Step session (define id key session).2 := .change (.define session key _)
  exact ⟨_, hstep.hierarchy (hsourced.hierarchy id), mem_values_define hanswer⟩

theorem request (hsourced : session.Sourced) {identities : Identities}
    (hevolves : session.identities.Evolves identities) (nextSerial : Nat) :
    Sourced { session with identities, nextSerial } where
  hierarchy id := (hsourced.hierarchy id).evolve hevolves
  made id trait hregisters := (hsourced.made id trait hregisters).mono hevolves

theorem ownChange (hsourced : old.Sourced) {id : RegistryId} (hchange : OwnChange id old new) :
    new.Sourced := by
  have hhierarchy : ∀ other, (new.registry other).hierarchy.Reachable new.identities :=
    fun other => (Step.change hchange.change).hierarchy (hsourced.hierarchy other)
  refine ⟨hhierarchy, ?_⟩
  intro other trait hregisters
  rcases hchange.own other trait hregisters with hbefore | hmem
  · exact (hsourced.made other trait hbefore).mono hchange.change.identities
  · exact ⟨_, hhierarchy other, hmem⟩

theorem develops (hsourced : old.Sourced) {id : RegistryId} (hdevelops : old.Develops id new) :
    new.Sourced := by
  induction hdevelops with
  | refl => exact hsourced
  | tail _ hchange ih => exact ih.ownChange hchange

theorem implementAs (hsourced : session.Sourced) (id : RegistryId) (identity : Token)
    (targetName : String) {trait : Trait} (overrides : Overrides) (completeness : Completeness)
    (hmade : trait.Made session.identities) :
    (implementAs id identity targetName trait overrides completeness session).2.Sourced := by
  rcases session.implementAs_cases id identity targetName trait overrides completeness with
    ⟨_, hrefused⟩ | ⟨members, hmembers, haccepted⟩
  · rw [hrefused]
    exact hsourced
  · refine ⟨?_, ?_⟩
    · intro other
      rw [haccepted]
      exact (Step.change (.implement hmembers)).hierarchy (hsourced.hierarchy other)
    · intro other known hknown
      have hsource := session.registers_implementAs id hknown
      rw [haccepted]
      rcases hsource with hbefore | ⟨-, rfl⟩
      · exact hsourced.made other known hbefore
      · exact hmade

theorem run (hsourced : session.Sourced) {α : Type} {operation : Operation α}
    (hmade : operation.PassesMade session.identities) : (operation.run session).2.Sourced := by
  by_cases hplain : operation.Plain
  · obtain ⟨id, hdevelops⟩ := Operation.exists_develops_run hplain session
    exact hsourced.develops hdevelops
  cases operation with
  | identifyGeneric type args =>
      exact hsourced.request (Identities.evolves_ofGeneric _ type args) session.nextSerial
  | instantiate base args =>
      exact hsourced.request (Identities.evolves_instantiate _ base args) session.nextSerial
  | declare key signature => exact ⟨hsourced.hierarchy, hsourced.made⟩
  | implement id identity trait overrides =>
      exact hsourced.implementAs id identity _ overrides _ hmade
  | implementAs id identity targetName trait overrides completeness =>
      exact hsourced.implementAs id identity targetName overrides completeness hmade
  | _ => exact absurd trivial hplain

/-- **Every trait that is implemented was made by a definition**, as long as none is made up. -/
theorem unfolds (hsourced : old.Sourced) (hunfolds : old.Unfolds new) : new.Sourced := by
  induction hunfolds with
  | refl => exact hsourced
  | operation _ hmade ih => exact ih.run hmade
  | change _ hchange ih => exact ih.ownChange hchange

end Sourced

end Session

end TraitSystem
