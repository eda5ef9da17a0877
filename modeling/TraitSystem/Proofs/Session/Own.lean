import TraitSystem.Proofs.Session.Registrations

/-!
# Registries that keep to their own traits

What is implemented in a registry are its own traits, unless an operation is given a foreign one:
method bodies and the standard traits go through the registry's own hierarchy.  So a registry that
is given none but its own traits implements none but its own (`KeepsOwn.implementsOwn`).

In such a registry a target can speak of its traits by identity.  The trait that the hierarchy has
under the identity is the one that was implemented (`Reachable.mem_traitsOf_iff`), and so are the
traits that it extends (`Reachable.mem_traitsOf_of_ancestor`).
-/

namespace TraitSystem

variable {id other : RegistryId}

theorem Registry.implementsOwn_iff {registry : Registry} :
    registry.ImplementsOwn ↔ ∀ trait, registry.members.Registers trait →
      trait ∈ registry.hierarchy.traits.values := by
  constructor
  · rintro hown trait ⟨identity, overrides, completeness, hmem⟩
    exact hown identity trait overrides completeness hmem
  · intro hown identity trait overrides completeness hmem
    exact hown trait ⟨identity, overrides, completeness, hmem⟩

namespace Session

variable {session old new : Session}

/-! ## Steps and runs -/

theorem OwnChange.implementsOwn (hchange : OwnChange other old new)
    (hown : (old.registry id).ImplementsOwn) : (new.registry id).ImplementsOwn := by
  rw [Registry.implementsOwn_iff] at hown ⊢
  intro trait hregisters
  rcases hchange.own id trait hregisters with hbefore | hmem
  · exact hchange.change.mem_values (hown trait hbefore)
  · exact hmem

theorem Develops.implementsOwn (hdevelops : old.Develops other new)
    (hown : (old.registry id).ImplementsOwn) : (new.registry id).ImplementsOwn := by
  induction hdevelops with
  | refl => exact hown
  | tail _ hchange ih => exact hchange.implementsOwn ih

/-- Implementing a trait in another registry does not matter, whichever trait it is. -/
theorem implementsOwn_implementAs_of_imp (hown : (session.registry id).ImplementsOwn)
    {trait : Trait}
    (htrait : other = id → trait ∈ (session.registry id).hierarchy.traits.values)
    (identity : Token) (targetName : String) (overrides : Overrides)
    (completeness : Completeness) :
    ((implementAs other identity targetName trait overrides completeness session).2.registry
      id).ImplementsOwn := by
  by_cases hother : other = id
  · subst hother
    exact implementsOwn_implementAs hown (htrait rfl) identity targetName overrides completeness
  · rcases session.implementAs_cases other identity targetName trait overrides completeness with
      ⟨_, hrefused⟩ | ⟨members, -, haccepted⟩
    · rw [hrefused]
      exact hown
    · rw [haccepted, registry_setRegistry_of_ne _ _ (Ne.symm hother)]
      exact hown

end Session

/-- Where an operation is given a trait to implement in a registry, it is one of the registry's
own. -/
def Operation.PassesOwn {α : Type} (id : RegistryId) (session : Session) : Operation α → Prop
  | .implement other _ trait _ =>
    other = id → trait ∈ (session.registry id).hierarchy.traits.values
  | .implementAs other _ _ trait _ _ =>
    other = id → trait ∈ (session.registry id).hierarchy.traits.values
  | _ => True

theorem Operation.implementsOwn_run {α : Type} {operation : Operation α} {session : Session}
    (hpasses : operation.PassesOwn id session) (hown : (session.registry id).ImplementsOwn) :
    ((operation.run session).2.registry id).ImplementsOwn := by
  by_cases hplain : operation.Plain
  · obtain ⟨_, hdevelops⟩ := Operation.exists_develops_run hplain session
    exact hdevelops.implementsOwn hown
  cases operation with
  | identifyGeneric type args => exact hown
  | instantiate base args => exact hown
  | declare key signature => exact hown
  | implement other identity trait overrides =>
      exact Session.implementsOwn_implementAs_of_imp hown hpasses identity _ overrides _
  | implementAs other identity targetName trait overrides completeness =>
      exact Session.implementsOwn_implementAs_of_imp hown hpasses identity _ overrides _
  | _ => exact absurd trivial hplain

namespace Session

variable {session old new : Session}

/-- The sessions that lie ahead of a session as long as a registry is given none but its own traits,
with those in the middle of a call. -/
inductive KeepsOwn (id : RegistryId) : Session → Session → Prop
  | refl (session : Session) : KeepsOwn id session session
  | operation {old session : Session} (hkeeps : KeepsOwn id old session) {α : Type}
      {operation : Operation α} (hpasses : operation.PassesOwn id session) :
      KeepsOwn id old (operation.run session).2
  | change {old session new : Session} (hkeeps : KeepsOwn id old session) {other : RegistryId}
      (hchange : OwnChange other session new) : KeepsOwn id old new

theorem KeepsOwn.reaches (hkeeps : old.KeepsOwn id new) : old.Reaches new := by
  induction hkeeps with
  | refl => exact Reaches.refl old
  | operation _ _ ih => exact ih.operation _
  | change _ hchange ih => exact ih.change hchange.change

theorem KeepsOwn.after (hkeeps : old.KeepsOwn id session) {α : Type} (operation : Operation α)
    (hpasses : operation.PassesOwn id session) : old.KeepsOwn id (session.after operation) :=
  hkeeps.operation hpasses

/-- **A registry that is given none but its own traits implements none but its own.** -/
theorem KeepsOwn.implementsOwn (hkeeps : old.KeepsOwn id new)
    (hown : (old.registry id).ImplementsOwn) : (new.registry id).ImplementsOwn := by
  induction hkeeps with
  | refl => exact hown
  | operation _ hpasses ih => exact Operation.implementsOwn_run hpasses ih
  | change _ hchange ih => exact hchange.implementsOwn ih

theorem implementsOwn_start (options : List Options) (id : RegistryId) :
    ((start options).registry id).ImplementsOwn := by
  intro identity trait overrides completeness hmem
  rw [members_start] at hmem
  cases hmem

/-! ## The traits of a target -/

namespace Reachable

variable {identity : Token} {trait ancestor : Trait}

/-- The implemented traits are those of the hierarchy that are implemented by identity. -/
theorem mem_traitsOf_iff (hreachable : session.Reachable)
    (hown : (session.registry id).ImplementsOwn) :
    trait ∈ (session.registry id).members.traitsOf identity ↔
      trait ∈ (session.registry id).hierarchy.traits.values ∧
        (session.registry id).members.contains identity trait.identity := by
  have hmembers := hreachable.members id
  have hlookup := (hreachable.hierarchy id).wellFormedLookup
  rw [hmembers.mem_traitsOf_iff]
  have hvalues {implementation : Implementation} {token : Token}
      (hfind : (session.registry id).members.implementation? identity token =
        some implementation) :
      implementation.trait ∈ (session.registry id).hierarchy.traits.values := by
    obtain ⟨overrides, completeness, hmem⟩ := hmembers.mem_history hfind
    exact hown _ _ _ _ hmem
  constructor
  · rintro ⟨implementation, hfind, rfl⟩
    exact ⟨hvalues hfind, Option.isSome_iff_exists.mpr ⟨implementation, hfind⟩⟩
  · rintro ⟨hmem, hcontains⟩
    obtain ⟨implementation, hfind⟩ := Option.isSome_iff_exists.mp hcontains
    refine ⟨implementation, hfind, ?_⟩
    -- both traits are what the hierarchy has under the identity
    have hidentity := ((hmembers.parentFirst identity).own _ _ hfind).1
    have hstored := Hierarchy.find?_identity_of_mem hlookup (hvalues hfind)
    rw [hidentity, Hierarchy.find?_identity_of_mem hlookup hmem] at hstored
    exact (Option.some_inj.mp hstored).symm

/-- What extends other traits is implemented together with these. -/
theorem mem_traitsOf_of_ancestor (hreachable : session.Reachable)
    (hown : (session.registry id).ImplementsOwn)
    (htrait : trait ∈ (session.registry id).members.traitsOf identity)
    (hancestor : ancestor ∈ trait.ancestors) :
    ancestor ∈ (session.registry id).members.traitsOf identity := by
  have hlookup := (hreachable.hierarchy id).wellFormedLookup
  have hmem := ((hreachable.mem_traitsOf_iff hown).mp htrait).1
  have hshared := (hlookup.wellFormed _ _
    (Hierarchy.find?_identity_of_mem hlookup hmem)).shared ancestor hancestor
  obtain ⟨implementation, hfind, rfl⟩ := ((hreachable.members id).mem_traitsOf_iff).mp htrait
  refine (hreachable.mem_traitsOf_iff hown).mpr ⟨?_, ?_⟩
  · exact (Table.mem_values_iff _ _).mpr ⟨ancestor.identity, hshared⟩
  · exact ((hreachable.members id).parentFirst identity).implemented _ _ hfind ancestor hancestor

end Reachable

end Session

end TraitSystem
