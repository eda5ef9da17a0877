import TraitSystem.Proofs.Members.Coherence
import TraitSystem.Proofs.Members.Resolution
import TraitSystem.Proofs.Session.Permanence

/-!
# What is registered in a session

What holds of all members that registrations can make holds in every registry of every session
there can be: what a name stands for follows from what was registered
(`member?_eq_of_reachable`), and the ancestors of a trait are implemented before it
(`parentFirst_of_reachable`).

Registrations ask for ancestors by identity, and a trait may come from another registry, where the
trait of the same identity has other ancestors.  That a registry's own traits are implemented
together with their own ancestors needs that no foreign trait was implemented
(`Registry.ImplementsOwn`).
-/

namespace TraitSystem

/-! ## Registries that implement their own traits -/

/-- Every trait that was implemented is one of the registry's own. -/
def Registry.ImplementsOwn (registry : Registry) : Prop :=
  ∀ identity trait overrides completeness,
    Registration.implementation identity trait overrides completeness ∈ registry.members.history →
      trait ∈ registry.hierarchy.traits.values

/-- What a name stands for, as text. -/
def Member.shown : Member → String
  | native method => "native " ++ toString method.serial
  | forward trait => trait.name

namespace Session

variable {session : Session}

theorem implementsOwn_define {id : RegistryId} (hown : (session.registry id).ImplementsOwn)
    (key : TraitKey) : ((define id key session).2.registry id).ImplementsOwn := by
  intro identity trait overrides completeness hmem
  have hmembers : ((define id key session).2.registry id).members =
      (session.registry id).members := by
    show ((setRegistry _ id _).registry id).members = _
    rw [registry_setRegistry_self]
  rw [hmembers] at hmem
  have hchange := @Change.define id session key (session.registry id).options.cycles
  exact hchange.mem_values (hown _ _ _ _ hmem)

theorem implementsOwn_implementAs {id : RegistryId} (hown : (session.registry id).ImplementsOwn)
    {trait : Trait} (htrait : trait ∈ (session.registry id).hierarchy.traits.values)
    (identity : Token) (targetName : String) (overrides : Overrides)
    (completeness : Completeness) :
    ((implementAs id identity targetName trait overrides completeness session).2.registry
      id).ImplementsOwn := by
  rcases session.implementAs_cases id identity targetName trait overrides completeness with
    ⟨_, hrefused⟩ | ⟨members, hmembers, haccepted⟩
  · rw [hrefused]
    exact hown
  · obtain ⟨_, -, -, -, hhistory⟩ := Members.implement_eq_ok hmembers
    rw [haccepted, registry_setRegistry_self]
    intro other known _ _ hmem
    change _ ∈ members.history at hmem
    rw [hhistory, List.mem_append, List.mem_singleton] at hmem
    rcases hmem with hold | hnew
    · exact hown _ _ _ _ hold
    · cases hnew
      exact htrait

/-! ## Sessions to look at -/

/-- The session after an operation. -/
def after {α : Type} (session : Session) (operation : Operation α) : Session :=
  (operation.run session).2

theorem reachable_start (options : List Options) : (start options).Reachable :=
  ⟨options, Reaches.refl _⟩

theorem Reachable.after (hreachable : session.Reachable) {α : Type} (operation : Operation α) :
    (session.after operation).Reachable := by
  obtain ⟨options, hreaches⟩ := hreachable
  exact ⟨options, hreaches.operation operation⟩

/-- Defines a trait in one registry and implements it in another by its default bodies. -/
def adopt (session : Session) (source id : RegistryId) (key : TraitKey) (identity : Token) :
    Session :=
  match (Operation.define source key).run session with
  | (.error _, defined) => defined
  | (.ok trait, defined) =>
    defined.after (.implementAs id identity "unit" trait ∅ .atFirstCall)

theorem Reachable.adopt (hreachable : session.Reachable) (source id : RegistryId) (key : TraitKey)
    (identity : Token) : (session.adopt source id key identity).Reachable := by
  have hdefined := hreachable.after (.define source key)
  unfold Session.adopt
  cases hanswer : (Operation.define source key).run session with
  | mk answer defined =>
      unfold Session.after at hdefined
      rw [hanswer] at hdefined
      cases answer with
      | error error => exact hdefined
      | ok trait => exact hdefined.after _

/-- A registry that adopts its own traits keeps to them. -/
theorem implementsOwn_adopt {id : RegistryId} (hown : (session.registry id).ImplementsOwn)
    (key : TraitKey) (identity : Token) :
    ((session.adopt id id key identity).registry id).ImplementsOwn := by
  have hdefined := implementsOwn_define hown key
  have hmem := @mem_values_define id session key
  unfold Session.adopt
  change ((match define id key session with
    | (.error _, defined) => defined
    | (.ok trait, defined) => _).registry id).ImplementsOwn
  cases hanswer : define id key session with
  | mk answer defined =>
      rw [hanswer] at hdefined hmem
      cases answer with
      | error error => exact hdefined
      | ok trait => exact implementsOwn_implementAs hdefined (hmem rfl) _ _ _ _

/-! ## Names and parents in every session -/

/-- **What a name stands for follows from what was registered.**  It is the native that was defined
last, and else the first implemented trait that declares the name. -/
theorem member?_eq_of_reachable (hreachable : session.Reachable) (id : RegistryId)
    (identity : Token) (name : String) :
    (session.registry id).members.member? identity name =
      ((Members.latestNative? (session.registry id).members.history identity name).map
        Member.native).or
        ((((session.registry id).members.traitsOf identity).find? fun trait =>
          trait.declares name).map Member.forward) :=
  (hreachable.members id).member?_eq identity name

/-- A session in which two traits share the name `area`, one of them from another registry, a native
comes before the trait with a method of its name and is defined anew, and a method body registers a
trait and natives and then fails. -/
def mixed : Session :=
  let unit : Token := ⟨1⟩
  let figure := Hierarchy.customKey "Figure"
  let shape := Hierarchy.customKey "Shape"
  let solid := Hierarchy.customKey "Solid"
  let stub : Body := .untyped (.value .unit)
  let grow : Body := .untyped <| .sequence
    [.implement solid .unit [], .defineNative .unit "grow" stub, .fail "stopped"]
  let declared := (((start []).after (.identify .unit)).after
    (.declare figure ⟨[], [("area", none), ("edge", none)]⟩)).after
    (.declare shape ⟨[], [("area", none)]⟩) |>.after
    (.declare solid ⟨[shape], [("edge", some stub), ("volume", some stub)]⟩)
  let implemented := ((declared.after (.defineNative .shared unit "edge" ⟨70, stub⟩)).adopt
    (.numbered 0) .shared figure unit).adopt .shared .shared shape unit
  ((implemented.after (.defineNative .shared unit "edge" ⟨71, stub⟩)).after
    (.defineNative .shared unit "grow" ⟨72, grow⟩)).after
    (.call ⟨.unit, unit, .shared⟩ "grow" [])

/-- The names of the session lead where its registrations say. -/
theorem member?_eq_mixed :
    let members := (mixed.registry .shared).members
    ["area", "edge", "volume", "grow", "size"].map
        (fun name => (members.member? ⟨1⟩ name).map Member.shown) =
      [some "Figure", some "native 71", some "Solid", some "native 8", none] ∧
      mixed.Reachable ∧ ∀ name, members.member? ⟨1⟩ name =
        ((Members.latestNative? members.history ⟨1⟩ name).map Member.native).or
          (((members.traitsOf ⟨1⟩).find? fun trait => trait.declares name).map Member.forward) := by
  intro members
  have hreachable : mixed.Reachable := by
    iterate 3 refine Reachable.after ?_ _
    iterate 2 refine Reachable.adopt ?_ _ _ _ _
    iterate 5 refine Reachable.after ?_ _
    exact reachable_start []
  refine ⟨by decide +kernel, hreachable, ?_⟩
  exact fun name => member?_eq_of_reachable hreachable .shared ⟨1⟩ name

/-- **Parents come first.**  The ancestors of an implemented trait are implemented, and were before
it.  In a registry that implements its own traits, this holds of the ancestors that each of these
traits has there. -/
theorem parentFirst_of_reachable (hreachable : session.Reachable) (id : RegistryId) :
    (∀ identity, (session.registry id).members.ParentFirst identity) ∧
      ((session.registry id).ImplementsOwn →
        ∀ identity, ∀ trait ∈ (session.registry id).hierarchy.traits.values,
          (session.registry id).members.contains identity trait.identity →
            ∀ ancestor ∈ trait.ancestors,
              (session.registry id).members.contains identity ancestor.identity) := by
  have hparents := (hreachable.members id).parentFirst
  refine ⟨hparents, ?_⟩
  intro hown identity trait htrait hcontains ancestor hancestor
  have hlookup := (hreachable.hierarchy id).wellFormedLookup
  obtain ⟨implementation, hfind⟩ := Option.isSome_iff_exists.mp hcontains
  obtain ⟨overrides, completeness, hmem⟩ := (hreachable.members id).mem_history hfind
  -- the implemented trait has the same identity and is in the same hierarchy
  have hsame : implementation.trait = trait := by
    have hidentity := ((hparents identity).own _ _ hfind).1
    have hfirst := Hierarchy.find?_identity_of_mem hlookup (hown _ _ _ _ hmem)
    have hsecond := Hierarchy.find?_identity_of_mem hlookup htrait
    rw [hidentity, hsecond] at hfirst
    exact (Option.some_inj.mp hfirst).symm
  rw [← hsame] at hancestor
  exact (hparents identity).implemented _ _ hfind ancestor hancestor

/-- A session in which a trait is declared that extends another. -/
def declared : Session :=
  ((start []).after (.identify .unit)).after
    (.declare (Hierarchy.customKey "Solid") ⟨[Hierarchy.customKey "Shape"], []⟩)

/-- The trait is implemented for one type after what it extends, and is refused for another type
that does not implement what it extends. -/
def layered : Session :=
  ((declared.adopt .shared .shared (Hierarchy.customKey "Shape") ⟨1⟩).adopt
    .shared .shared (Hierarchy.customKey "Solid") ⟨1⟩).adopt
    .shared .shared (Hierarchy.customKey "Solid") ⟨2⟩

theorem parentFirst_layered :
    let registry := layered.registry .shared
    [1, 2].map (fun raw => (registry.members.traitsOf ⟨raw⟩).map Trait.name) =
        [["Shape", "Solid"], []] ∧
      layered.Reachable ∧ registry.ImplementsOwn ∧
        (∀ identity, registry.members.ParentFirst identity) ∧
          ∀ identity, ∀ trait ∈ registry.hierarchy.traits.values,
            registry.members.contains identity trait.identity → ∀ ancestor ∈ trait.ancestors,
              registry.members.contains identity ancestor.identity := by
  intro registry
  have hdeclared : declared.Reachable := ((reachable_start []).after _).after _
  have hempty : (declared.registry .shared).ImplementsOwn := by
    intro _ _ _ _ hmem
    cases hmem
  have hshape := hdeclared.adopt .shared .shared (Hierarchy.customKey "Shape") ⟨1⟩
  have hshapeOwn := implementsOwn_adopt hempty (Hierarchy.customKey "Shape") ⟨1⟩
  have hsolid := hshape.adopt .shared .shared (Hierarchy.customKey "Solid") ⟨1⟩
  have hsolidOwn := implementsOwn_adopt hshapeOwn (Hierarchy.customKey "Solid") ⟨1⟩
  have hreachable : layered.Reachable := hsolid.adopt .shared .shared _ ⟨2⟩
  have hown : registry.ImplementsOwn := implementsOwn_adopt hsolidOwn _ ⟨2⟩
  obtain ⟨hparents, hancestors⟩ := parentFirst_of_reachable hreachable .shared
  exact ⟨by decide +kernel, hreachable, hown, hparents, hancestors hown⟩

end Session

end TraitSystem
