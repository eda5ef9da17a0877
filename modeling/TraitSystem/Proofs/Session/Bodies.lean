import TraitSystem.Proofs.Hierarchy.Declared
import TraitSystem.Proofs.Members.Bodies
import TraitSystem.Proofs.Session.Registrations

/-!
# Bodies in every session

An implementation that was accepted is there from then on, as it was built
(`implementation?_of_implementAs`).  So what its trait declares and what it was registered with can
be read off it in every later session (`composed_of_implementAs`), and counting its bodies tells
whether one is missing (`counted_of_reachable`).
-/

namespace TraitSystem.Session

theorem implementation?_of_implementAs {session new later : Session} {id : RegistryId}
    {identity : Token} {targetName : String} {trait : Trait} {overrides : Overrides}
    {completeness : Completeness}
    (hanswer : implementAs id identity targetName trait overrides completeness session =
      (.ok (), new)) (hlater : new.Reaches later) :
    ∃ implementation,
      Implementation.ofOverrides targetName trait overrides completeness = .ok implementation ∧
        (later.registry id).members.implementation? identity trait.identity =
          some implementation := by
  rcases session.implementAs_cases id identity targetName trait overrides completeness with
    ⟨_, hrefused⟩ | ⟨members, hmembers, haccepted⟩
  · cases hrefused.symm.trans hanswer
  · cases haccepted.symm.trans hanswer
    obtain ⟨implementation, hbuilt, -, htarget, -⟩ := Members.implement_eq_ok hmembers
    refine ⟨implementation, hbuilt, ?_⟩
    apply (hlater.target_extends id identity).implementations
    rw [registry_setRegistry_self]
    show (members.target identity).implementations.find? trait.identity = _
    rw [htarget, if_pos rfl, Target.implementations_register,
      Implementation.trait_ofOverrides hbuilt]
    exact Table.find?_insert_self _ _ _

theorem eq_ok_of_isOk {ε : Type} {answer : Except ε Unit × Session} (hok : answer.1.isOk) :
    answer = (.ok (), answer.2) := by
  obtain ⟨_ | _, session⟩ := answer
  · cases hok
  · rfl

/-- **The last override of a method counts, and else its last declaration.**  A trait that is
defined anew lists what its signature declares once each, in the order of the first declarations.
Whenever it is implemented, in whatever session, the implementation is composed of what the
signature declared and of the overrides, and stays so. -/
theorem composed_of_implementAs {hierarchy : Hierarchy} {identities : Identities}
    (hreachable : hierarchy.Reachable identities) (signatures : Signatures) (policy : CyclePolicy)
    (key : TraitKey) (nextSerial : Nat) :
    let defined := hierarchy.define signatures policy key identities nextSerial
    ∀ trait ∈ defined.hierarchy.traits.values, trait ∉ hierarchy.traits.values →
      ∃ declaring serial, defined.identities.Identifies trait.identity declaring ∧
        let declarations := (signatures.get declaring).numbered serial
        trait.methods.keys = (declarations.map Prod.fst).eraseDups ∧
        ∀ (id : RegistryId) (identity : Token) (targetName : String)
            (overrides : List (String × Method)) (completeness : Completeness)
            (session new later : Session),
          implementAs id identity targetName trait (Table.ofList overrides) completeness session =
              (.ok (), new) → new.Reaches later →
            ∃ implementation,
              (later.registry id).members.implementation? identity trait.identity =
                some implementation ∧
              implementation.trait = trait ∧
                implementation.ComposedOf declarations overrides := by
  intro defined trait htrait hnew
  obtain ⟨declaring, serial, hidentity, hmethods⟩ :=
    hreachable.declared_of_new signatures policy key nextSerial trait htrait hnew
  rw [Signature.methods_eq_ofList] at hmethods
  refine ⟨declaring, serial, hidentity, ?_, ?_⟩
  · rw [hmethods, Table.keys_ofList]
  · intro id identity targetName overrides completeness session new later hanswer hlater
    obtain ⟨implementation, hbuilt, hfind⟩ := implementation?_of_implementAs hanswer hlater
    exact ⟨implementation, hfind, Implementation.trait_ofOverrides hbuilt,
      Implementation.composedOf_of_ofOverrides hmethods hbuilt⟩

/-- A trait that names its methods again and again.  The second time `area` has no default any more,
while `edge` gets one and `name` another one. -/
def repeating : Signatures where
  custom := Table.ofList [(Hierarchy.customKey "Shape", ⟨[],
    [("area", some (.untyped (.value .unit))), ("edge", none), ("area", none),
      ("name", some (.untyped (.fail "first"))), ("edge", some (.untyped (.fail "edge"))),
      ("name", some (.untyped (.fail "last")))]⟩)]

/-- An override repeats itself, another one takes the place of a default, and the third method keeps
its last default. -/
theorem composed_of_implementAs_repeating :
    let key := Hierarchy.customKey "Shape"
    let defined := Hierarchy.empty.define repeating .reject key .empty 0
    let stub : Body := .untyped (.value .unit)
    let overrides : List (String × Method) := [("area", ⟨70, stub⟩), ("edge", ⟨71, stub⟩),
      ("area", ⟨72, stub⟩)]
    ∃ trait ∈ defined.hierarchy.traits.values, trait.methods.keys = ["area", "edge", "name"] ∧
      ∃ new, implementAs .shared ⟨1⟩ "unit" trait (Table.ofList overrides) .atRegistration
          (start []) = (.ok (), new) ∧
        ∃ serial implementation,
          (new.registry .shared).members.implementation? ⟨1⟩ trait.identity =
            some implementation ∧
          implementation.ComposedOf ((repeating.get key).numbered serial) overrides ∧
          implementation.names.map (fun name => (name, (implementation.body? name).map
            Method.serial)) = [("area", some 72), ("edge", some 71), ("name", some 5)] := by
  intro key defined stub overrides
  have hreachable : Hierarchy.empty.Reachable .empty := .empty (Identities.Evolves.refl _)
  have hdefined := hreachable.define repeating .reject key 0
  let answer (trait : Trait) := implementAs .shared ⟨1⟩ "unit" trait (Table.ofList overrides)
    .atRegistration (start [])
  obtain ⟨trait, htrait, hkeys, htoken, haccepted, hshown⟩ :
      ∃ trait ∈ defined.hierarchy.traits.values, trait.methods.keys = ["area", "edge", "name"] ∧
        defined.identities.find? (.type (.trait key)) = some trait.identity ∧
        (answer trait).1.isOk ∧
        (((answer trait).2.registry .shared).members.implementation? ⟨1⟩ trait.identity).map
          (fun implementation => implementation.names.map fun name =>
            (name, (implementation.body? name).map Method.serial)) =
          some [("area", some 72), ("edge", some 71), ("name", some 5)] := by
    decide +kernel
  obtain ⟨declaring, serial, hidentity, -, hcomposed⟩ := composed_of_implementAs hreachable
    repeating .reject key 0 trait htrait List.not_mem_nil
  obtain rfl : declaring = key := hdefined.identities_wellFormed.biUnique.2 hidentity htoken
  have hanswer := eq_ok_of_isOk haccepted
  obtain ⟨implementation, hfind, -, hcomposed⟩ :=
    hcomposed .shared ⟨1⟩ "unit" overrides .atRegistration _ _ _ hanswer (Reaches.refl _)
  rw [hfind] at hshown
  exact ⟨trait, htrait, hkeys, _, hanswer, serial, implementation, hfind, hcomposed,
    Option.some_inj.mp hshown⟩

/-- **Counting bodies tells whether one is missing**, in every implementation of every session.  As
many bodies are counted as methods are listed, and what was accepted as complete is complete, from
then on. -/
theorem counted_of_reachable {session : Session} (hreachable : session.Reachable)
    (id : RegistryId) :
    (∀ identity token implementation,
        (session.registry id).members.implementation? identity token = some implementation →
          (implementation.isComplete ↔ ∀ method, implementation.trait.declares method →
            (implementation.body? method).isSome) ∧
          implementation.size = implementation.names.length ∧
          ∀ overrides, Registration.implementation identity implementation.trait overrides
              .atRegistration ∈ (session.registry id).members.history →
            implementation.isComplete) ∧
      ∀ identity targetName trait overrides new later,
        implementAs id identity targetName trait overrides .atRegistration session =
            (.ok (), new) → new.Reaches later →
          ∃ implementation, (later.registry id).members.implementation? identity trait.identity =
              some implementation ∧ implementation.trait = trait ∧ implementation.isComplete := by
  have hmembers := hreachable.members id
  refine ⟨?_, ?_⟩
  · intro identity token implementation hfind
    have honly := hmembers.onlyDeclared hfind
    refine ⟨Implementation.isComplete_iff honly, Implementation.size_eq_length_names honly, ?_⟩
    intro overrides hmem
    rw [← ((hmembers.parentFirst identity).own token implementation hfind).1] at hfind
    exact hmembers.isComplete_of_mem_history hmem hfind
  · intro identity targetName trait overrides new later hanswer hlater
    obtain ⟨implementation, hbuilt, hfind⟩ := implementation?_of_implementAs hanswer hlater
    have htrait := Implementation.trait_ofOverrides hbuilt
    refine ⟨implementation, hfind, htrait, ?_⟩
    rw [Implementation.isComplete_iff (Implementation.onlyDeclared_of_ofOverrides hbuilt), htrait]
    exact fun method => Implementation.isSome_body?_of_atRegistration hbuilt

/-- One type gets the body that it has to give.  Another one is let off giving it, and two bodies
for three methods are found to be too few. -/
theorem counted_of_reachable_partly :
    let key := Hierarchy.customKey "Shape"
    let area : Overrides := Table.ofList [("area", ⟨70, .untyped (.value .unit)⟩)]
    let name : Overrides := Table.ofList [("name", ⟨71, .untyped (.value .unit)⟩)]
    let defined := ((start []).after (.declare key (repeating.get key))).after (.define .shared key)
    ∃ trait ∈ (defined.registry .shared).hierarchy.traits.values, ∃ first second : Session,
      implementAs .shared ⟨1⟩ "unit" trait area .atRegistration defined = (.ok (), first) ∧
        implementAs .shared ⟨2⟩ "bool" trait name .atFirstCall first = (.ok (), second) ∧
        ∃ whole part,
          (second.registry .shared).members.implementation? ⟨1⟩ trait.identity = some whole ∧
          (second.registry .shared).members.implementation? ⟨2⟩ trait.identity = some part ∧
          whole.isComplete ∧ part.size = 2 ∧ part.size = part.names.length ∧
            ¬ ∀ method, part.trait.declares method → (part.body? method).isSome := by
  intro key area name defined
  have hdefined : defined.Reachable := ((reachable_start []).after _).after _
  let first (trait : Trait) := implementAs .shared ⟨1⟩ "unit" trait area .atRegistration defined
  let second (trait : Trait) :=
    implementAs .shared ⟨2⟩ "bool" trait name .atFirstCall (first trait).2
  obtain ⟨trait, htrait, hfirst, hsecond, hshown⟩ :
      ∃ trait ∈ (defined.registry .shared).hierarchy.traits.values, (first trait).1.isOk ∧
        (second trait).1.isOk ∧
        (((second trait).2.registry .shared).members.implementation? ⟨2⟩ trait.identity).map
          (fun part => (part.size, part.isComplete)) = some (2, false) := by
    decide +kernel
  have hfirst := eq_ok_of_isOk hfirst
  have hsecond := eq_ok_of_isOk hsecond
  have hbefore : (first trait).2.Reachable :=
    hdefined.after (.implementAs .shared ⟨1⟩ "unit" trait area .atRegistration)
  have hafter : (second trait).2.Reachable :=
    hbefore.after (.implementAs .shared ⟨2⟩ "bool" trait name .atFirstCall)
  obtain ⟨part, hpart, hcounts⟩ := Option.map_eq_some_iff.mp hshown
  obtain ⟨hsize, hincomplete⟩ := Prod.mk.inj hcounts
  have hlater : (first trait).2.Reaches (second trait).2 :=
    (Reaches.refl _).operation (.implementAs .shared ⟨2⟩ "bool" trait name .atFirstCall)
  obtain ⟨whole, hwhole, -, hcomplete⟩ :=
    (counted_of_reachable hdefined .shared).2 _ _ _ _ _ _ hfirst hlater
  obtain ⟨hcounted, hlength, -⟩ :=
    (counted_of_reachable hafter .shared).1 ⟨2⟩ trait.identity part hpart
  refine ⟨trait, htrait, _, _, hfirst, hsecond, whole, part, hwhole, hpart, hcomplete, hsize,
    hlength, ?_⟩
  rw [← hcounted, hincomplete]
  exact Bool.false_ne_true

end TraitSystem.Session
