import TraitSystem.Proofs.Hierarchy.Built
import TraitSystem.Proofs.Hierarchy.Declaring

/-!
# No trait shadows another

A trait is not built if it declares a method of one of its ancestors (`Lineage.conflict?`).  The
check is made once, against the ancestors as they are then, and once is enough: a trait keeps its
ancestors and they are never defined anew.  So of two traits of a hierarchy that declare the same
method neither extends the other (`Reachable.unrelated`).

Traits that do not extend each other may declare the same method, and another trait may extend them
all.  The last of them in its list of ancestors answers for the method
(`Trait.declaring?_eq_some_iff`), and none of the others extends it.
-/

namespace TraitSystem

/-! ## The last trait to declare a method -/

/-- A trait declares a method, and none of those after it in the list does. -/
def LastToDeclare (traits : List Trait) (method : String) (trait : Trait) : Prop :=
  trait.declares method ∧
    ∃ before after, traits = before ++ trait :: after ∧ NoneDeclares after method

theorem LastToDeclare.mem {traits : List Trait} {method : String} {trait : Trait}
    (hlast : LastToDeclare traits method trait) : trait ∈ traits := by
  obtain ⟨-, before, after, rfl, -⟩ := hlast
  exact List.mem_append_right _ List.mem_cons_self

theorem find?_reverse_eq_some_iff (traits : List Trait) (method : String) (trait : Trait) :
    (traits.reverse.find? fun trait => trait.declares method) = some trait ↔
      LastToDeclare traits method trait := by
  rw [List.find?_eq_some_iff_append]
  refine and_congr_right fun _ => ?_
  constructor
  · rintro ⟨after, before, hreverse, hnone⟩
    refine ⟨before.reverse, after.reverse, ?_, fun other hother => ?_⟩
    · rw [← List.reverse_reverse traits, hreverse]
      simp
    · simpa using hnone other (List.mem_reverse.mp hother)
  · rintro ⟨before, after, rfl, hnone⟩
    refine ⟨after.reverse, before.reverse, by simp, fun other hother => ?_⟩
    simpa using hnone other (List.mem_reverse.mp hother)

namespace Trait

variable {trait : Trait} {method : String}

theorem declaring?_of_declares (hdeclares : trait.declares method) :
    trait.declaring? method = some trait := if_pos hdeclares

/-- Of a method that the trait leaves to its ancestors the last one to declare it is in charge. -/
theorem declaring?_of_not_declares (hnot : ¬ trait.declares method) (found : Trait) :
    trait.declaring? method = some found ↔ LastToDeclare trait.ancestors method found := by
  rw [← find?_reverse_eq_some_iff, declaring?, if_neg hnot]

/-- The trait itself comes after all of its ancestors. -/
theorem declaring?_eq_some_iff (found : Trait) :
    trait.declaring? method = some found ↔
      LastToDeclare (trait.ancestors ++ [trait]) method found := by
  rw [← find?_reverse_eq_some_iff, List.reverse_append, List.reverse_singleton,
    List.singleton_append, List.find?_cons, declaring?]
  by_cases hdeclares : trait.declares method <;> simp [hdeclares]

theorem isSome_declaring?_iff (trait : Trait) (method : String) :
    (trait.declaring? method).isSome ↔
      ∃ member ∈ trait.ancestors ++ [trait], member.declares method := by
  constructor
  · intro hsome
    obtain ⟨found, hfound⟩ := Option.isSome_iff_exists.mp hsome
    have hlast := (declaring?_eq_some_iff found).mp hfound
    exact ⟨found, hlast.mem, hlast.1⟩
  · rintro ⟨member, hmember, hdeclares⟩
    by_cases hown : trait.declares method
    · rw [declaring?_of_declares hown]
      rfl
    · rw [declaring?, if_neg hown, List.find?_isSome]
      rcases List.mem_append.mp hmember with hancestor | hself
      · exact ⟨member, List.mem_reverse.mpr hancestor, hdeclares⟩
      · rw [List.mem_singleton.mp hself] at hdeclares
        exact absurd hdeclares hown

/-- A trait declares nothing that an ancestor of it declares. -/
def DeclaresAnew (trait : Trait) : Prop :=
  ∀ method, trait.declares method → NoneDeclares trait.ancestors method

/-- Neither of two traits extends the other. -/
def Unrelated (first second : Trait) : Prop :=
  ¬ first.hasAncestor second ∧ ¬ second.hasAncestor first

instance (first second : Trait) : Decidable (first.Unrelated second) :=
  inferInstanceAs (Decidable (_ ∧ _))

end Trait

/-! ## What a walk builds -/

theorem Lineage.noneDeclares_of_conflict? {lineage : Lineage} {methods : Declarations}
    (hnone : lineage.conflict? methods = none) {method : String}
    (hdeclared : methods.contains method) : NoneDeclares lineage.ancestors method := by
  have hmethod := List.findSome?_eq_none_iff.mp hnone method ((methods.mem_keys_iff _).mpr hdeclared)
  exact fun ancestor hancestor =>
    List.find?_eq_none.mp (Option.map_eq_none_iff.mp hmethod) ancestor hancestor

theorem Walk.ensures_declaresAnew (setting : Setting) :
    Ensures setting fun _ trait => trait.DeclaresAnew :=
  fun _ _ _ _ _ _ hconflict _ hdeclares => Lineage.noneDeclares_of_conflict? hconflict hdeclares

/-! ## Reachable hierarchies -/

namespace Hierarchy.Reachable

variable {hierarchy : Hierarchy} {identities : Identities}

theorem declaresAnew (hreachable : hierarchy.Reachable identities) {trait : Trait}
    (htrait : trait ∈ hierarchy.traits.values) : trait.DeclaresAnew := by
  have hall := hreachable.allKnown (fun _ _ _ hanew _ => hanew) Walk.ensures_declaresAnew
  exact hall _ _ (find?_identity_of_mem hreachable.wellFormedLookup htrait)

/-- The ancestors of a trait are in the hierarchy. -/
theorem mem_values_of_mem_ancestors (hreachable : hierarchy.Reachable identities)
    {trait ancestor : Trait} (htrait : trait ∈ hierarchy.traits.values)
    (hancestor : ancestor ∈ trait.ancestors) : ancestor ∈ hierarchy.traits.values := by
  have hlookup := hreachable.wellFormedLookup
  have hown := hlookup.wellFormed _ _ (find?_identity_of_mem hlookup htrait)
  exact (hierarchy.traits.mem_values_iff _).mpr ⟨_, hown.shared ancestor hancestor⟩

/-- A trait does not declare what a trait that it extends declares. -/
theorem not_hasAncestor (hreachable : hierarchy.Reachable identities) {first second : Trait}
    (hfirst : first ∈ hierarchy.traits.values) (hsecond : second ∈ hierarchy.traits.values)
    {method : String} (hdeclares : first.declares method) (hother : second.declares method) :
    ¬ first.hasAncestor second := by
  rw [hasAncestor_iff hreachable.wellFormedLookup hfirst hsecond]
  exact fun hmem => hreachable.declaresAnew hfirst method hdeclares second hmem hother

theorem unrelated (hreachable : hierarchy.Reachable identities) {first second : Trait}
    (hfirst : first ∈ hierarchy.traits.values) (hsecond : second ∈ hierarchy.traits.values)
    {method : String} (hdeclares : first.declares method) (hother : second.declares method) :
    first.Unrelated second :=
  ⟨hreachable.not_hasAncestor hfirst hsecond hdeclares hother,
    hreachable.not_hasAncestor hsecond hfirst hother hdeclares⟩

/-- **No trait shadows another**: of a trait and its ancestors, those that declare a method do not
extend each other.  The one in charge of the method is the trait itself if it declares the method,
and then no ancestor does; otherwise it is the last of the ancestors that do, and no trait of the
hierarchy that declares the method extends it. -/
theorem declaring?_unshadowed (hreachable : hierarchy.Reachable identities) {trait : Trait}
    (htrait : trait ∈ hierarchy.traits.values) (method : String) :
    (∀ first ∈ trait.ancestors ++ [trait], ∀ second ∈ trait.ancestors ++ [trait],
        first.declares method → second.declares method → first.Unrelated second) ∧
      ((trait.declaring? method).isSome ↔
        ∃ member ∈ trait.ancestors ++ [trait], member.declares method) ∧
      (trait.declares method →
        trait.declaring? method = some trait ∧ NoneDeclares trait.ancestors method) ∧
      (¬ trait.declares method → ∀ found,
        trait.declaring? method = some found ↔ LastToDeclare trait.ancestors method found) ∧
      ∀ found, trait.declaring? method = some found →
        ∀ other ∈ hierarchy.traits.values, other.declares method → ¬ other.hasAncestor found := by
  have hmembers : ∀ member ∈ trait.ancestors ++ [trait], member ∈ hierarchy.traits.values := by
    intro member hmember
    rcases List.mem_append.mp hmember with hancestor | hself
    · exact hreachable.mem_values_of_mem_ancestors htrait hancestor
    · rwa [List.mem_singleton.mp hself]
  refine ⟨?_, trait.isSome_declaring?_iff method, ?_, Trait.declaring?_of_not_declares, ?_⟩
  · intro first hfirst second hsecond
    exact hreachable.unrelated (hmembers first hfirst) (hmembers second hsecond)
  · intro hdeclares
    exact ⟨Trait.declaring?_of_declares hdeclares, hreachable.declaresAnew htrait method hdeclares⟩
  · -- what is found declares the method itself, and so is extended by no other trait that does
    intro found hfound other hother hdeclares
    have hlast := (Trait.declaring?_eq_some_iff found).mp hfound
    exact hreachable.not_hasAncestor hother (hmembers found hlast.mem) hdeclares hlast.1

end Hierarchy.Reachable

/-- `Left` and `Right` both declare a method.  They stand the other way round in the list of another
trait, where the other one answers.  `Bottom`, which they extend, is said to declare the method too,
but only when it has been defined. -/
theorem Hierarchy.declaring?_unshadowed_circle :
    let first := empty.define circle .truncate (customKey "Top") .empty 0
    let changed := (circle.declare (customKey "Bottom") ⟨[], [("side", none)]⟩).declare
      (customKey "Other") ⟨[customKey "Right", customKey "Top"], []⟩
    let second := first.hierarchy.define changed .reject (customKey "Other") first.identities
      first.nextSerial
    let values := second.hierarchy.traits.values
    second.hierarchy.Reachable second.identities ∧
      (values.map fun trait => (trait.name, (trait.declaring? "side").map Trait.name)) =
        [("Bottom", none), ("Left", some "Left"), ("Right", some "Right"), ("Top", some "Right"),
          ("Other", some "Left")] ∧
      ∃ other ∈ values, other.ancestors.map Trait.name = ["Bottom", "Right", "Left", "Top"] ∧
        (∀ first ∈ other.ancestors ++ [other], ∀ second ∈ other.ancestors ++ [other],
          first.declares "side" → second.declares "side" → first.Unrelated second) ∧
        ∃ left, other.declaring? "side" = some left ∧ left.name = "Left" ∧
          LastToDeclare other.ancestors "side" left ∧
          ∀ rival ∈ values, rival.declares "side" → ¬ rival.hasAncestor left := by
  intro first changed second values
  have hreachable : second.hierarchy.Reachable second.identities :=
    ((Reachable.empty (Identities.Evolves.refl _)).define _ _ _ _).define _ _ _ _
  obtain ⟨other, hother, hancestors, hleaves, hdeclaring⟩ :
      ∃ other ∈ values, other.ancestors.map Trait.name = ["Bottom", "Right", "Left", "Top"] ∧
        other.declares "side" = false ∧
          (other.declaring? "side").map Trait.name = some "Left" := by
    decide +kernel
  obtain ⟨hunrelated, -, -, hlast, hunextended⟩ :=
    hreachable.declaring?_unshadowed hother "side"
  obtain ⟨left, hleft, hname⟩ := Option.map_eq_some_iff.mp hdeclaring
  exact ⟨hreachable, by decide +kernel, other, hother, hancestors, hunrelated, left, hleft, hname,
    (hlast (by simp [hleaves]) left).mp hleft, hunextended left hleft⟩

end TraitSystem
