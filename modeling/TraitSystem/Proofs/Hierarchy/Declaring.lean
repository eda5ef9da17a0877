import TraitSystem.Proofs.Hierarchy.Reachable

/-!
# The trait that answers for a method

A hierarchy may hold many traits that declare a method.  The one that answers for it is the one with
the smallest identity (`declaring?_eq_some_iff`), whatever the order in which the traits were
defined.  Different traits of a well-formed hierarchy have different identities, so there is only
one such trait.
-/

namespace TraitSystem

/-- None of the traits declares a method. -/
def NoneDeclares (traits : List Trait) (method : String) : Prop :=
  ∀ trait ∈ traits, ¬ trait.declares method

instance (traits : List Trait) (method : String) : Decidable (NoneDeclares traits method) :=
  inferInstanceAs (Decidable (∀ trait ∈ traits, _))

namespace Hierarchy

/-- Of the traits of a hierarchy that declare a method, one has the smallest identity. -/
structure DeclaredFirst (hierarchy : Hierarchy) (method : String) (trait : Trait) : Prop where
  mem : trait ∈ hierarchy.traits.values
  declares : trait.declares method
  least : ∀ other ∈ hierarchy.traits.values, other.declares method →
    trait.identity.raw ≤ other.identity.raw

theorem DeclaredFirst.unique {hierarchy : Hierarchy} (hlookup : WellFormedLookup hierarchy.find?)
    {method : String} {trait other : Trait} (htrait : hierarchy.DeclaredFirst method trait)
    (hother : hierarchy.DeclaredFirst method other) : trait = other := by
  have hraw : trait.identity.raw = other.identity.raw :=
    Nat.le_antisymm (htrait.least other hother.mem hother.declares)
      (hother.least trait htrait.mem htrait.declares)
  have hidentity : trait.identity = other.identity := congrArg Token.mk hraw
  have hfirst := find?_identity_of_mem hlookup htrait.mem
  rw [hidentity, find?_identity_of_mem hlookup hother.mem] at hfirst
  exact (Option.some_inj.mp hfirst).symm

/-! ## The earlier of two -/

theorem earlier_eq (first second : Trait) : earlier first second = first ∨
    earlier first second = second := by
  unfold earlier
  split
  · exact Or.inr rfl
  · exact Or.inl rfl

theorem raw_earlier (first second : Trait) :
    (earlier first second).identity.raw = min first.identity.raw second.identity.raw := by
  unfold earlier
  split <;> omega

theorem foldl_earlier_mem (first : Trait) (rest : List Trait) :
    rest.foldl earlier first ∈ first :: rest := by
  induction rest generalizing first with
  | nil => exact List.mem_cons_self
  | cons second rest ih =>
      rw [List.foldl_cons]
      rcases List.mem_cons.mp (ih (earlier first second)) with heq | hrest
      · rw [heq]
        rcases earlier_eq first second with hfirst | hsecond
        · rw [hfirst]
          exact List.mem_cons_self
        · rw [hsecond]
          exact List.mem_cons_of_mem _ List.mem_cons_self
      · exact List.mem_cons_of_mem _ (List.mem_cons_of_mem _ hrest)

theorem foldl_earlier_le (first : Trait) (rest : List Trait) :
    ∀ other ∈ first :: rest, (rest.foldl earlier first).identity.raw ≤ other.identity.raw := by
  induction rest generalizing first with
  | nil =>
      intro other hother
      rw [List.mem_singleton.mp hother]
      exact Nat.le_refl _
  | cons second rest ih =>
      intro other hother
      rw [List.foldl_cons]
      have hmin := ih (earlier first second) _ List.mem_cons_self
      rw [raw_earlier] at hmin
      rcases List.mem_cons.mp hother with rfl | hlater
      · omega
      · rcases List.mem_cons.mp hlater with rfl | hrest
        · omega
        · exact ih _ other (List.mem_cons_of_mem _ hrest)

/-! ## The trait that answers -/

theorem declaring?_eq_none_iff (hierarchy : Hierarchy) (method : String) :
    hierarchy.declaring? method = none ↔ NoneDeclares hierarchy.traits.values method := by
  unfold declaring? NoneDeclares
  rw [← List.filter_eq_nil_iff]
  cases hierarchy.traits.values.filter fun trait => trait.declares method <;> simp

theorem declaredFirst_of_declaring? {hierarchy : Hierarchy} {method : String} {trait : Trait}
    (hdeclaring : hierarchy.declaring? method = some trait) :
    hierarchy.DeclaredFirst method trait := by
  unfold declaring? at hdeclaring
  cases hfilter : hierarchy.traits.values.filter fun trait => trait.declares method with
  | nil =>
      rw [hfilter] at hdeclaring
      cases hdeclaring
  | cons first rest =>
      rw [hfilter] at hdeclaring
      cases hdeclaring
      have hmem := foldl_earlier_mem first rest
      rw [← hfilter, List.mem_filter] at hmem
      refine ⟨hmem.1, hmem.2, ?_⟩
      intro other hother hdeclares
      refine foldl_earlier_le first rest other ?_
      rw [← hfilter]
      exact List.mem_filter.mpr ⟨hother, hdeclares⟩

/-- **The trait with the smallest identity answers for a method.** -/
theorem declaring?_eq_some_iff {hierarchy : Hierarchy} (hlookup : WellFormedLookup hierarchy.find?)
    (method : String) (trait : Trait) :
    hierarchy.declaring? method = some trait ↔ hierarchy.DeclaredFirst method trait := by
  constructor
  · exact declaredFirst_of_declaring?
  · intro hfirst
    cases hdeclaring : hierarchy.declaring? method with
    | none =>
        have hnone := (hierarchy.declaring?_eq_none_iff method).mp hdeclaring
        exact absurd hfirst.declares (hnone trait hfirst.mem)
    | some other =>
        have hother := declaredFirst_of_declaring? hdeclaring
        rw [hother.unique hlookup hfirst]

end Hierarchy

end TraitSystem
