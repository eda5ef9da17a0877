import TraitSystem.Proofs.Hierarchy.WellFormed

/-!
# Reachable hierarchies

`Hierarchy.Reachable` says which hierarchies there can be: the empty one, and what definitions make
of it.  Every definition may be made of other signatures, under another policy and after any
requests for tokens, and it may fail.  All of them are well-formed and strictly ordered
(`Reachable.wellFormed_strictlyOrdered`).
-/

namespace TraitSystem.Hierarchy

/-- The hierarchies that definitions make of the empty one, with the tokens that there are then. -/
inductive Reachable : Hierarchy → Identities → Prop
  | empty {identities : Identities} (hevolves : Identities.empty.Evolves identities) :
      Reachable .empty identities
  | define {hierarchy : Hierarchy} {identities : Identities}
      (hreachable : Reachable hierarchy identities) (signatures : Signatures)
      (policy : CyclePolicy) (key : TraitKey) (nextSerial : Nat) :
      Reachable (hierarchy.define signatures policy key identities nextSerial).hierarchy
        (hierarchy.define signatures policy key identities nextSerial).identities
  | evolve {hierarchy : Hierarchy} {identities later : Identities}
      (hreachable : Reachable hierarchy identities) (hevolves : identities.Evolves later) :
      Reachable hierarchy later

/-! ## One definition -/

theorem wellFormedLookup_empty : WellFormedLookup Hierarchy.empty.find? where
  own _ _ h := nomatch h
  wellFormed _ _ h := nomatch h

theorem sound_begin {hierarchy : Hierarchy} {identities : Identities}
    (hidentities : identities.WellFormed) (hlookup : WellFormedLookup hierarchy.find?)
    (signatures : Signatures) (policy : CyclePolicy) (key : TraitKey) (nextSerial : Nat) :
    Walk.Sound (hierarchy.setting signatures policy) [] (begin key identities nextSerial) := by
  refine ⟨(identities.evolves_ofType _).wellFormed hidentities, ?_, ?_, ?_⟩
  · rw [find?_begin]
    exact hlookup
  · intro other hother
    cases hother
  · intro other hother
    cases hother

/-- A definition makes a well-formed hierarchy of a well-formed one, and the trait it answers is
found there under its own identity. -/
theorem define_sound {hierarchy : Hierarchy} {identities : Identities}
    (hidentities : identities.WellFormed) (hlookup : WellFormedLookup hierarchy.find?)
    (signatures : Signatures) (policy : CyclePolicy) (key : TraitKey) (nextSerial : Nat) :
    WellFormedLookup
        (hierarchy.define signatures policy key identities nextSerial).hierarchy.find? ∧
      ∀ trait, (hierarchy.define signatures policy key identities nextSerial).result = .ok trait →
        (hierarchy.define signatures policy key identities nextSerial).hierarchy.find?
          trait.identity = some trait := by
  cases hfind : hierarchy.find? (identities.ofType (.trait key)).1 with
  | some trait =>
      rw [hierarchy.define_of_found signatures policy key identities nextSerial hfind]
      refine ⟨hlookup, ?_⟩
      intro answer hanswer
      cases hanswer
      rw [hlookup.own _ _ hfind]
      exact hfind
  | none =>
      obtain ⟨result, walk, hresolves, hdefine⟩ :=
        hierarchy.define_of_new signatures policy key identities nextSerial hfind
      rw [hdefine]
      cases result with
      | error error => exact ⟨hlookup, nofun⟩
      | ok trait =>
          have hfresh := hresolves.fresh (hierarchy.fresh_begin _ _ _ _ _)
          obtain ⟨hsound, -, hanswered⟩ := hresolves.sound trait rfl List.not_mem_nil
            (sound_begin hidentities hlookup signatures policy key nextSerial)
          have hcommit : (hierarchy.commit walk).find? =
              Walk.find? (hierarchy.setting signatures policy) walk :=
            funext (hierarchy.find?_commit signatures policy hfresh)
          show WellFormedLookup (hierarchy.commit walk).find? ∧ ∀ answer, _ = _ →
            (hierarchy.commit walk).find? answer.identity = some answer
          rw [hcommit]
          refine ⟨hsound.lookup, ?_⟩
          intro answer hanswer
          cases hanswer
          exact hanswered

/-- The trait that a definition answers has the token of its key. -/
theorem find?_define_identity {hierarchy : Hierarchy} {identities : Identities}
    (hlookup : WellFormedLookup hierarchy.find?) {signatures : Signatures} {policy : CyclePolicy}
    {key : TraitKey} {nextSerial : Nat} {trait : Trait}
    (hresult : (hierarchy.define signatures policy key identities nextSerial).result = .ok trait) :
    (hierarchy.define signatures policy key identities nextSerial).identities.find?
      (.type (.trait key)) = some trait.identity := by
  cases hfind : hierarchy.find? (identities.ofType (.trait key)).1 with
  | some known =>
      rw [hierarchy.define_of_found signatures policy key identities nextSerial hfind] at hresult ⊢
      cases hresult
      rw [hlookup.own _ _ hfind]
      exact identities.find?_ofType _
  | none =>
      obtain ⟨result, walk, hresolves, hdefine⟩ :=
        hierarchy.define_of_new signatures policy key identities nextSerial hfind
      rw [hdefine] at hresult ⊢
      cases hresolves with
      | found hknown =>
          have hheld := (congrFun (hierarchy.find?_begin ..) _).symm.trans hknown
          cases hresult
          rw [hlookup.own _ _ hheld]
          exact Walk.find?_request _ key
      | stopped _ _ => cases hresult
      | conflicting _ _ _ => cases hresult
      | built _ parents _ =>
          cases hresult
          exact parents.evolves.extends.tokens _ _ (Walk.find?_request _ key)

/-- What walks keep of all that they find, a definition keeps of the hierarchy. -/
theorem define_keeps {holds : Identities → (Token → Option Trait) → Prop} {hierarchy : Hierarchy}
    {identities : Identities} (hidentities : identities.WellFormed)
    (hlookup : WellFormedLookup hierarchy.find?) (signatures : Signatures) (policy : CyclePolicy)
    (key : TraitKey) (nextSerial : Nat)
    (hmono : ∀ {ids later : Identities} {lookup : Token → Option Trait},
      holds ids lookup → ids.Evolves later → holds later lookup)
    (hwalk : ∀ {walk after : Walk} {trait : Trait},
      Walk.Resolves (hierarchy.setting signatures policy) [] key walk (.ok trait) after →
        Walk.Sound (hierarchy.setting signatures policy) [] walk →
          holds walk.identities (Walk.find? (hierarchy.setting signatures policy) walk) →
            holds after.identities (Walk.find? (hierarchy.setting signatures policy) after))
    (hholds : holds identities hierarchy.find?) :
    let defined := hierarchy.define signatures policy key identities nextSerial
    holds defined.identities defined.hierarchy.find? := by
  intro defined
  have hrequest := identities.evolves_ofType (.trait key)
  cases hfind : hierarchy.find? (identities.ofType (.trait key)).1 with
  | some known =>
      have hdefined : defined = _ :=
        hierarchy.define_of_found signatures policy key identities nextSerial hfind
      rw [hdefined]
      exact hmono hholds hrequest
  | none =>
      obtain ⟨result, walk, hresolves, hdefined⟩ :=
        hierarchy.define_of_new signatures policy key identities nextSerial hfind
      rw [show defined = _ from hdefined]
      cases result with
      | error error => exact hmono hholds (hrequest.trans hresolves.evolves)
      | ok trait =>
          have hcommit : (hierarchy.commit walk).find? =
              Walk.find? (hierarchy.setting signatures policy) walk :=
            funext (hierarchy.find?_commit signatures policy
              (hresolves.fresh (hierarchy.fresh_begin _ _ _ _ _)))
          show holds walk.identities (hierarchy.commit walk).find?
          rw [hcommit]
          refine hwalk hresolves
            (sound_begin hidentities hlookup signatures policy key nextSerial) ?_
          rw [find?_begin]
          exact hmono hholds hrequest

namespace Reachable

variable {hierarchy : Hierarchy} {identities : Identities}

theorem identities_wellFormed (hreachable : hierarchy.Reachable identities) :
    identities.WellFormed := by
  induction hreachable with
  | empty hevolves => exact hevolves.wellFormed Identities.wellFormed_empty
  | define _ signatures policy key nextSerial ih =>
      exact (evolves_define _ signatures policy key _ nextSerial).wellFormed ih
  | evolve _ hevolves ih => exact hevolves.wellFormed ih

theorem wellFormedLookup (hreachable : hierarchy.Reachable identities) :
    WellFormedLookup hierarchy.find? := by
  induction hreachable with
  | empty _ => exact wellFormedLookup_empty
  | define hbefore signatures policy key nextSerial ih =>
      exact (define_sound hbefore.identities_wellFormed ih signatures policy key nextSerial).1
  | evolve _ _ ih => exact ih

end Reachable

/-! ## The order of the traits -/

/-- `Trait.hasAncestor` is a strict order on the traits of the hierarchy. -/
structure StrictlyOrdered (hierarchy : Hierarchy) : Prop where
  irreflexive : ∀ trait ∈ hierarchy.traits.values, ¬ trait.hasAncestor trait
  transitive : ∀ first ∈ hierarchy.traits.values, ∀ second ∈ hierarchy.traits.values,
    ∀ third ∈ hierarchy.traits.values, first.hasAncestor second → second.hasAncestor third →
      first.hasAncestor third
  asymmetric : ∀ first ∈ hierarchy.traits.values, ∀ second ∈ hierarchy.traits.values,
    first.hasAncestor second → ¬ second.hasAncestor first

theorem find?_identity_of_mem {hierarchy : Hierarchy} (hlookup : WellFormedLookup hierarchy.find?)
    {trait : Trait} (hmem : trait ∈ hierarchy.traits.values) :
    hierarchy.find? trait.identity = some trait := by
  obtain ⟨token, hfind⟩ := (hierarchy.traits.mem_values_iff trait).mp hmem
  rw [hlookup.own token trait hfind]
  exact hfind

/-- Among the traits of a well-formed hierarchy, having an ancestor of some identity is having that
very ancestor. -/
theorem hasAncestor_iff {hierarchy : Hierarchy} (hlookup : WellFormedLookup hierarchy.find?)
    {trait other : Trait} (htrait : trait ∈ hierarchy.traits.values)
    (hother : other ∈ hierarchy.traits.values) :
    trait.hasAncestor other ↔ other ∈ trait.ancestors := by
  have hshared := (hlookup.wellFormed _ _ (find?_identity_of_mem hlookup htrait)).shared
  constructor
  · intro hancestor
    obtain ⟨ancestor, hmem, hsame⟩ := List.any_eq_true.mp hancestor
    have hfind := hshared ancestor hmem
    rw [eq_of_beq hsame, find?_identity_of_mem hlookup hother] at hfind
    rwa [Option.some_inj.mp hfind]
  · intro hmem
    exact List.any_eq_true.mpr ⟨other, hmem, beq_self_eq_true _⟩

theorem strictlyOrdered_of_wellFormed {hierarchy : Hierarchy}
    (hlookup : WellFormedLookup hierarchy.find?) : hierarchy.StrictlyOrdered := by
  have hirreflexive : ∀ trait ∈ hierarchy.traits.values, ¬ trait.hasAncestor trait := by
    intro trait htrait hself
    have hown := hlookup.wellFormed _ _ (find?_identity_of_mem hlookup htrait)
    exact hown.not_self trait ((hasAncestor_iff hlookup htrait htrait).mp hself) rfl
  have htransitive : ∀ first ∈ hierarchy.traits.values, ∀ second ∈ hierarchy.traits.values,
      ∀ third ∈ hierarchy.traits.values, first.hasAncestor second → second.hasAncestor third →
        first.hasAncestor third := by
    intro first hfirst second hsecond third hthird hfirstSecond hsecondThird
    rw [hasAncestor_iff hlookup hfirst hsecond] at hfirstSecond
    rw [hasAncestor_iff hlookup hsecond hthird] at hsecondThird
    rw [hasAncestor_iff hlookup hfirst hthird]
    have hown := hlookup.wellFormed _ _ (find?_identity_of_mem hlookup hfirst)
    exact hown.closed hfirstSecond hsecondThird
  refine ⟨hirreflexive, htransitive, ?_⟩
  intro first hfirst second hsecond hforth hback
  have hself := htransitive first hfirst second hsecond first hfirst hforth hback
  exact hirreflexive first hfirst hself

/-- **Every reachable hierarchy is well-formed and strictly ordered**, also where signatures extend
each other in circles. -/
theorem Reachable.wellFormed_strictlyOrdered {hierarchy : Hierarchy} {identities : Identities}
    (hreachable : hierarchy.Reachable identities) :
    WellFormedLookup hierarchy.find? ∧ hierarchy.StrictlyOrdered :=
  ⟨hreachable.wellFormedLookup, strictlyOrdered_of_wellFormed hreachable.wellFormedLookup⟩

/-- A custom trait shown under the name of its type. -/
def customKey (name : String) : TraitKey := .custom name name

/-- Four traits in a circle that divides and meets again. -/
def circle : Signatures where
  custom := Table.ofList
    [(customKey "Top", ⟨[customKey "Left", customKey "Right", customKey "Left"], []⟩),
      (customKey "Left", ⟨[customKey "Bottom"], [("side", none)]⟩),
      (customKey "Right", ⟨[customKey "Bottom"], [("side", none)]⟩),
      (customKey "Bottom", ⟨[customKey "Top"], []⟩)]

/-- The circle is cut where it closes.  Then `Bottom` is said to extend a new trait, which extends
traits of the circle in its turn; `Bottom` stays as it was defined. -/
theorem wellFormed_strictlyOrdered_circle :
    let first := empty.define circle .truncate (customKey "Top") .empty 0
    let changed := (circle.declare (customKey "Bottom") ⟨[customKey "Other"], []⟩).declare
      (customKey "Other") ⟨[customKey "Right", customKey "Top"], []⟩
    let second := first.hierarchy.define changed .reject (customKey "Other") first.identities
      first.nextSerial
    (second.hierarchy.traits.values.map fun trait => (trait.name, trait.ancestors.map Trait.name)) =
        [("Bottom", []), ("Left", ["Bottom"]), ("Right", ["Bottom"]),
          ("Top", ["Bottom", "Left", "Right"]), ("Other", ["Bottom", "Right", "Left", "Top"])] ∧
      second.hierarchy.Reachable second.identities ∧
        WellFormedLookup second.hierarchy.find? ∧ second.hierarchy.StrictlyOrdered := by
  intro first changed second
  have hreachable : second.hierarchy.Reachable second.identities :=
    ((Reachable.empty (Identities.Evolves.refl _)).define _ _ _ _).define _ _ _ _
  exact ⟨by decide +kernel, hreachable, hreachable.wellFormed_strictlyOrdered⟩

end TraitSystem.Hierarchy
