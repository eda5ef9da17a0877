import TraitSystem.Proofs.Hierarchy.Extension
import TraitSystem.Proofs.Identity
import TraitSystem.Proofs.List

/-!
# Outlines

The `Outline` of a trait says which traits it extends, by their keys.  `Outlines` says in rules what
becomes of a trait whose signature, and those of all traits that it extends, are read where cycles
are rejected.  This is the walk that builds a trait, without its memory: a trait that is met again
is outlined again, and no trait is known beforehand.

The rules read off signatures alone what a definition comes to.  The outline that they give a trait
lists what the trait extends, which is then definable (`Outlines.sound`), and an error explains why
it is not (`Outlines.explains`).  They keep account of the tokens too, since what is outlined again
must not be given new ones: a trait with an outline has the same outline at any time and on any path
that does not meet it (`Outlines.replay`).
-/

namespace TraitSystem

/-- The traits that a trait extends directly and those that it extends at all, in the order in which
they are found. -/
structure Outline where
  /-- The parents. -/
  parents : List TraitKey := []
  /-- All traits that are extended, each one after those that it extends. -/
  ancestors : List TraitKey := []

namespace Outline

/-- Adds a parent after all that it extends itself. -/
def addParent (outline : Outline) (parent : TraitKey) (own : Outline) : Outline where
  parents := appendNew outline.parents parent
  ancestors := mergeNew outline.ancestors (own.ancestors ++ [parent])

/-- The first method of a trait that a trait of its outline declares, with the first to do so. -/
def conflict? (signatures : Signatures) (key : TraitKey) (outline : Outline) :
    Option (String × TraitKey) :=
  ((signatures.get key).shape.map Prod.fst).findSome? fun method =>
    (outline.ancestors.find? fun ancestor => signatures.Declares ancestor method).map (method, ·)

theorem conflict?_eq_some {signatures : Signatures} {key : TraitKey} {outline : Outline}
    {method : String} {ancestor : TraitKey}
    (hconflict : outline.conflict? signatures key = some (method, ancestor)) :
    signatures.Declares key method ∧ ancestor ∈ outline.ancestors ∧
      signatures.Declares ancestor method := by
  obtain ⟨declared, hdeclared, hfound⟩ := List.exists_of_findSome?_eq_some hconflict
  obtain ⟨shadowed, hshadowed, hsame⟩ := Option.map_eq_some_iff.mp hfound
  cases hsame
  exact ⟨((signatures.get key).mem_map_fst_shape method).mp hdeclared,
    List.mem_of_find?_eq_some hshadowed, by simpa using List.find?_some hshadowed⟩

theorem conflict?_eq_none {signatures : Signatures} {key : TraitKey} {outline : Outline}
    (hconflict : outline.conflict? signatures key = none) {method : String}
    (hdeclares : signatures.Declares key method) :
    ∀ ancestor ∈ outline.ancestors, ¬ signatures.Declares ancestor method := by
  intro ancestor hancestor
  have hmethod := ((signatures.get key).mem_map_fst_shape method).mpr hdeclares
  have hnone := Option.map_eq_none_iff.mp (List.findSome?_eq_none_iff.mp hconflict method hmethod)
  simpa using List.find?_eq_none.mp hnone ancestor hancestor

end Outline

/-! ## The rules -/

section Rules

variable (signatures : Signatures)

mutual

/-- What becomes of a trait off the path, and which tokens there are then. -/
inductive Outlines : List TraitKey → TraitKey → Identities → Except DefineError Outline →
    Identities → Prop
  /-- A parent has no outline. -/
  | stopped {path : List TraitKey} {key : TraitKey} {ids after : Identities} {error : DefineError}
      (parents : Collects (key :: path) (signatures.get key).parents {}
        (ids.ofType (.trait key)).2 (.error error) after) :
      Outlines path key ids (.error error) after
  /-- A trait that is extended declares a method of the trait. -/
  | conflicting {path : List TraitKey} {key ancestor : TraitKey} {ids after : Identities}
      {outline : Outline} {method : String}
      (parents : Collects (key :: path) (signatures.get key).parents {}
        (ids.ofType (.trait key)).2 (.ok outline) after)
      (hconflict : outline.conflict? signatures key = some (method, ancestor)) :
      Outlines path key ids (.error (.conflictingMethod method key.name ancestor.name)) after
  | outlined {path : List TraitKey} {key : TraitKey} {ids after : Identities} {outline : Outline}
      (parents : Collects (key :: path) (signatures.get key).parents {}
        (ids.ofType (.trait key)).2 (.ok outline) after)
      (hconflict : outline.conflict? signatures key = none) :
      Outlines path key ids (.ok outline) after

/-- Collecting the parents of the trait in front of the path, on top of those collected before. -/
inductive Collects : List TraitKey → List TraitKey → Outline → Identities →
    Except DefineError Outline → Identities → Prop
  | done {path : List TraitKey} {outline : Outline} {ids : Identities} :
      Collects path [] outline ids (.ok outline) ids
  | cyclic {path rest : List TraitKey} {parent : TraitKey} {outline : Outline} {ids : Identities}
      (onPath : parent ∈ path) :
      Collects path (parent :: rest) outline ids (.error (Walk.cycleError path parent)) ids
  | failed {path rest : List TraitKey} {parent : TraitKey} {outline : Outline}
      {ids after : Identities} {error : DefineError} (offPath : parent ∉ path)
      (first : Outlines path parent ids (.error error) after) :
      Collects path (parent :: rest) outline ids (.error error) after
  | added {path rest : List TraitKey} {parent : TraitKey} {outline own : Outline}
      {ids between after : Identities} {result : Except DefineError Outline}
      (offPath : parent ∉ path)
      (first : Outlines path parent ids (.ok own) between)
      (others : Collects path rest (outline.addParent parent own) between result after) :
      Collects path (parent :: rest) outline ids result after

end

end Rules

variable {signatures : Signatures}

/-! ## The rules leave no choice -/

mutual

theorem Outlines.unique {path : List TraitKey} {key : TraitKey} {ids after other : Identities}
    {result otherResult : Except DefineError Outline} :
    Outlines signatures path key ids result after →
      Outlines signatures path key ids otherResult other → result = otherResult ∧ after = other
  | .stopped parents, hother => by
      cases hother with
      | stopped others =>
          obtain ⟨hresult, hafter⟩ := parents.unique others
          exact ⟨by cases hresult; rfl, hafter⟩
      | conflicting others _ => cases (parents.unique others).1
      | outlined others _ => cases (parents.unique others).1
  | .conflicting parents hconflict, hother => by
      cases hother with
      | stopped others => cases (parents.unique others).1
      | conflicting others hconflict' =>
          obtain ⟨hresult, hafter⟩ := parents.unique others
          cases hresult
          cases hconflict.symm.trans hconflict'
          exact ⟨rfl, hafter⟩
      | outlined others hconflict' =>
          cases (parents.unique others).1
          cases hconflict.symm.trans hconflict'
  | .outlined parents hconflict, hother => by
      cases hother with
      | stopped others => cases (parents.unique others).1
      | conflicting others hconflict' =>
          cases (parents.unique others).1
          cases hconflict.symm.trans hconflict'
      | outlined others _ => exact parents.unique others

theorem Collects.unique {path parents : List TraitKey} {outline : Outline}
    {ids after other : Identities} {result otherResult : Except DefineError Outline} :
    Collects signatures path parents outline ids result after →
      Collects signatures path parents outline ids otherResult other →
        result = otherResult ∧ after = other
  | .done, hother => by
      cases hother
      exact ⟨rfl, rfl⟩
  | .cyclic onPath, hother => by
      cases hother with
      | cyclic _ => exact ⟨rfl, rfl⟩
      | failed offPath _ => exact absurd onPath offPath
      | added offPath _ _ => exact absurd onPath offPath
  | .failed offPath first, hother => by
      cases hother with
      | cyclic onPath => exact absurd onPath offPath
      | failed _ first' =>
          obtain ⟨hresult, hafter⟩ := first.unique first'
          exact ⟨by cases hresult; rfl, hafter⟩
      | added _ first' _ => cases (first.unique first').1
  | .added offPath first others, hother => by
      cases hother with
      | cyclic onPath => exact absurd onPath offPath
      | failed _ first' => cases (first.unique first').1
      | added _ first' others' =>
          obtain ⟨hown, hbetween⟩ := first.unique first'
          cases hown
          subst hbetween
          exact others.unique others'

end

end TraitSystem
