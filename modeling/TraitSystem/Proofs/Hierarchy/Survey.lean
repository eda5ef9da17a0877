import TraitSystem.Proofs.Hierarchy.Derivation
import TraitSystem.Proofs.Hierarchy.Growth

/-!
# Walks with a limit

A survey is a walk that goes down a limited number of traits and notes what it reads of the
signatures.  It reads the parents of a trait when it puts the trait on the path, and its
declarations when all of the parents have been resolved.  It has no result where the limit is not
enough; the recursion is on the limit, and there is nothing else that would make it end.

In all else it does as the walk does.  `Walk.survey_of_found` and `Walk.survey_of_new` say so for
one trait, in the terms of the rules for walks.
-/

namespace TraitSystem

/-- What is read of a signature at once. -/
inductive Reading where
  /-- The parents of a trait. -/
  | parents (key : TraitKey)
  /-- The declarations of a trait. -/
  | declarations (key : TraitKey)
  deriving DecidableEq, Repr

/-- The trait whose signature is read. -/
def Reading.key : Reading → TraitKey
  | parents key => key
  | declarations key => key

/-- A walk, with all that it has read in order. -/
structure Survey where
  /-- What the walk has done so far. -/
  walk : Walk
  /-- What it has read so far. -/
  readings : List Reading := []

/-- Builds a trait whose parents have been collected, for which its declarations are read. -/
def Survey.finish (key : TraitKey) (token : Token) (signature : Signature) :
    Except DefineError Lineage × Survey → Except DefineError Trait × Survey
  | (.error error, survey) => (.error error, survey)
  | (.ok lineage, survey) =>
    let (result, walk) := survey.walk.build key token signature lineage
    (result, ⟨walk, survey.readings ++ [.declarations key]⟩)

namespace Survey

variable {key : TraitKey} {token : Token} {signature : Signature} {lineage : Lineage} {walk : Walk}
  {readings : List Reading}

theorem finish_conflicting {method : String} {ancestor : Trait}
    (hconflict : lineage.conflict? (signature.methods walk.nextSerial) = some (method, ancestor)) :
    finish key token signature (.ok lineage, ⟨walk, readings⟩) =
      (.error (.conflictingMethod method key.name ancestor.name),
        ⟨{ walk with nextSerial := walk.serialFor signature },
          readings ++ [.declarations key]⟩) := by
  simp only [finish, Walk.build, hconflict]
  rfl

theorem finish_built
    (hconflict : lineage.conflict? (signature.methods walk.nextSerial) = none) :
    finish key token signature (.ok lineage, ⟨walk, readings⟩) =
      (.ok (walk.traitFor key token signature lineage),
        ⟨walk.add (walk.traitFor key token signature lineage),
          readings ++ [.declarations key]⟩) := by
  simp only [finish, Walk.build, hconflict]
  rfl

end Survey

namespace Walk

/-- Adds the traits of parents to a lineage, as `gather` does. -/
def surveyParents (policy : CyclePolicy) (path : List TraitKey)
    (surveyParent : TraitKey → Survey → Option (Except DefineError Trait × Survey)) :
    List TraitKey → Lineage → Survey → Option (Except DefineError Lineage × Survey)
  | [], lineage, survey => some (.ok lineage, survey)
  | parent :: rest, lineage, survey =>
    if parent ∈ path then
      match policy with
      | .reject => some (.error (cycleError path parent), survey)
      | .truncate => surveyParents policy path surveyParent rest lineage survey
    else
      match surveyParent parent survey with
      | none => none
      | some (.error error, survey) => some (.error error, survey)
      | some (.ok trait, survey) =>
        surveyParents policy path surveyParent rest (lineage.addParent trait) survey

/-- The trait of a key, as `resolve` finds it, unless there are more traits below each other than
the limit says. -/
def survey (setting : Setting) :
    ℕ → List TraitKey → TraitKey → Survey → Option (Except DefineError Trait × Survey)
  | 0, _, _, _ => none
  | limit + 1, path, key, ⟨walk, readings⟩ =>
    match find? setting (walk.request key) (walk.tokenOf key) with
    | some trait => some (.ok trait, ⟨walk.request key, readings⟩)
    | none =>
      let entered : Survey := ⟨(walk.request key).expand (key :: path), readings ++ [.parents key]⟩
      (surveyParents setting.policy (key :: path) (survey setting limit (key :: path))
        (setting.signatures.get key).parents {} entered).map
          (Survey.finish key (walk.tokenOf key) (setting.signatures.get key))

variable {setting : Setting} {path : List TraitKey} {key : TraitKey} {walk : Walk}

theorem survey_of_found {trait : Trait}
    (hfind : find? setting (walk.request key) (walk.tokenOf key) = some trait) (limit : ℕ)
    (readings : List Reading) :
    survey setting (limit + 1) path key ⟨walk, readings⟩ =
      some (.ok trait, ⟨walk.request key, readings⟩) := by
  rw [survey, hfind]

theorem survey_of_new (hnew : find? setting (walk.request key) (walk.tokenOf key) = none)
    (limit : ℕ) (readings : List Reading) :
    survey setting (limit + 1) path key ⟨walk, readings⟩ =
      (surveyParents setting.policy (key :: path) (survey setting limit (key :: path))
        (setting.signatures.get key).parents {}
        ⟨(walk.request key).expand (key :: path), readings ++ [.parents key]⟩).map
          (Survey.finish key (walk.tokenOf key) (setting.signatures.get key)) := by
  rw [survey, hnew]

section Parents

variable {surveyParent : TraitKey → Survey → Option (Except DefineError Trait × Survey)}
  {parent : TraitKey} {rest : List TraitKey} {lineage : Lineage} {survey between : Survey}

theorem surveyParents_cyclic (onPath : parent ∈ path) :
    surveyParents .reject path surveyParent (parent :: rest) lineage survey =
      some (.error (cycleError path parent), survey) := by
  simp [surveyParents, onPath]

theorem surveyParents_truncated (onPath : parent ∈ path) :
    surveyParents .truncate path surveyParent (parent :: rest) lineage survey =
      surveyParents .truncate path surveyParent rest lineage survey := by
  simp [surveyParents, onPath]

variable {policy : CyclePolicy} (offPath : parent ∉ path)

include offPath

theorem surveyParents_failed {error : DefineError}
    (hparent : surveyParent parent survey = some (.error error, between)) :
    surveyParents policy path surveyParent (parent :: rest) lineage survey =
      some (.error error, between) := by
  simp [surveyParents, offPath, hparent]

theorem surveyParents_added {trait : Trait}
    (hparent : surveyParent parent survey = some (.ok trait, between)) :
    surveyParents policy path surveyParent (parent :: rest) lineage survey =
      surveyParents policy path surveyParent rest (lineage.addParent trait) between := by
  simp [surveyParents, offPath, hparent]

end Parents

end Walk

namespace Hierarchy

/-- A definition whose walk is a survey, with what it reads. -/
def survey (hierarchy : Hierarchy) (limit : ℕ) (signatures : Signatures) (policy : CyclePolicy)
    (key : TraitKey) (identities : Identities) (nextSerial : Nat) :
    Option (Definition × List Reading) :=
  match hierarchy.find? (identities.ofType (.trait key)).1 with
  | some trait =>
    some ({ result := .ok trait, hierarchy, identities := (identities.ofType (.trait key)).2,
            nextSerial }, [])
  | none =>
    (Walk.survey (hierarchy.setting signatures policy) limit [] key
      ⟨begin key identities nextSerial, []⟩).map fun (result, survey) =>
        ({ result, hierarchy := match result with
             | .ok _ => hierarchy.commit survey.walk
             | .error _ => hierarchy
           identities := survey.walk.identities, nextSerial := survey.walk.nextSerial },
          survey.readings)

end Hierarchy

end TraitSystem
