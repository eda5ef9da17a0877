import TraitSystem.Hierarchy.Basic
import Mathlib.Tactic.ByContra

/-!
# Derivations of walks

`Walk.resolve` recurses along parents by way of `Walk.gather`, which takes the recursive call as an
argument.  `Resolves` and `Gathers` say in rules what the two do, one rule for each way in which
they can end, and `resolve_resolves` says that every walk follows the rules.  Facts about walks are
then proved by induction on derivations, which is where the recursion shows.  Since the rules leave
no choice (`Resolves.unique`), a derivation found in another way is that of the walk.

The rules leave out the proof that a trait is off the path; `Gathers` has it where a parent is
resolved.
-/

namespace TraitSystem.Walk

/-- The token of a trait, which is handed out if the trait has none. -/
def tokenOf (walk : Walk) (key : TraitKey) : Token := (walk.identities.ofType (.trait key)).1

/-- The walk after the identity of a trait has been asked for. -/
def request (walk : Walk) (key : TraitKey) : Walk :=
  { walk with identities := (walk.identities.ofType (.trait key)).2 }

/-- The walk after the signature of the trait in front of the path has been read. -/
def expand (walk : Walk) (path : List TraitKey) : Walk :=
  { walk with expansions := walk.expansions ++ [path] }

/-- The number under which the walk builds the trait of a signature; those before it are for the
default bodies. -/
def serialFor (walk : Walk) (signature : Signature) : Nat :=
  walk.nextSerial + signature.declarations.length

/-- The trait that the walk builds from a signature and a lineage. -/
def traitFor (walk : Walk) (key : TraitKey) (token : Token) (signature : Signature)
    (lineage : Lineage) : Trait where
  identity := token
  name := key.name
  methods := signature.methods walk.nextSerial
  parents := lineage.parents
  ancestors := lineage.ancestors
  serial := walk.serialFor signature

/-- The walk after a trait has been built. -/
def add (walk : Walk) (trait : Trait) : Walk :=
  { walk with nextSerial := trait.serial + 1, built := walk.built.insert trait.identity trait }

/-- What becomes of a trait when its parents have been gathered. -/
def finish (key : TraitKey) (token : Token) (signature : Signature) :
    Except DefineError Lineage × Walk → Except DefineError Trait × Walk
  | (.error error, walk) => (.error error, walk)
  | (.ok lineage, walk) => walk.build key token signature lineage

/-! ## The rules -/

mutual

/-- Resolving the trait of a key off the path takes the walk from one state to another. -/
inductive Resolves (setting : Setting) :
    List TraitKey → TraitKey → Walk → Except DefineError Trait → Walk → Prop
  /-- The trait is known or built already. -/
  | found {path : List TraitKey} {key : TraitKey} {walk : Walk} {trait : Trait}
      (hfind : find? setting (walk.request key) (walk.tokenOf key) = some trait) :
      Resolves setting path key walk (.ok trait) (walk.request key)
  /-- A parent cannot be resolved. -/
  | stopped {path : List TraitKey} {key : TraitKey} {walk after : Walk} {error : DefineError}
      (hnew : find? setting (walk.request key) (walk.tokenOf key) = none)
      (parents : Gathers setting (key :: path) (setting.signatures.get key).parents {}
        ((walk.request key).expand (key :: path)) (.error error) after) :
      Resolves setting path key walk (.error error) after
  /-- An ancestor declares a method of the trait. -/
  | conflicting {path : List TraitKey} {key : TraitKey} {walk after : Walk} {lineage : Lineage}
      {method : String} {ancestor : Trait}
      (hnew : find? setting (walk.request key) (walk.tokenOf key) = none)
      (parents : Gathers setting (key :: path) (setting.signatures.get key).parents {}
        ((walk.request key).expand (key :: path)) (.ok lineage) after)
      (hconflict : lineage.conflict? ((setting.signatures.get key).methods after.nextSerial) =
        some (method, ancestor)) :
      Resolves setting path key walk (.error (.conflictingMethod method key.name ancestor.name))
        { after with nextSerial := after.serialFor (setting.signatures.get key) }
  /-- The trait is built. -/
  | built {path : List TraitKey} {key : TraitKey} {walk after : Walk} {lineage : Lineage}
      (hnew : find? setting (walk.request key) (walk.tokenOf key) = none)
      (parents : Gathers setting (key :: path) (setting.signatures.get key).parents {}
        ((walk.request key).expand (key :: path)) (.ok lineage) after)
      (hconflict : lineage.conflict? ((setting.signatures.get key).methods after.nextSerial) =
        none) :
      Resolves setting path key walk
        (.ok (after.traitFor key (walk.tokenOf key) (setting.signatures.get key) lineage))
        (after.add (after.traitFor key (walk.tokenOf key) (setting.signatures.get key) lineage))

/-- Gathering the parents of the trait in front of the path, on top of those gathered before. -/
inductive Gathers (setting : Setting) :
    List TraitKey → List TraitKey → Lineage → Walk → Except DefineError Lineage → Walk → Prop
  | done {path : List TraitKey} {lineage : Lineage} {walk : Walk} :
      Gathers setting path [] lineage walk (.ok lineage) walk
  | cyclic {path rest : List TraitKey} {parent : TraitKey} {lineage : Lineage} {walk : Walk}
      (onPath : parent ∈ path) (hpolicy : setting.policy = .reject) :
      Gathers setting path (parent :: rest) lineage walk (.error (cycleError path parent)) walk
  | truncated {path rest : List TraitKey} {parent : TraitKey} {lineage : Lineage}
      {walk after : Walk} {result : Except DefineError Lineage}
      (onPath : parent ∈ path) (hpolicy : setting.policy = .truncate)
      (others : Gathers setting path rest lineage walk result after) :
      Gathers setting path (parent :: rest) lineage walk result after
  | failed {path rest : List TraitKey} {parent : TraitKey} {lineage : Lineage}
      {walk after : Walk} {error : DefineError} (offPath : parent ∉ path)
      (first : Resolves setting path parent walk (.error error) after) :
      Gathers setting path (parent :: rest) lineage walk (.error error) after
  | added {path rest : List TraitKey} {parent : TraitKey} {lineage : Lineage}
      {walk between after : Walk} {trait : Trait} {result : Except DefineError Lineage}
      (offPath : parent ∉ path)
      (first : Resolves setting path parent walk (.ok trait) between)
      (others : Gathers setting path rest (lineage.addParent trait) between result after) :
      Gathers setting path (parent :: rest) lineage walk result after

end

/-! ## Walks follow the rules -/

theorem gather_gathers {setting : Setting} {path : List TraitKey}
    {resolveParent :
      (parent : TraitKey) → parent ∉ path → Walk → Except DefineError Trait × Walk}
    (parents : List TraitKey) (lineage : Lineage) (walk : Walk)
    (hresolve : ∀ parent ∈ parents, ∀ (offPath : parent ∉ path) (walk : Walk),
      Resolves setting path parent walk (resolveParent parent offPath walk).1
        (resolveParent parent offPath walk).2) :
    Gathers setting path parents lineage walk
      (gather setting.policy path resolveParent parents lineage walk).1
      (gather setting.policy path resolveParent parents lineage walk).2 := by
  induction parents generalizing lineage walk with
  | nil => exact .done
  | cons parent rest ih =>
      have hrest := fun lineage walk =>
        ih lineage walk fun other hother => hresolve other (List.mem_cons_of_mem _ hother)
      unfold gather
      split
      · rename_i onPath
        cases hpolicy : setting.policy with
        | reject => exact .cyclic onPath hpolicy
        | truncate =>
            rw [hpolicy] at hrest
            exact .truncated onPath hpolicy (hrest lineage walk)
      · rename_i offPath
        have hfirst := hresolve parent List.mem_cons_self offPath walk
        cases hresult : resolveParent parent offPath walk with
        | mk result between =>
            rw [hresult] at hfirst
            cases result with
            | error error => exact .failed offPath hfirst
            | ok trait => exact .added offPath hfirst (hrest _ _)

private theorem resolve_of_found {setting : Setting} {path : List TraitKey} {key : TraitKey}
    (offPath : key ∉ path) {walk : Walk} {trait : Trait}
    (hfind : find? setting (walk.request key) (walk.tokenOf key) = some trait) :
    resolve setting path key offPath walk = (.ok trait, walk.request key) := by
  rw [resolve_eq]
  unfold tokenOf request at hfind
  unfold request
  cases htoken : walk.identities.ofType (.trait key) with
  | mk token requested =>
      rw [htoken] at hfind
      simp only [hfind]

private theorem resolve_of_new {setting : Setting} {path : List TraitKey} {key : TraitKey}
    (offPath : key ∉ path) {walk : Walk}
    (hnew : find? setting (walk.request key) (walk.tokenOf key) = none) :
    resolve setting path key offPath walk =
      finish key (walk.tokenOf key) (setting.signatures.get key)
        (gather setting.policy (key :: path)
          (fun parent parentOff walk => resolve setting (key :: path) parent parentOff walk)
          (setting.signatures.get key).parents {} ((walk.request key).expand (key :: path))) := by
  rw [resolve_eq]
  unfold tokenOf request at hnew ⊢
  unfold expand
  cases htoken : walk.identities.ofType (.trait key) with
  | mk token requested =>
      rw [htoken] at hnew
      simp only [hnew]
      rfl

/-- **Every walk has a derivation.** -/
theorem resolve_resolves (setting : Setting) (path : List TraitKey) (key : TraitKey)
    (offPath : key ∉ path) (walk : Walk) :
    Resolves setting path key walk (resolve setting path key offPath walk).1
      (resolve setting path key offPath walk).2 := by
  have hparents := @gather_gathers setting (key :: path) _
    (setting.signatures.get key).parents {} ((walk.request key).expand (key :: path))
    fun parent hparent parentOff walk =>
      have hkey : key ∈ setting.signatures.keys := by
        by_contra hunknown
        rw [setting.signatures.parents_eq_nil_of_not_mem_keys hunknown] at hparent
        cases hparent
      resolve_resolves setting (key :: path) parent parentOff walk
  cases hfind : find? setting (walk.request key) (walk.tokenOf key) with
  | some trait =>
      rw [resolve_of_found offPath hfind]
      exact .found hfind
  | none =>
      rw [resolve_of_new offPath hfind]
      rcases hgathered : gather setting.policy (key :: path) _ _ _ _ with ⟨_ | lineage, after⟩
      · rw [hgathered] at hparents
        exact .stopped hfind hparents
      · rw [hgathered] at hparents
        simp only [finish, build]
        split
        · rename_i hconflict
          exact .conflicting hfind hparents hconflict
        · rename_i hconflict
          exact .built hfind hparents hconflict
termination_by setting.signatures.offPath path
decreasing_by exact setting.signatures.offPath_cons_lt hkey offPath

/-! ## The rules leave no choice -/

mutual

theorem Resolves.unique {setting : Setting} {path : List TraitKey} {key : TraitKey}
    {walk after other : Walk} {result otherResult : Except DefineError Trait} :
    Resolves setting path key walk result after →
      Resolves setting path key walk otherResult other → result = otherResult ∧ after = other
  | .found hfind, hother => by
      cases hother with
      | found hfind' =>
          cases hfind.symm.trans hfind'
          exact ⟨rfl, rfl⟩
      | stopped hnew _ => cases hnew.symm.trans hfind
      | conflicting hnew _ _ => cases hnew.symm.trans hfind
      | built hnew _ _ => cases hnew.symm.trans hfind
  | .stopped hnew parents, hother => by
      cases hother with
      | found hfind => cases hnew.symm.trans hfind
      | stopped _ others =>
          obtain ⟨hresult, hafter⟩ := parents.unique others
          exact ⟨by cases hresult; rfl, hafter⟩
      | conflicting _ others _ => cases (parents.unique others).1
      | built _ others _ => cases (parents.unique others).1
  | .conflicting hnew parents hconflict, hother => by
      cases hother with
      | found hfind => cases hnew.symm.trans hfind
      | stopped _ others => cases (parents.unique others).1
      | conflicting _ others hconflict' =>
          obtain ⟨hresult, rfl⟩ := parents.unique others
          cases hresult
          cases hconflict.symm.trans hconflict'
          exact ⟨rfl, rfl⟩
      | built _ others hnone =>
          obtain ⟨hresult, rfl⟩ := parents.unique others
          cases hresult
          cases hconflict.symm.trans hnone
  | .built hnew parents hnone, hother => by
      cases hother with
      | found hfind => cases hnew.symm.trans hfind
      | stopped _ others => cases (parents.unique others).1
      | conflicting _ others hconflict =>
          obtain ⟨hresult, rfl⟩ := parents.unique others
          cases hresult
          cases hconflict.symm.trans hnone
      | built _ others _ =>
          obtain ⟨hresult, rfl⟩ := parents.unique others
          cases hresult
          exact ⟨rfl, rfl⟩

theorem Gathers.unique {setting : Setting} {path parents : List TraitKey} {lineage : Lineage}
    {walk after other : Walk} {result otherResult : Except DefineError Lineage} :
    Gathers setting path parents lineage walk result after →
      Gathers setting path parents lineage walk otherResult other →
        result = otherResult ∧ after = other
  | .done, hother => by
      cases hother
      exact ⟨rfl, rfl⟩
  | .cyclic onPath hpolicy, hother => by
      cases hother with
      | cyclic _ _ => exact ⟨rfl, rfl⟩
      | truncated _ hpolicy' _ => cases hpolicy.symm.trans hpolicy'
      | failed offPath _ => exact absurd onPath offPath
      | added offPath _ _ => exact absurd onPath offPath
  | .truncated onPath hpolicy others, hother => by
      cases hother with
      | cyclic _ hpolicy' => cases hpolicy.symm.trans hpolicy'
      | truncated _ _ others' => exact others.unique others'
      | failed offPath _ => exact absurd onPath offPath
      | added offPath _ _ => exact absurd onPath offPath
  | .failed offPath first, hother => by
      cases hother with
      | cyclic onPath _ => exact absurd onPath offPath
      | truncated onPath _ _ => exact absurd onPath offPath
      | failed _ first' =>
          obtain ⟨hresult, hafter⟩ := first.unique first'
          exact ⟨by cases hresult; rfl, hafter⟩
      | added _ first' _ => cases (first.unique first').1
  | .added offPath first others, hother => by
      cases hother with
      | cyclic onPath _ => exact absurd onPath offPath
      | truncated onPath _ _ => exact absurd onPath offPath
      | failed _ first' => cases (first.unique first').1
      | added _ first' others' =>
          obtain ⟨htrait, rfl⟩ := first.unique first'
          cases htrait
          exact others.unique others'

end

end TraitSystem.Walk
