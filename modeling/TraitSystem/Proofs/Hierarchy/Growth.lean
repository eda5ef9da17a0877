import TraitSystem.Proofs.Hierarchy.Derivation
import TraitSystem.Proofs.Identity.Grounded

/-!
# What a definition leaves alone

A walk builds traits only where none is known, so committing what it built replaces nothing:
whatever a hierarchy holds it still holds after a definition (`find?_define`), and asking for a
trait that it holds changes nothing but, perhaps, the name of the trait's token (`define_eq`).
-/

namespace TraitSystem

namespace Walk

/-! ## Identities -/

theorem grows_request (walk : Walk) (key : TraitKey) :
    walk.identities.Grows (walk.request key).identities :=
  Identities.grows_ofType _ _

theorem evolves_request (walk : Walk) (key : TraitKey) :
    walk.identities.Evolves (walk.request key).identities := (walk.grows_request key).evolves

mutual

/-- All tokens that a walk asks for are those of types. -/
theorem Resolves.grows {setting : Setting} {path : List TraitKey} {key : TraitKey}
    {walk after : Walk} {result : Except DefineError Trait} :
    Resolves setting path key walk result after → walk.identities.Grows after.identities
  | .found _ => walk.grows_request key
  | .stopped _ parents => (walk.grows_request key).trans parents.grows
  | .conflicting _ parents _ => (walk.grows_request key).trans parents.grows
  | .built _ parents _ => (walk.grows_request key).trans parents.grows

theorem Gathers.grows {setting : Setting} {path parents : List TraitKey} {lineage : Lineage}
    {walk after : Walk} {result : Except DefineError Lineage} :
    Gathers setting path parents lineage walk result after →
      walk.identities.Grows after.identities
  | .done => Identities.Grows.refl _
  | .cyclic _ _ => Identities.Grows.refl _
  | .truncated _ _ others => others.grows
  | .failed _ first => first.grows
  | .added _ first others => first.grows.trans others.grows

end

theorem Resolves.evolves {setting : Setting} {path : List TraitKey} {key : TraitKey}
    {walk after : Walk} {result : Except DefineError Trait}
    (hresolves : Resolves setting path key walk result after) :
    walk.identities.Evolves after.identities := hresolves.grows.evolves

theorem Gathers.evolves {setting : Setting} {path parents : List TraitKey} {lineage : Lineage}
    {walk after : Walk} {result : Except DefineError Lineage}
    (hgathers : Gathers setting path parents lineage walk result after) :
    walk.identities.Evolves after.identities := hgathers.grows.evolves

/-! ## Known traits -/

/-- Nothing was built that is known. -/
def Fresh (setting : Setting) (walk : Walk) : Prop :=
  ∀ token trait, setting.known.find? token = some trait → walk.built.find? token = none

theorem find?_eq_none {setting : Setting} {walk : Walk} {token : Token} :
    find? setting walk token = none ↔
      setting.known.find? token = none ∧ walk.built.find? token = none := by
  unfold find?
  exact Option.or_eq_none_iff

theorem Fresh.add {setting : Setting} {walk : Walk} (hfresh : Fresh setting walk) {trait : Trait}
    (hnew : setting.known.find? trait.identity = none) : Fresh setting (walk.add trait) := by
  intro token known hknown
  have hne : trait.identity ≠ token := by
    rintro rfl
    rw [hnew] at hknown
    cases hknown
  show (walk.built.insert trait.identity trait).find? token = none
  rw [Table.find?_insert_of_ne _ _ hne]
  exact hfresh token known hknown

mutual

theorem Resolves.fresh {setting : Setting} {path : List TraitKey} {key : TraitKey}
    {walk after : Walk} {result : Except DefineError Trait} :
    Resolves setting path key walk result after → Fresh setting walk → Fresh setting after
  | .found _, hfresh => hfresh
  | .stopped _ parents, hfresh => parents.fresh hfresh
  | .conflicting _ parents _, hfresh => parents.fresh hfresh
  | .built hnew parents _, hfresh => (parents.fresh hfresh).add (find?_eq_none.mp hnew).1

theorem Gathers.fresh {setting : Setting} {path parents : List TraitKey} {lineage : Lineage}
    {walk after : Walk} {result : Except DefineError Lineage} :
    Gathers setting path parents lineage walk result after → Fresh setting walk →
      Fresh setting after
  | .done, hfresh => hfresh
  | .cyclic _ _, hfresh => hfresh
  | .truncated _ _ others, hfresh => others.fresh hfresh
  | .failed _ first, hfresh => first.fresh hfresh
  | .added _ first others, hfresh => others.fresh (first.fresh hfresh)

end

/-- What resolving answers is found afterwards. -/
theorem Resolves.finds_answer {setting : Setting} {path : List TraitKey} {key : TraitKey}
    {walk after : Walk} {trait : Trait}
    (hresolves : Resolves setting path key walk (.ok trait) after) :
    ∃ token, find? setting after token = some trait := by
  cases hresolves with
  | found hfind => exact ⟨_, hfind⟩
  | built hnew _ _ =>
      refine ⟨walk.tokenOf key, ?_⟩
      show (setting.known.find? (walk.tokenOf key)).or (Table.find? (Table.insert _ _ _) _) = _
      rw [(find?_eq_none.mp hnew).1, Option.none_or]
      exact Table.find?_insert_self ..

end Walk

/-! ## Definitions -/

/-- Where something read of a result fails, the result does. -/
theorem eq_error_of_map {α β ε : Type} {result : Except ε α} {read : α → β} {error : ε}
    (hread : result.map read = .error error) : result = .error error := by
  cases result with
  | ok a => cases hread
  | error other =>
      cases hread
      rfl

namespace Hierarchy

/-- What does not change while a trait is defined. -/
def setting (hierarchy : Hierarchy) (signatures : Signatures) (policy : CyclePolicy) : Setting where
  signatures := signatures
  policy := policy
  known := hierarchy.traits

/-- The walk with which a definition begins, when the identity of the trait has been asked for. -/
def begin (key : TraitKey) (identities : Identities) (nextSerial : Nat) : Walk where
  identities := (identities.ofType (.trait key)).2
  nextSerial := nextSerial

/-- The hierarchy with all traits that a walk built. -/
def commit (hierarchy : Hierarchy) (walk : Walk) : Hierarchy :=
  ⟨hierarchy.traits.insertAll walk.built.entries⟩

variable (hierarchy : Hierarchy) (signatures : Signatures) (policy : CyclePolicy) (key : TraitKey)
  (identities : Identities) (nextSerial : Nat)

/-- Asking for a trait that the hierarchy holds. -/
theorem define_of_found {trait : Trait}
    (hfind : hierarchy.find? (identities.ofType (.trait key)).1 = some trait) :
    hierarchy.define signatures policy key identities nextSerial =
      { result := .ok trait, hierarchy, identities := (identities.ofType (.trait key)).2,
        nextSerial } := by
  unfold define
  cases htoken : identities.ofType (.trait key) with
  | mk token requested =>
      rw [htoken] at hfind
      simp only [hfind]

/-- Asking for a trait that the hierarchy does not hold takes a walk, whose traits are committed if
it succeeds. -/
theorem define_of_new (hnew : hierarchy.find? (identities.ofType (.trait key)).1 = none) :
    ∃ result walk,
      Walk.Resolves (hierarchy.setting signatures policy) [] key (begin key identities nextSerial)
        result walk ∧
      hierarchy.define signatures policy key identities nextSerial =
        { result, identities := walk.identities, nextSerial := walk.nextSerial,
          hierarchy := match result with
            | .ok _ => hierarchy.commit walk
            | .error _ => hierarchy } := by
  refine ⟨_, _, Walk.resolve_resolves (hierarchy.setting signatures policy) [] key
    List.not_mem_nil (begin key identities nextSerial), ?_⟩
  unfold define begin setting
  cases htoken : identities.ofType (.trait key) with
  | mk token requested =>
      rw [htoken] at hnew
      simp only [hnew]
      cases hresolve : Walk.resolve
          { signatures := signatures, policy := policy, known := hierarchy.traits } [] key
          List.not_mem_nil { identities := requested, nextSerial := nextSerial } with
      | mk result walk => cases result <;> rfl

theorem fresh_begin : Walk.Fresh (hierarchy.setting signatures policy)
    (begin key identities nextSerial) := by
  intro token trait hknown
  rfl

/-- A definition begins by finding what the hierarchy holds. -/
theorem find?_begin : Walk.find? (hierarchy.setting signatures policy)
    (begin key identities nextSerial) = hierarchy.find? := by
  funext token
  exact Option.or_none

/-- What a hierarchy holds after a walk is committed is what the walk finds. -/
theorem find?_commit {walk : Walk} (hfresh : Walk.Fresh (hierarchy.setting signatures policy) walk)
    (token : Token) :
    (hierarchy.commit walk).find? token =
      Walk.find? (hierarchy.setting signatures policy) walk token := by
  unfold commit find? Walk.find? setting
  rw [Table.find?_insertAll]
  cases hknown : hierarchy.traits.find? token with
  | none => simp
  | some trait => simp [hfresh token trait hknown]

theorem grows_define :
    identities.Grows
      (hierarchy.define signatures policy key identities nextSerial).identities := by
  cases hfind : hierarchy.find? (identities.ofType (.trait key)).1 with
  | some trait =>
      rw [hierarchy.define_of_found signatures policy key identities nextSerial hfind]
      exact identities.grows_ofType _
  | none =>
      obtain ⟨result, walk, hresolves, hdefine⟩ :=
        hierarchy.define_of_new signatures policy key identities nextSerial hfind
      rw [hdefine]
      exact (identities.grows_ofType _).trans hresolves.grows

theorem evolves_define :
    identities.Evolves (hierarchy.define signatures policy key identities nextSerial).identities :=
  (hierarchy.grows_define signatures policy key identities nextSerial).evolves

/-- **A definition replaces nothing.** -/
theorem find?_define {token : Token} {trait : Trait} (hfind : hierarchy.find? token = some trait) :
    (hierarchy.define signatures policy key identities nextSerial).hierarchy.find? token =
      some trait := by
  cases hown : hierarchy.find? (identities.ofType (.trait key)).1 with
  | some own =>
      rw [hierarchy.define_of_found signatures policy key identities nextSerial hown]
      exact hfind
  | none =>
      obtain ⟨result, walk, hresolves, hdefine⟩ :=
        hierarchy.define_of_new signatures policy key identities nextSerial hown
      rw [hdefine]
      cases result with
      | error error => exact hfind
      | ok new =>
          have hfresh := hresolves.fresh (hierarchy.fresh_begin _ _ _ _ _)
          show (hierarchy.commit walk).find? token = _
          rw [hierarchy.find?_commit signatures policy hfresh, Walk.find?]
          show (hierarchy.find? token).or _ = _
          rw [hfind, Option.some_or]

/-- The trait that a definition answers is in the hierarchy afterwards. -/
theorem mem_values_define {trait : Trait}
    (hresult : (hierarchy.define signatures policy key identities nextSerial).result = .ok trait) :
    trait ∈
      (hierarchy.define signatures policy key identities nextSerial).hierarchy.traits.values := by
  rw [Table.mem_values_iff]
  cases hfind : hierarchy.find? (identities.ofType (.trait key)).1 with
  | some known =>
      rw [hierarchy.define_of_found signatures policy key identities nextSerial hfind] at hresult ⊢
      cases hresult
      exact ⟨_, hfind⟩
  | none =>
      obtain ⟨result, walk, hresolves, hdefine⟩ :=
        hierarchy.define_of_new signatures policy key identities nextSerial hfind
      have hfresh := hresolves.fresh (hierarchy.fresh_begin _ _ _ _ _)
      rw [hdefine] at hresult ⊢
      cases hresult
      obtain ⟨token, htoken⟩ := hresolves.finds_answer
      exact ⟨token, (hierarchy.find?_commit signatures policy hfresh token).trans htoken⟩

/-- Asking again for a trait that is defined gives the same trait. -/
theorem define_eq {token : Token} {trait : Trait}
    (htoken : identities.find? (.type (.trait key)) = some token)
    (hfind : hierarchy.find? token = some trait) :
    hierarchy.define signatures policy key identities nextSerial =
      { result := .ok trait, hierarchy, identities := (identities.ofType (.trait key)).2,
        nextSerial } := by
  refine hierarchy.define_of_found signatures policy key identities nextSerial ?_
  have hsame : (identities.ofType (.trait key)).1 = token := by
    unfold Identities.ofType Identities.ofValueType
    rw [htoken]
  rw [hsame]
  exact hfind

end Hierarchy

end TraitSystem
