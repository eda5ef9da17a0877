import TraitSystem.Members.Target
import TraitSystem.Proofs.Table
import Mathlib.Logic.Relation

/-!
# What registrations make of a target

A target changes in two ways: an implementation is stored, of a trait that is not implemented yet
and whose ancestors all are, or a native member is defined (`Change`).  In both cases what was
registered before stays as it was, except that a native may get another body (`Evolves.extends`).

## Strategy

`Target.register` forwards the methods of a trait one after the other.  `find?_forwards_register`
says what all of them together come to; nothing after it looks at the single forwards.
-/

namespace TraitSystem

/-! ## Implementations -/

namespace Implementation

theorem trait_override {implementation result : Implementation} {entries : List (String × Method)}
    (hresult : implementation.override entries = .ok result) :
    result.trait = implementation.trait := by
  induction entries generalizing implementation with
  | nil =>
      cases hresult
      rfl
  | cons entry rest ih =>
      obtain ⟨name, method⟩ := entry
      unfold override at hresult
      split at hresult
      · have hrest := ih hresult
        exact hrest
      · cases hresult

/-- An implementation is one of the trait that it was asked for. -/
theorem trait_ofOverrides {targetName : String} {trait : Trait} {overrides : Overrides}
    {completeness : Completeness} {implementation : Implementation}
    (hresult : ofOverrides targetName trait overrides completeness = .ok implementation) :
    implementation.trait = trait := by
  unfold ofOverrides at hresult
  cases hoverride : (ofDefaults trait).override overrides.entries with
  | error error =>
      rw [hoverride] at hresult
      cases hresult
  | ok built =>
      rw [hoverride] at hresult
      dsimp only at hresult
      split at hresult
      · cases hresult
      · cases hresult
        exact trait_override hoverride

end Implementation

namespace Target

/-! ## Admission -/

/-- A trait is not refused when it is not implemented and all its ancestors are. -/
theorem refusal?_eq_none_iff (target : Target) (targetName : String) (trait : Trait) :
    target.refusal? targetName trait = none ↔
      target.implementations.find? trait.identity = none ∧
        ∀ ancestor ∈ trait.ancestors, target.doesImplement ancestor := by
  unfold refusal?
  rw [← Table.contains_eq_false_iff]
  show (if target.doesImplement trait then _ else _) = none ↔ target.doesImplement trait = false ∧ _
  cases target.doesImplement trait with
  | true => simp
  | false => simp

/-! ## Forwards -/

@[simp] theorem natives_forward (target : Target) (trait : Trait) (name : String) :
    (target.forward trait name).natives = target.natives := by
  unfold forward
  split <;> rfl

@[simp] theorem implementations_forward (target : Target) (trait : Trait) (name : String) :
    (target.forward trait name).implementations = target.implementations := by
  unfold forward
  split <;> rfl

@[simp] theorem order_forward (target : Target) (trait : Trait) (name : String) :
    (target.forward trait name).order = target.order := by
  unfold forward
  split <;> rfl

theorem find?_forwards_forward (target : Target) (trait : Trait) (name other : String) :
    (target.forward trait name).forwards.find? other =
      (target.forwards.find? other).or
        (if name = other ∧ target.natives.find? other = none then some trait else none) := by
  unfold forward hasMember Table.contains
  -- the name stands for a native, or is forwarded already, or is free
  cases hnative : target.natives.find? name with
  | some method =>
      have hno : ¬ (name = other ∧ target.natives.find? other = none) := by
        rintro ⟨rfl, hnone⟩
        rw [hnative] at hnone
        cases hnone
      simp [hno]
  | none =>
      cases hforward : target.forwards.find? name with
      | some known =>
          by_cases hname : name = other
          · subst hname
            simp [hforward]
          · simp [hname]
      | none =>
          by_cases hname : name = other
          · subst hname
            simp [hnative, hforward]
          · simp [hname]

/-- What a single forward keeps, forwarding many names keeps. -/
theorem foldl_forward_keeps {α : Type} (part : Target → α) (trait : Trait)
    (hkeeps : ∀ target name, part (forward target trait name) = part target) (names : List String)
    (target : Target) :
    part (names.foldl (fun target name => target.forward trait name) target) = part target := by
  induction names generalizing target with
  | nil => rfl
  | cons name rest ih => rw [List.foldl_cons, ih, hkeeps]

theorem find?_forwards_foldl_forward (trait : Trait) (names : List String) (target : Target)
    (other : String) :
    (names.foldl (fun target name => target.forward trait name) target).forwards.find? other =
      (target.forwards.find? other).or
        (if other ∈ names ∧ target.natives.find? other = none then some trait else none) := by
  induction names generalizing target with
  | nil => simp
  | cons name rest ih =>
      rw [List.foldl_cons, ih, find?_forwards_forward, natives_forward, Option.or_assoc]
      -- a name that occurs again in the rest is forwarded to the same trait
      by_cases hnative : target.natives.find? other = none
      · by_cases hname : name = other
        · simp [hname, hnative]
        · simp [hname, Ne.symm hname, hnative]
      · simp [hnative]

/-! ## Storing an implementation -/

section Register

variable (target : Target) (implementation : Implementation)

@[simp] theorem natives_register : (target.register implementation).natives = target.natives :=
  foldl_forward_keeps natives _ (natives_forward · _ ·) _ _

@[simp] theorem implementations_register :
    (target.register implementation).implementations =
      target.implementations.insert implementation.trait.identity implementation :=
  foldl_forward_keeps implementations _ (implementations_forward · _ ·) _ _

@[simp] theorem order_register :
    (target.register implementation).order =
      target.order ++ [implementation.trait.identity] :=
  foldl_forward_keeps order _ (order_forward · _ ·) _ _

/-- A trait gets the members it declares, unless they stand for something. -/
theorem find?_forwards_register (name : String) :
    (target.register implementation).forwards.find? name =
      (target.forwards.find? name).or
        (if implementation.trait.declares name ∧ target.natives.find? name = none then
          some implementation.trait else none) := by
  have hdeclares : implementation.trait.declares name ↔
      name ∈ implementation.trait.methods.keys := (Table.mem_keys_iff ..).symm
  simp only [hdeclares]
  exact find?_forwards_foldl_forward implementation.trait _ _ name

end Register

/-- The traits that are listed are those of the implementations. -/
theorem mem_traits_iff (target : Target) (trait : Trait) :
    trait ∈ target.traits ↔ ∃ token implementation,
      target.implementations.find? token = some implementation ∧ implementation.trait = trait := by
  unfold traits
  simp only [List.mem_map, List.mem_filterMap]
  constructor
  · rintro ⟨implementation, ⟨token, -, hfind⟩, htrait⟩
    exact ⟨token, implementation, hfind, htrait⟩
  · rintro ⟨token, implementation, hfind, htrait⟩
    have hplace : token ∈ target.order :=
      (target.mem_order_iff token).mpr (Option.isSome_iff_exists.mpr ⟨implementation, hfind⟩)
    exact ⟨implementation, ⟨token, hplace, hfind⟩, htrait⟩

theorem not_mem_order {target : Target} {token : Token}
    (hnew : target.implementations.find? token = none) : token ∉ target.order := by
  rw [target.mem_order_iff, Table.contains, hnew]
  exact Bool.false_ne_true

theorem traits_register {target : Target} {implementation : Implementation}
    (hnew : target.implementations.find? implementation.trait.identity = none) :
    (target.register implementation).traits = target.traits ++ [implementation.trait] := by
  -- what has a place in the order already is found as before
  have hkept : target.order.filterMap
      (target.implementations.insert implementation.trait.identity implementation).find? =
        target.order.filterMap target.implementations.find? := by
    refine List.filterMap_congr fun token htoken => ?_
    refine Table.find?_insert_of_ne _ _ ?_
    rintro rfl
    exact not_mem_order hnew htoken
  unfold traits
  rw [order_register, implementations_register, List.filterMap_append, hkept, List.map_append]
  simp

/-! ## The two changes -/

/-- A registration that is accepted. -/
inductive Change : Target → Target → Prop
  | register {target : Target} {implementation : Implementation}
      (hnew : target.implementations.find? implementation.trait.identity = none)
      (hancestors : ∀ ancestor ∈ implementation.trait.ancestors, target.doesImplement ancestor) :
      Change target (target.register implementation)
  | defineNative (target : Target) (name : String) (method : Method) :
      Change target (target.defineNative name method)

/-- What any number of registrations make of a target. -/
def Evolves : Target → Target → Prop := Relation.ReflTransGen Change

theorem Evolves.refl (target : Target) : target.Evolves target := Relation.ReflTransGen.refl

theorem Evolves.trans {first second third : Target} (hfirst : first.Evolves second)
    (hsecond : second.Evolves third) : first.Evolves third :=
  Relation.ReflTransGen.trans hfirst hsecond

theorem Change.evolves {old new : Target} (hchange : Change old new) : old.Evolves new :=
  Relation.ReflTransGen.single hchange

/-- Registers an implementation of a trait, if it is admissible.  Here it is asked once whether the
trait can be implemented. -/
def implement (target : Target) (targetName : String) (trait : Trait) (overrides : Overrides)
    (completeness : Completeness) : Except ImplementError Target :=
  match target.refusal? targetName trait with
  | some error => .error error
  | none =>
    match Implementation.ofOverrides targetName trait overrides completeness with
    | .error error => .error error
    | .ok implementation => .ok (target.register implementation)

/-- An accepted implementation is stored as it was built. -/
theorem implement_eq_ok {target after : Target} {targetName : String} {trait : Trait}
    {overrides : Overrides} {completeness : Completeness}
    (hafter : target.implement targetName trait overrides completeness = .ok after) :
    ∃ implementation : Implementation,
      Implementation.ofOverrides targetName trait overrides completeness = .ok implementation ∧
      target.implementations.find? trait.identity = none ∧
      (∀ ancestor ∈ trait.ancestors, target.doesImplement ancestor) ∧
      after = target.register implementation := by
  unfold implement at hafter
  cases hrefusal : target.refusal? targetName trait with
  | some error =>
      rw [hrefusal] at hafter
      cases hafter
  | none =>
      obtain ⟨hnew, hancestors⟩ := (target.refusal?_eq_none_iff targetName trait).mp hrefusal
      rw [hrefusal] at hafter
      cases hbuilt : Implementation.ofOverrides targetName trait overrides completeness with
      | error error =>
          rw [hbuilt] at hafter
          cases hafter
      | ok implementation =>
          rw [hbuilt] at hafter
          cases hafter
          exact ⟨implementation, rfl, hnew, hancestors, rfl⟩

/-! ## Nothing is lost -/

/-- Everything registered for the old target is registered for the new one. -/
structure Extends (old new : Target) : Prop where
  implementations : ∀ token implementation, old.implementations.find? token = some implementation →
    new.implementations.find? token = some implementation
  traits : old.traits <+: new.traits
  forwards : ∀ name trait, old.forwards.find? name = some trait →
    new.forwards.find? name = some trait
  natives : ∀ name, old.natives.contains name → new.natives.contains name

theorem Extends.refl (target : Target) : target.Extends target :=
  ⟨fun _ _ h => h, List.prefix_refl _, fun _ _ h => h, fun _ h => h⟩

theorem Extends.trans {first second third : Target} (hfirst : first.Extends second)
    (hsecond : second.Extends third) : first.Extends third where
  implementations token implementation h :=
    hsecond.implementations token implementation (hfirst.implementations token implementation h)
  traits := hfirst.traits.trans hsecond.traits
  forwards name trait h := hsecond.forwards name trait (hfirst.forwards name trait h)
  natives name h := hsecond.natives name (hfirst.natives name h)

theorem find?_forwards_of_member? {target : Target} {name : String} {trait : Trait}
    (hmember : target.member? name = some (.forward trait)) :
    target.forwards.find? name = some trait := by
  unfold Target.member? at hmember
  split at hmember
  · cases hmember
  · simpa using hmember

/-- A name keeps its trait until a native takes its place. -/
theorem Extends.member? {old new : Target} (hextends : old.Extends new) {name : String}
    {member : Member} (hmember : old.member? name = some member) :
    (∃ method, new.member? name = some (.native method)) ∨
      ∃ trait, member = .forward trait ∧ new.member? name = some (.forward trait) := by
  unfold Target.member? at hmember ⊢
  cases hnative : new.natives.find? name with
  | some method => exact Or.inl ⟨method, rfl⟩
  | none =>
      have hbefore : old.natives.find? name = none := by
        cases hold : old.natives.find? name with
        | none => rfl
        | some method =>
            have hkept := hextends.natives name (Option.isSome_iff_exists.mpr ⟨method, hold⟩)
            rw [Table.contains, hnative] at hkept
            cases hkept
      rw [hbefore] at hmember
      obtain ⟨trait, hforward, rfl⟩ := Option.map_eq_some_iff.mp hmember
      exact Or.inr ⟨trait, rfl, by rw [hextends.forwards name trait hforward]; rfl⟩

/-- A name that stands for anything does so for good. -/
theorem Extends.isSome_member? {old new : Target} (hextends : old.Extends new)
    {name : String} (hmember : (old.member? name).isSome) : (new.member? name).isSome := by
  obtain ⟨member, hbefore⟩ := Option.isSome_iff_exists.mp hmember
  rcases hextends.member? hbefore with ⟨method, hnative⟩ | ⟨trait, -, hforward⟩
  · rw [hnative]
    rfl
  · rw [hforward]
    rfl

theorem Change.extends {old new : Target} (hchange : Change old new) : old.Extends new := by
  cases hchange with
  | @register implementation hnew _ =>
      refine ⟨?_, ?_, ?_, ?_⟩
      · intro token other hother
        rw [implementations_register]
        exact Table.find?_insert_of_find?_eq_none old.implementations implementation hnew hother
      · rw [traits_register hnew]
        exact List.prefix_append _ _
      · intro name trait hforward
        rw [find?_forwards_register, hforward, Option.some_or]
      · intro name hnative
        rw [natives_register]
        exact hnative
  | defineNative name method =>
      refine ⟨fun _ _ h => h, List.prefix_refl _, fun _ _ h => h, ?_⟩
      intro other hnative
      show (old.natives.insert name method).contains other
      rw [Table.contains_insert, hnative, Bool.or_true]

/-- **What is registered for a target stays registered.** -/
theorem Evolves.extends {old new : Target} (hevolves : old.Evolves new) : old.Extends new := by
  induction hevolves with
  | refl => exact Extends.refl old
  | tail _ hchange ih => exact ih.trans hchange.extends

end Target

end TraitSystem
