import TraitSystem.Proofs.Hierarchy.Reachable
import TraitSystem.Proofs.Hierarchy.Portrait
import Mathlib.Data.List.Chain

/-!
# The path of a walk

A walk gets from one trait to the next along an edge to a parent, and it never goes to a trait that
is on its path.  So the path is always a `Trail`: it leads from the trait at which the walk began to
the one that is being built, every trait on it is a parent of the one before, and none is on it
twice.  The trail that leads to a trait is recorded when the signature of the trait is read
(`Walk.expansions`).

Paths have their end in front, and so have trails.
-/

namespace TraitSystem

variable {signatures : Signatures} {start : TraitKey}

/-- A way along parents from a trait to another one, without repetition. -/
inductive Signatures.Trail (signatures : Signatures) (start : TraitKey) : List TraitKey → Prop
  | start : Trail signatures start [start]
  | step {key parent : TraitKey} {path : List TraitKey} (htrail : Trail signatures start (key :: path))
      (hextends : signatures.Extends key parent) (offPath : parent ∉ key :: path) :
      Trail signatures start (parent :: key :: path)

namespace Signatures.Trail

variable {path : List TraitKey}

theorem nodup (htrail : signatures.Trail start path) : path.Nodup := by
  induction htrail with
  | start => exact List.nodup_singleton start
  | step _ _ offPath ih => exact ih.cons offPath

/-- Everything on a trail is reached from where it began. -/
theorem reaches (htrail : signatures.Trail start path) :
    ∀ other ∈ path, signatures.Reaches start other := by
  induction htrail with
  | start =>
      intro other hother
      rw [List.mem_singleton.mp hother]
      exact Reaches.refl start
  | step _ hextends _ ih =>
      intro other hother
      rcases List.mem_cons.mp hother with rfl | hrest
      · exact (ih _ List.mem_cons_self).trans hextends.ancestor.reaches
      · exact ih other hrest

/-- Turned around, a trail goes from trait to parent. -/
theorem isChain_reverse (htrail : signatures.Trail start path) :
    List.IsChain signatures.Extends path.reverse := by
  rw [List.isChain_reverse]
  induction htrail with
  | start => exact List.isChain_singleton start
  | step _ hextends _ ih => exact List.isChain_cons_cons.mpr ⟨hextends, ih⟩

theorem head?_reverse (htrail : signatures.Trail start path) :
    path.reverse.head? = some start := by
  rw [List.head?_reverse]
  induction htrail with
  | start => rfl
  | step _ _ _ ih =>
      rw [List.getLast?_cons_cons]
      exact ih

/-- A trait that the front extends may be put on a trail, unless it is on it. -/
theorem extend {parent : TraitKey} (htrail : signatures.Trail start path)
    (hextends : ∀ front ∈ path.head?, signatures.Extends front parent) (offPath : parent ∉ path) :
    signatures.Trail start (parent :: path) := by
  cases htrail with
  | start => exact .step .start (hextends start rfl) offPath
  | step htrail hstep hoff => exact .step (.step htrail hstep hoff) (hextends _ rfl) offPath

end Signatures.Trail

/-- The trait in front of a path extends all traits of a list. -/
def Signatures.FrontExtends (signatures : Signatures) (path parents : List TraitKey) : Prop :=
  ∀ front ∈ path.head?, ∀ parent ∈ parents, signatures.Extends front parent

namespace Signatures.FrontExtends

variable {path rest : List TraitKey} {parent : TraitKey}

theorem parents (key : TraitKey) (path : List TraitKey) :
    signatures.FrontExtends (key :: path) (signatures.get key).parents := by
  intro front hfront other hother
  cases hfront
  exact hother

theorem head (hextends : signatures.FrontExtends path (parent :: rest)) :
    ∀ front ∈ path.head?, signatures.Extends front parent := fun front hfront =>
  hextends front hfront parent List.mem_cons_self

theorem tail (hextends : signatures.FrontExtends path (parent :: rest)) :
    signatures.FrontExtends path rest := fun front hfront other hother =>
  hextends front hfront other (List.mem_cons_of_mem _ hother)

end Signatures.FrontExtends

namespace Walk

variable {setting : Setting}

/-! ## What is recorded -/

mutual

/-- A walk forgets none of the paths that it has followed. -/
theorem Resolves.expansions {path : List TraitKey} {key : TraitKey} {walk after : Walk}
    {result : Except DefineError Trait} :
    Resolves setting path key walk result after → walk.expansions ⊆ after.expansions
  | .found _ => List.Subset.refl _
  | .stopped _ parents => List.Subset.trans (List.subset_append_left _ _) parents.expansions
  | .conflicting _ parents _ => List.Subset.trans (List.subset_append_left _ _) parents.expansions
  | .built _ parents _ => List.Subset.trans (List.subset_append_left _ _) parents.expansions

theorem Gathers.expansions {path parents : List TraitKey} {lineage : Lineage}
    {walk after : Walk} {result : Except DefineError Lineage} :
    Gathers setting path parents lineage walk result after → walk.expansions ⊆ after.expansions
  | .done => List.Subset.refl _
  | .cyclic _ _ => List.Subset.refl _
  | .truncated _ _ others => others.expansions
  | .failed _ first => first.expansions
  | .added _ first others => List.Subset.trans first.expansions others.expansions

end

end Walk

/-! ## The walk of a definition -/

/-- The walk that a definition takes if the hierarchy does not hold the trait. -/
def Hierarchy.walk (hierarchy : Hierarchy) (signatures : Signatures) (policy : CyclePolicy)
    (key : TraitKey) (identities : Identities) (nextSerial : Nat) : Walk :=
  (Walk.resolve (hierarchy.setting signatures policy) [] key List.not_mem_nil
    (begin key identities nextSerial)).2

/-- What a definition comes to that takes a walk is what the walk comes to. -/
theorem Hierarchy.define_resolves (hierarchy : Hierarchy) (signatures : Signatures)
    (policy : CyclePolicy) (key : TraitKey) (identities : Identities) (nextSerial : Nat)
    (hnew : hierarchy.find? (identities.ofType (.trait key)).1 = none) :
    let defined := hierarchy.define signatures policy key identities nextSerial
    let walk := hierarchy.walk signatures policy key identities nextSerial
    Walk.Resolves (hierarchy.setting signatures policy) [] key (begin key identities nextSerial)
        defined.result walk ∧
      defined.identities = walk.identities := by
  intro defined walk
  obtain ⟨result, other, hresolves, hdefine⟩ :=
    hierarchy.define_of_new signatures policy key identities nextSerial hnew
  obtain ⟨-, hwalk⟩ := hresolves.unique (Walk.resolve_resolves (hierarchy.setting signatures policy)
    [] key List.not_mem_nil (begin key identities nextSerial))
  have hdefined : defined = _ := hdefine
  rw [hdefined, show walk = other from hwalk.symm]
  exact ⟨hresolves, rfl⟩

end TraitSystem
