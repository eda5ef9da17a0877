import TraitSystem.Proofs.Table
import TraitSystem.Hierarchy.Walk
import Mathlib.Logic.Relation

/-!
# What signatures say about traits

As long as signatures stay as they are they give traits a graph: every trait `Extends` its parents,
and has as its `Ancestor`s what can be reached along parents.  `Definable` says of a trait that
nothing below it in this graph stands in the way of its definition, and `Explains` what an error
tells about the graph.  None of this mentions walks, hierarchies or tokens.

The methods that a signature declares are built anew for every definition.  What does not depend on
when they are built is their `shape`.
-/

namespace TraitSystem

/-! ## The graph of a set of signatures -/

namespace Signatures

variable (signatures : Signatures)

/-- A trait has another one among its parents. -/
def Extends (key parent : TraitKey) : Prop := parent ∈ (signatures.get key).parents

/-- A trait extends another one, directly or by way of others. -/
def Ancestor (key ancestor : TraitKey) : Prop :=
  Relation.TransGen signatures.Extends key ancestor

/-- A trait is another one or extends it. -/
def Reaches (key other : TraitKey) : Prop := Relation.ReflTransGen signatures.Extends key other

/-- A trait declares a method. -/
def Declares (key : TraitKey) (method : String) : Prop :=
  method ∈ (signatures.get key).declarations.map Prod.fst

instance (key : TraitKey) (method : String) : Decidable (signatures.Declares key method) :=
  inferInstanceAs (Decidable (method ∈ _))

/-- No trait below the given one extends itself, and none declares a method of its ancestors. -/
structure Definable (key : TraitKey) : Prop where
  acyclic : ∀ below, signatures.Reaches key below → ¬ signatures.Ancestor below below
  unshadowed : ∀ below, signatures.Reaches key below → ∀ method,
    signatures.Declares below method → ∀ ancestor, signatures.Ancestor below ancestor →
      ¬ signatures.Declares ancestor method

/-- What an error says about the traits below the one that was to be defined. -/
def Explains (key : TraitKey) : DefineError → Prop
  | .cyclicAncestry _ _ => ∃ below, signatures.Reaches key below ∧ signatures.Ancestor below below
  | .conflictingMethod method trait ancestorName => ∃ below ancestor,
      signatures.Reaches key below ∧ below.name = trait ∧ signatures.Declares below method ∧
        signatures.Ancestor below ancestor ∧ ancestor.name = ancestorName ∧
          signatures.Declares ancestor method

variable {signatures}

theorem Extends.ancestor {key parent : TraitKey} (hextends : signatures.Extends key parent) :
    signatures.Ancestor key parent := Relation.TransGen.single hextends

theorem Ancestor.reaches {key ancestor : TraitKey} (hancestor : signatures.Ancestor key ancestor) :
    signatures.Reaches key ancestor := hancestor.to_reflTransGen

theorem Reaches.refl (key : TraitKey) : signatures.Reaches key key := Relation.ReflTransGen.refl

theorem Reaches.trans {first second third : TraitKey} (hfirst : signatures.Reaches first second)
    (hsecond : signatures.Reaches second third) : signatures.Reaches first third :=
  Relation.ReflTransGen.trans hfirst hsecond

theorem Ancestor.trans_reaches {first second third : TraitKey}
    (hfirst : signatures.Ancestor first second) (hsecond : signatures.Reaches second third) :
    signatures.Ancestor first third := Relation.TransGen.trans_left hfirst hsecond

theorem reaches_iff {key other : TraitKey} :
    signatures.Reaches key other ↔ other = key ∨ signatures.Ancestor key other :=
  Relation.reflTransGen_iff_eq_or_transGen

/-- An ancestor is a parent or is reached from one. -/
theorem ancestor_iff_parent {key ancestor : TraitKey} :
    signatures.Ancestor key ancestor ↔
      ∃ parent ∈ (signatures.get key).parents, signatures.Reaches parent ancestor :=
  Relation.TransGen.head'_iff

/-- What is above a trait is above its parents. -/
theorem ancestor_of_parent {key : TraitKey} {path : List TraitKey}
    (habove : ∀ above ∈ path, signatures.Ancestor above key) :
    ∀ above ∈ key :: path, ∀ parent ∈ (signatures.get key).parents,
      signatures.Ancestor above parent := by
  intro above hmem parent hparent
  have hstep : signatures.Ancestor key parent := Extends.ancestor hparent
  rcases List.mem_cons.mp hmem with rfl | hrest
  · exact hstep
  · exact (habove above hrest).trans_reaches hstep.reaches

/-- An error explains why a trait is not definable. -/
theorem Explains.not_definable {key : TraitKey} {error : DefineError}
    (hexplains : signatures.Explains key error) : ¬ signatures.Definable key := by
  intro hdefinable
  cases error with
  | cyclicAncestry trait chain =>
      obtain ⟨below, hbelow, hcycle⟩ := hexplains
      exact hdefinable.acyclic below hbelow hcycle
  | conflictingMethod method trait ancestorName =>
      obtain ⟨below, ancestor, hbelow, -, hdeclares, hancestor, -, hshadowed⟩ := hexplains
      exact hdefinable.unshadowed below hbelow method hdeclares ancestor hancestor hshadowed

theorem Explains.of_reaches {key below : TraitKey} {error : DefineError}
    (hreaches : signatures.Reaches key below) (hexplains : signatures.Explains below error) :
    signatures.Explains key error := by
  cases error with
  | cyclicAncestry trait chain =>
      obtain ⟨other, hother, hcycle⟩ := hexplains
      exact ⟨other, hreaches.trans hother, hcycle⟩
  | conflictingMethod method trait ancestorName =>
      obtain ⟨other, ancestor, hother, hrest⟩ := hexplains
      exact ⟨other, ancestor, hreaches.trans hother, hrest⟩

end Signatures

/-! ## The shape of methods -/

/-- The names of methods in order, and whether they have default bodies. -/
def Declarations.shape (methods : Declarations) : List (String × Bool) :=
  methods.entries.map (Prod.map id Option.isSome)

/-- The shape of the methods that a signature declares. -/
def Signature.shape (signature : Signature) : List (String × Bool) :=
  (Table.ofList (signature.declarations.map (Prod.map id Option.isSome))).entries

theorem Declarations.map_fst_shape (methods : Declarations) :
    methods.shape.map Prod.fst = methods.keys := by
  simp [shape, Table.keys]

/-- Building methods adds bodies and numbers to what is declared. -/
theorem Signature.shape_methods (signature : Signature) (serial : Nat) :
    (signature.methods serial).shape = signature.shape := by
  unfold Declarations.shape methods shape
  rw [← Table.entries_ofList_map, List.map_map]
  have hdrop : (Prod.map id Option.isSome ∘ fun (entry : (String × Option Body) × Nat) =>
      (entry.1.1, entry.1.2.map fun body => (⟨entry.2, body⟩ : Method))) =
        Prod.map id Option.isSome ∘ Prod.fst := by
    funext entry
    simp [Prod.map]
  calc (Table.ofList ((signature.declarations.zipIdx serial).map _)).entries
      = (Table.ofList ((signature.declarations.zipIdx serial).map
          (Prod.map id Option.isSome ∘ Prod.fst))).entries := by rw [← hdrop]
    _ = (Table.ofList (signature.declarations.map (Prod.map id Option.isSome))).entries := by
        rw [← List.map_map, List.zipIdx_map_fst]

theorem Signature.mem_map_fst_shape (signature : Signature) (method : String) :
    method ∈ signature.shape.map Prod.fst ↔ method ∈ signature.declarations.map Prod.fst := by
  have hkeys := Table.mem_keys_ofList
    (signature.declarations.map (Prod.map id Option.isSome)) method
  rw [List.map_map] at hkeys
  exact hkeys

end TraitSystem
