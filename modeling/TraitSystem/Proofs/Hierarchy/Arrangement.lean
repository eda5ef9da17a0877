import TraitSystem.Proofs.Hierarchy.Declaring
import TraitSystem.Proofs.Hierarchy.Trail

/-!
# The arrangement of a hierarchy

A hierarchy keeps its traits in the order in which they were defined.  Nothing that is asked of it
depends on that order.  The trait that answers for a method is the one with the smallest identity
(`Rearranged.declaring?_eq`).  A definition only looks traits up, so it takes the same walk in every
arrangement (`Rearranged.walk_eq`), and it may commit what the walk has built in any order
(`Rearranged.commit`).
-/

namespace TraitSystem

/-! ## Walks look traits up -/

namespace Walk

variable {setting : Setting} {known : Table Token Trait}

theorem find?_eq_of_known (hknown : ∀ token, known.find? token = setting.known.find? token)
    (walk : Walk) (token : Token) :
    find? { setting with known } walk token = find? setting walk token :=
  congrArg (Option.or · (walk.built.find? token)) (hknown token)

mutual

/-- A walk can be taken wherever the same traits are known. -/
theorem Resolves.of_known (hknown : ∀ token, known.find? token = setting.known.find? token)
    {path : List TraitKey} {key : TraitKey} {walk after : Walk}
    {result : Except DefineError Trait} :
    Resolves setting path key walk result after →
      Resolves { setting with known } path key walk result after
  | .found hfind => .found ((find?_eq_of_known hknown _ _).trans hfind)
  | .stopped hnew parents =>
      .stopped ((find?_eq_of_known hknown _ _).trans hnew) (parents.of_known hknown)
  | .conflicting hnew parents hconflict =>
      .conflicting ((find?_eq_of_known hknown _ _).trans hnew) (parents.of_known hknown) hconflict
  | .built hnew parents hconflict =>
      .built ((find?_eq_of_known hknown _ _).trans hnew) (parents.of_known hknown) hconflict

theorem Gathers.of_known (hknown : ∀ token, known.find? token = setting.known.find? token)
    {path parents : List TraitKey} {lineage : Lineage} {walk after : Walk}
    {result : Except DefineError Lineage} :
    Gathers setting path parents lineage walk result after →
      Gathers { setting with known } path parents lineage walk result after
  | .done => .done
  | .cyclic onPath hpolicy => .cyclic onPath hpolicy
  | .truncated onPath hpolicy others => .truncated onPath hpolicy (others.of_known hknown)
  | .failed offPath first => .failed offPath (first.of_known hknown)
  | .added offPath first others =>
      .added offPath (first.of_known hknown) (others.of_known hknown)

end

end Walk

/-! ## Rearranged hierarchies -/

namespace Hierarchy

/-- Hierarchies that differ in no more than the order of their traits. -/
def Rearranged (first second : Hierarchy) : Prop :=
  second.traits.entries.Perm first.traits.entries

namespace Rearranged

variable {hierarchy rearranged : Hierarchy}

theorem find?_eq (hrearranged : hierarchy.Rearranged rearranged) :
    rearranged.find? = hierarchy.find? :=
  funext fun token => Table.find?_eq_of_perm hrearranged token

theorem mem_values_iff (hrearranged : hierarchy.Rearranged rearranged) (trait : Trait) :
    trait ∈ rearranged.traits.values ↔ trait ∈ hierarchy.traits.values :=
  (hrearranged.map Prod.snd).mem_iff

theorem declaredFirst_iff (hrearranged : hierarchy.Rearranged rearranged) (method : String)
    (trait : Trait) :
    rearranged.DeclaredFirst method trait ↔ hierarchy.DeclaredFirst method trait := by
  have hvalues := hrearranged.mem_values_iff
  constructor
  · intro hfirst
    exact ⟨(hvalues trait).mp hfirst.mem, hfirst.declares, fun other hother =>
      hfirst.least other ((hvalues other).mpr hother)⟩
  · intro hfirst
    exact ⟨(hvalues trait).mpr hfirst.mem, hfirst.declares, fun other hother =>
      hfirst.least other ((hvalues other).mp hother)⟩

/-- **The same trait answers for a method in every arrangement.** -/
theorem declaring?_eq (hrearranged : hierarchy.Rearranged rearranged)
    (hlookup : WellFormedLookup hierarchy.find?) (method : String) :
    rearranged.declaring? method = hierarchy.declaring? method := by
  have hother : WellFormedLookup rearranged.find? := by
    rw [hrearranged.find?_eq]
    exact hlookup
  apply Option.ext
  intro trait
  rw [declaring?_eq_some_iff hother, declaring?_eq_some_iff hlookup,
    hrearranged.declaredFirst_iff]

variable {signatures : Signatures} {policy : CyclePolicy} {key : TraitKey}
  {identities : Identities} {nextSerial : Nat}

/-- A definition takes the same walk in every arrangement. -/
theorem walk_eq (hrearranged : hierarchy.Rearranged rearranged) :
    rearranged.walk signatures policy key identities nextSerial =
      hierarchy.walk signatures policy key identities nextSerial := by
  have hresolves := Walk.resolve_resolves (hierarchy.setting signatures policy) [] key
    List.not_mem_nil (begin key identities nextSerial)
  have hother := Walk.resolve_resolves (rearranged.setting signatures policy) [] key
    List.not_mem_nil (begin key identities nextSerial)
  have hknown (token : Token) : rearranged.traits.find? token =
      (hierarchy.setting signatures policy).known.find? token := congrFun hrearranged.find?_eq token
  -- both follow the same rules, which leave no choice
  exact (hother.unique (hresolves.of_known hknown)).2

/-- **What a walk has built may be committed in any order.** -/
theorem commit (hrearranged : hierarchy.Rearranged rearranged)
    (hnew : hierarchy.find? (identities.ofType (.trait key)).1 = none)
    (hdefined : (hierarchy.define signatures policy key identities nextSerial).result.isOk)
    {scratch : List (Token × Trait)}
    (hscratch : scratch.Perm
      (rearranged.walk signatures policy key identities nextSerial).built.entries) :
    (hierarchy.define signatures policy key identities nextSerial).hierarchy.Rearranged
      ⟨rearranged.traits.insertAll scratch⟩ := by
  obtain ⟨result, walk, hresolves, hdefine⟩ :=
    hierarchy.define_of_new signatures policy key identities nextSerial hnew
  have hwalk : hierarchy.walk signatures policy key identities nextSerial = walk :=
    ((Walk.resolve_resolves _ [] key List.not_mem_nil _).unique hresolves).2
  rw [hdefine] at hdefined ⊢
  rw [hrearranged.walk_eq, hwalk] at hscratch
  cases result with
  | error error => cases hdefined
  | ok trait => exact Table.perm_insertAll hrearranged hscratch

end Rearranged

end Hierarchy

end TraitSystem
