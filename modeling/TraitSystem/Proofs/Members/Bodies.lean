import TraitSystem.Proofs.List
import TraitSystem.Proofs.Members.Coherence
import TraitSystem.Proofs.Members.Forwarding
import TraitSystem.Proofs.Members.Admission

/-!
# The bodies of an implementation

The bodies come from a list of declarations, where methods may be named again and again, and from a
list of overrides that may repeat itself too.  For every method the last override counts, and else
the last declaration (`Implementation.ComposedOf`).

There are bodies for declared methods only (`Implementation.OnlyDeclared`), because overrides of
other methods are refused and only declared methods have a default body.  So completeness can be
decided by comparing two numbers: neither counts anything twice, the methods with a body are among
the declared ones (`Implementation.names_perm`), and they are as many only if they are all of them
(`Implementation.isComplete_iff`).
-/

namespace TraitSystem

/-! ## One implementation -/

theorem Trait.declares_of_default? {trait : Trait} {method : String}
    (hdefault : (trait.default? method).isSome) : trait.declares method := by
  unfold default? at hdefault
  unfold declares Table.contains
  cases hfind : trait.methods.find? method with
  | none =>
      rw [hfind] at hdefault
      cases hdefault
  | some _ => rfl

namespace Implementation

variable {implementation : Implementation}

/-- There are bodies for declared methods only. -/
def OnlyDeclared (implementation : Implementation) : Prop :=
  ∀ method, (implementation.body? method).isSome → implementation.trait.declares method

theorem onlyDeclared_of_ofOverrides {targetName : String} {trait : Trait} {overrides : Overrides}
    {completeness : Completeness}
    (hbuilt : ofOverrides targetName trait overrides completeness = .ok implementation) :
    implementation.OnlyDeclared := by
  obtain rfl := eq_merged_of_ofOverrides hbuilt
  rw [ofOverrides_eq] at hbuilt
  cases hunknown : overrides.keys.find? fun name => !trait.declares name with
  | some name =>
      rw [hunknown] at hbuilt
      cases hbuilt
  | none =>
      -- a body is an override, and all of these are declared, or else a default
      intro method hbody
      rw [body?_merged, Option.isSome_or, Bool.or_eq_true] at hbody
      rcases hbody with hoverride | hdefault
      · have hkey := (overrides.mem_keys_iff method).mpr hoverride
        have hdeclares : trait.declares method := by
          simpa using List.find?_eq_none.mp hunknown method hkey
        exact hdeclares
      · exact Trait.declares_of_default? hdefault

theorem mem_names_iff (method : String) :
    method ∈ implementation.names ↔
      implementation.trait.declares method ∧ (implementation.body? method).isSome := by
  unfold names
  rw [List.mem_filter, Table.mem_keys_iff]
  rfl

/-- The methods with a body are listed once each. -/
theorem names_perm (honly : implementation.OnlyDeclared) :
    implementation.names.Perm implementation.bodies.keys := by
  have hnodup : implementation.names.Nodup := implementation.trait.methods.nodup.filter _
  refine (List.perm_ext_iff_of_nodup hnodup implementation.bodies.nodup).mpr fun method => ?_
  rw [mem_names_iff]
  constructor
  · rintro ⟨-, hbody⟩
    exact (implementation.bodies.mem_keys_iff method).mpr hbody
  · intro hkey
    have hbody := (implementation.bodies.mem_keys_iff method).mp hkey
    exact ⟨honly method hbody, hbody⟩

theorem size_eq_length_names (honly : implementation.OnlyDeclared) :
    implementation.size = implementation.names.length := by
  rw [(names_perm honly).length_eq, Table.length_keys]
  rfl

/-- **Counting the bodies finds a missing one.** -/
theorem isComplete_iff (honly : implementation.OnlyDeclared) :
    implementation.isComplete ↔
      ∀ method, implementation.trait.declares method → (implementation.body? method).isSome := by
  unfold isComplete
  -- as many are left of the declared methods as there are if none is left out for want of a body
  rw [beq_iff_eq, size_eq_length_names honly, ← Table.length_keys, names,
    List.length_filter_eq_length_iff]
  exact forall_congr' fun method => imp_congr_left (Table.mem_keys_iff _ method)

/-- The bodies are what lists of declarations and of overrides come to. -/
structure ComposedOf (declarations : List (String × Option Method))
    (overrides : List (String × Method)) (implementation : Implementation) : Prop where
  /-- The last override of a method counts, and else the default of its last declaration. -/
  body?_eq : ∀ method, implementation.body? method =
    (Table.Entries.latest? method overrides).or (Table.Entries.latest? method declarations).join
  /-- No other method has a body. -/
  declared : ∀ method, (implementation.body? method).isSome → method ∈ declarations.map Prod.fst
  /-- The methods with a body are listed in the order in which they are declared first. -/
  names_eq : implementation.names = (declarations.map Prod.fst).eraseDups.filter fun method =>
    (implementation.body? method).isSome
  mem_names_iff : ∀ method, method ∈ implementation.names ↔ (implementation.body? method).isSome

/-- **The last override counts, and else the last declaration.** -/
theorem composedOf_of_ofOverrides {targetName : String} {trait : Trait}
    {declarations : List (String × Option Method)} {overrides : List (String × Method)}
    {completeness : Completeness} (hmethods : trait.methods = Table.ofList declarations)
    (hbuilt : ofOverrides targetName trait (Table.ofList overrides) completeness =
      .ok implementation) :
    implementation.ComposedOf declarations overrides := by
  have honly := onlyDeclared_of_ofOverrides hbuilt
  have hmerged := eq_merged_of_ofOverrides hbuilt
  have htrait : implementation.trait.methods = Table.ofList declarations := by
    rw [hmerged]
    exact hmethods
  refine ⟨?_, ?_, ?_, ?_⟩
  · intro method
    rw [hmerged, body?_merged, Trait.default?, hmethods, Table.find?_ofList_eq_latest?,
      Table.find?_ofList_eq_latest?]
  · intro method hbody
    have hkey := (Table.mem_keys_iff _ _).mpr (honly method hbody)
    rwa [htrait, Table.mem_keys_ofList] at hkey
  · rw [← Table.keys_ofList, ← htrait]
    rfl
  · intro method
    rw [mem_names_iff]
    exact and_iff_right_of_imp (honly method)

/-- **Overrides may be given in any order**, as long as no two of them are for methods that are not
declared.  Of several such methods the error would name the one that comes first. -/
theorem ofOverrides_of_perm {targetName : String} {trait : Trait}
    {overrides rearranged : Overrides} {completeness : Completeness}
    (hperm : rearranged.entries.Perm overrides.entries)
    (hfew : overrides.keys.countP (fun name => !trait.declares name) ≤ 1) :
    (ofOverrides targetName trait rearranged completeness).map body? =
      (ofOverrides targetName trait overrides completeness).map body? := by
  have hsame := Table.find?_eq_of_perm hperm
  have hunknown : (rearranged.keys.find? fun name => !trait.declares name) =
      overrides.keys.find? fun name => !trait.declares name :=
    find?_eq_of_perm (hperm.map Prod.fst) hfew
  have huncovered : trait.uncovered? rearranged = trait.uncovered? overrides := by
    simp only [Trait.uncovered?, Table.contains, hsame]
  have hbodies : (merged trait rearranged).body? = (merged trait overrides).body? := by
    funext method
    rw [body?_merged, body?_merged, hsame]
  rw [ofOverrides_eq, ofOverrides_eq, hunknown, huncovered]
  cases overrides.keys.find? fun name => !trait.declares name with
  | some name => rfl
  | none =>
      have haccepted : (Except.ok (merged trait rearranged) : Except ImplementError _).map body? =
          (Except.ok (merged trait overrides)).map body? := congrArg Except.ok hbodies
      cases completeness with
      | atFirstCall => exact haccepted
      | atRegistration =>
          cases trait.uncovered? overrides with
          | some method => rfl
          | none => exact haccepted

end Implementation

/-! ## All that is registered -/

namespace Members.Reachable

variable {members : Members} {identity token : Token} {implementation : Implementation}

theorem onlyDeclared (hreachable : members.Reachable)
    (hfind : members.implementation? identity token = some implementation) :
    implementation.OnlyDeclared := by
  obtain ⟨overrides, completeness, hmem⟩ := hreachable.mem_history hfind
  obtain ⟨targetName, built, hbuilt, hbuiltFind⟩ := hreachable.ofOverrides_of_mem_history hmem
  rw [((hreachable.parentFirst identity).own token implementation hfind).1, hfind] at hbuiltFind
  rw [Option.some_inj.mp hbuiltFind]
  exact Implementation.onlyDeclared_of_ofOverrides hbuilt

/-- What had to be complete when it was registered is complete. -/
theorem isComplete_of_mem_history (hreachable : members.Reachable) {trait : Trait}
    {overrides : Overrides}
    (hmem : Registration.implementation identity trait overrides .atRegistration ∈ members.history)
    (hfind : members.implementation? identity trait.identity = some implementation) :
    implementation.isComplete := by
  rw [Implementation.isComplete_iff (hreachable.onlyDeclared hfind)]
  obtain ⟨targetName, built, hbuilt, hbuiltFind⟩ := hreachable.ofOverrides_of_mem_history hmem
  rw [hfind] at hbuiltFind
  obtain rfl := Option.some_inj.mp hbuiltFind
  rw [Implementation.trait_ofOverrides hbuilt]
  exact fun method => hreachable.isSome_body?_of_mem_history hmem hfind

end Members.Reachable

end TraitSystem
