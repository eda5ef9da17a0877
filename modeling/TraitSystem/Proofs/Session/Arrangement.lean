import TraitSystem.Proofs.Hierarchy.Arrangement
import TraitSystem.Proofs.Identity.Counting
import TraitSystem.Proofs.Members.Bodies
import TraitSystem.Proofs.Members.Separate
import TraitSystem.Proofs.Session.Registrations

/-!
# Nothing depends on the arrangement of tables

The tables of a session keep their entries in the order in which these came.  Where all entries of a
table are gone through, in search of something or to count them, the answer is the same in every
order (`unordered_of_reachable`).  For traits this is because none of them shares its identity with
another, for overrides because no method has two, and for what a definition commits because it
builds only what the hierarchy does not hold.
-/

namespace TraitSystem

/-- The table whose entries stand the other way round. -/
def Table.reversed {κ α : Type} (table : Table κ α) : Table κ α where
  entries := table.entries.reverse
  nodup := by
    rw [List.map_reverse, List.nodup_reverse]
    exact table.nodup

namespace Session

/-- **What is gone through may be gone through in any order**, in every session there can be. -/
theorem unordered_of_reachable {session : Session} (hreachable : session.Reachable)
    (id : RegistryId) :
    let hierarchy := (session.registry id).hierarchy
    let members := (session.registry id).members
    (∀ rearranged, hierarchy.Rearranged rearranged →
        (∀ method, rearranged.declaring? method = hierarchy.declaring? method) ∧
        ∀ signatures policy key nextSerial scratch,
          let defined := hierarchy.define signatures policy key session.identities nextSerial
          hierarchy.find? (session.identities.ofType (.trait key)).1 = none →
            defined.result.isOk →
            scratch.Perm (rearranged.walk signatures policy key session.identities
              nextSerial).built.entries →
            defined.hierarchy.Rearranged ⟨rearranged.traits.insertAll scratch⟩) ∧
      (∀ targetName (trait : Trait) completeness (overrides rearranged : Overrides),
        rearranged.entries.Perm overrides.entries →
          overrides.keys.countP (fun name => !trait.declares name) ≤ 1 →
          (Implementation.ofOverrides targetName trait rearranged completeness).map
              Implementation.body? =
            (Implementation.ofOverrides targetName trait overrides completeness).map
              Implementation.body?) ∧
      (∀ (tokens : Table Referent Token) (bases : List Token),
        tokens.entries.Perm session.identities.tokens.entries → bases.Nodup →
          (∀ base args token, session.identities.find? (.application base args) = some token →
            base ∈ bases) →
          let kinds := tokens.keys.map Referent.base?
          kinds.count none + (bases.map fun base => kinds.count (some base)).sum =
            session.identities.size) ∧
      ∀ targets, targets.entries.Perm members.targets.entries →
        ({ members with targets } : Members).size = members.size := by
  intro hierarchy members
  refine ⟨?_, ?_, ?_, ?_⟩
  · intro rearranged hrearranged
    refine ⟨hrearranged.declaring?_eq (hreachable.hierarchy id).wellFormedLookup, ?_⟩
    intro signatures policy key nextSerial scratch defined hnew hdefined hscratch
    exact hrearranged.commit hnew hdefined hscratch
  · intro targetName trait completeness overrides rearranged hperm hfew
    exact Implementation.ofOverrides_of_perm hperm hfew
  · intro tokens bases hperm hnodup hbases
    exact session.identities.count_add_sum_count hperm hnodup hbases
  · intro targets hperm
    have hrearranged : members.Rearranged { members with targets } := ⟨hperm, List.Perm.refl _⟩
    exact hrearranged.size_eq.1

/-- A session with applications of two bases, with two traits that declare `area` and are
implemented for different types, and with one still to be defined after another one. -/
def jumbled : Session :=
  let key := Hierarchy.customKey
  let prepared := (((start []).after (.identify .unit)).after (.identify .bool) |>.after
    (.identifyGeneric .bool [.token ⟨1⟩])).after (.identifyGeneric .unit [.named "x"])
  let declared := (prepared.after (.declare (key "Figure") ⟨[], [("area", none)]⟩)).after
    (.declare (key "Shape") ⟨[], [("area", none)]⟩) |>.after
    (.declare (key "Solid") ⟨[key "Base", key "Shape"], [("edge", none), ("volume", none)]⟩)
  (declared.adopt .shared .shared (key "Figure") ⟨2⟩).adopt .shared .shared (key "Shape") ⟨1⟩

/-- All tables are turned around.  The same trait answers for `area`, the traits that a definition
builds are committed to the same effect, the one override that is not declared is found, and the
numbers are the same. -/
theorem unordered_of_reachable_jumbled :
    let key := Hierarchy.customKey "Solid"
    let registry := jumbled.registry .shared
    let turned : Hierarchy := ⟨registry.hierarchy.traits.reversed⟩
    let built := (turned.walk jumbled.signatures .reject key jumbled.identities
      jumbled.nextSerial).built
    let defined := registry.hierarchy.define jumbled.signatures .reject key jumbled.identities
      jumbled.nextSerial
    let stub : Body := .untyped (.value .unit)
    let overrides : Overrides :=
      Table.ofList [("volume", ⟨70, stub⟩), ("weight", ⟨71, stub⟩), ("edge", ⟨72, stub⟩)]
    let kinds := jumbled.identities.tokens.reversed.keys.map Referent.base?
    jumbled.Reachable ∧
      turned.traits.values.map Trait.name = ["Shape", "Figure"] ∧
      (registry.hierarchy.declaring? "area").map Trait.name = some "Figure" ∧
      turned.declaring? "area" = registry.hierarchy.declaring? "area" ∧
      built.values.map Trait.name = ["Base", "Solid"] ∧
      defined.hierarchy.Rearranged ⟨turned.traits.insertAll built.reversed.entries⟩ ∧
      (∃ trait ∈ defined.hierarchy.traits.values,
        (Implementation.ofOverrides "unit" trait overrides .atRegistration).map
            Implementation.body? = .error (.unknownMethod "weight" "Solid") ∧
          (Implementation.ofOverrides "unit" trait overrides.reversed .atRegistration).map
            Implementation.body? = .error (.unknownMethod "weight" "Solid")) ∧
      kinds.count none + ([⟨2⟩, ⟨1⟩].map fun base => kinds.count (some base)).sum = 6 ∧
      ({ registry.members with targets := registry.members.targets.reversed } : Members).size =
        registry.members.size := by
  intro key registry turned built defined stub overrides kinds
  have hreachable : jumbled.Reachable := by
    iterate 2 refine Reachable.adopt ?_ _ _ _ _
    iterate 7 refine Reachable.after ?_ _
    exact reachable_start []
  obtain ⟨htraits, hoverrides, htokens, htargets⟩ := unordered_of_reachable hreachable .shared
  obtain ⟨hdeclaring, hcommit⟩ := htraits turned (List.reverse_perm _)
  have hnew : (registry.hierarchy.find? (jumbled.identities.ofType (.trait key)).1).isNone := by
    decide +kernel
  have hdefined : defined.result.isOk := by decide +kernel
  obtain ⟨trait, htrait, hfew, hunknown⟩ :
      ∃ trait ∈ defined.hierarchy.traits.values,
        overrides.keys.countP (fun name => !trait.declares name) ≤ 1 ∧
          (overrides.keys.find? fun name => !trait.declares name).map (·, trait.name) =
            some ("weight", "Solid") := by
    decide +kernel
  have herror : (Implementation.ofOverrides "unit" trait overrides .atRegistration).map
      Implementation.body? = .error (.unknownMethod "weight" "Solid") := by
    obtain ⟨name, hname, hsame⟩ := Option.map_eq_some_iff.mp hunknown
    obtain ⟨rfl, htraitName⟩ := Prod.mk.inj hsame
    rw [Implementation.ofOverrides_eq, hname, ← htraitName]
    rfl
  have hbases : ∀ entry ∈ jumbled.identities.tokens.entries, ∀ base ∈ entry.1.base?,
      base ∈ [(⟨2⟩ : Token), ⟨1⟩] := by
    decide +kernel
  refine ⟨hreachable, by decide +kernel, by decide +kernel, hdeclaring "area", by decide +kernel,
    hcommit _ _ _ _ _ (Option.isNone_iff_eq_none.mp hnew) hdefined (List.reverse_perm _),
    ⟨trait, htrait, herror, ?_⟩, ?_, htargets _ (List.reverse_perm _)⟩
  · rw [← herror]
    exact hoverrides _ _ _ _ _ (List.reverse_perm _) hfew
  · have hsize : jumbled.identities.size = 6 := by decide +kernel
    rw [← hsize]
    refine htokens jumbled.identities.tokens.reversed _ (List.reverse_perm _) (by decide) ?_
    intro base args token hfind
    exact hbases _ ((Table.mem_entries_iff _ _ _).mpr hfind) base rfl

end Session

end TraitSystem
