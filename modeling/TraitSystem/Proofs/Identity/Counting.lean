import TraitSystem.Identity
import TraitSystem.Proofs.Table
import Mathlib.Algebra.BigOperators.Group.Finset.Basic

/-!
# Counting tokens

Instead of all tokens at once one may count those of types, and for every base those of its
applications.  The numbers add up, whatever the order in which the tokens are kept and in which the
bases are gone through (`Identities.count_add_sum_count`).
-/

namespace TraitSystem

/-- What a referent is an application of, if it is one. -/
def Referent.base? : Referent → Option Token
  | .type _ => none
  | .application base _ => some base

/-- **Types and the applications of every base make up all tokens.** -/
theorem Identities.count_add_sum_count (ids : Identities) {rearranged : Table Referent Token}
    (hperm : rearranged.entries.Perm ids.tokens.entries) {bases : List Token}
    (hnodup : bases.Nodup)
    (hbases : ∀ base args token, ids.find? (.application base args) = some token → base ∈ bases) :
    let kinds := rearranged.keys.map Referent.base?
    kinds.count none + (bases.map fun base => kinds.count (some base)).sum = ids.size := by
  intro kinds
  -- every token is of one of these kinds, and none of them is listed twice
  have hdistinct : (none :: bases.map some).Nodup := by
    refine List.nodup_cons.mpr ⟨by simp, ?_⟩
    exact hnodup.map (Option.some_injective _)
  have hkinds : ∀ kind ∈ kinds, kind ∈ (none :: bases.map some).toFinset := by
    intro kind hkind
    obtain ⟨referent, hreferent, rfl⟩ := List.mem_map.mp hkind
    cases referent with
    | type _ => simp [Referent.base?]
    | application base args =>
        obtain ⟨token, htoken⟩ := Option.isSome_iff_exists.mp
          ((rearranged.mem_keys_iff _).mp hreferent)
        rw [Table.find?_eq_of_perm hperm] at htoken
        simp [Referent.base?, hbases base args token htoken]
  calc kinds.count none + (bases.map fun base => kinds.count (some base)).sum
      = ((none :: bases.map some).map kinds.count).sum := by simp [Function.comp_def]
    _ = ∑ kind ∈ (none :: bases.map some).toFinset, kinds.count kind :=
        (List.sum_toFinset _ hdistinct).symm
    _ = kinds.length := by
        have hcount := Multiset.sum_count_eq_card (m := (kinds : Multiset (Option Token))) hkinds
        simp only [Multiset.coe_count, Multiset.coe_card] at hcount
        rwa [lawful_beq_subsingleton (Option.instBEq : BEq (Option Token)) instBEqOfDecidableEq]
    _ = ids.size := by
        rw [List.length_map, Table.length_keys]
        exact hperm.length_eq

end TraitSystem
