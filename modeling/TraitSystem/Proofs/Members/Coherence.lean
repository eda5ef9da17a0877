import TraitSystem.Proofs.List
import TraitSystem.Proofs.Members.Reachable
import Mathlib.Data.List.Nodup

/-!
# Parents come first

That the ancestors of a trait are implemented is asked only when the trait is, and only by their
identities.  Since no implementation is ever replaced and the order of registration only grows at
its end, the answer stays true: the ancestors of every implemented trait are implemented, and were
before it (`Reachable.parentFirst`).
-/

namespace TraitSystem

/-! ## One target -/

/-- Every implementation is stored under the identity of its trait and has one place in the order of
registration, where every trait comes after all of its ancestors. -/
structure Target.Coherent (target : Target) : Prop where
  own : ∀ token implementation, target.implementations.find? token = some implementation →
    implementation.trait.identity = token
  once : target.order.Nodup
  ordered : ∀ (i : ℕ) (hi : i < target.traits.length), ∀ ancestor ∈ target.traits[i].ancestors,
    ancestor.identity ∈ (target.traits.take i).map Trait.identity

namespace Target

theorem coherent_empty : Target.empty.Coherent where
  own _ _ h := nomatch h
  once := List.nodup_nil
  ordered _ hi := absurd hi (Nat.not_lt_zero _)

/-- The identities of the listed traits are the order, so none of them is left out of the list. -/
theorem Coherent.map_identity_traits {target : Target} (hcoherent : target.Coherent) :
    target.traits.map Trait.identity = target.order := by
  have hfound : ∀ token ∈ target.order, (target.implementations.find? token).map
      (fun implementation => implementation.trait.identity) = some token := by
    intro token htoken
    obtain ⟨implementation, hfind⟩ :=
      Option.isSome_iff_exists.mp ((target.mem_order_iff token).mp htoken)
    rw [hfind, Option.map_some, hcoherent.own token implementation hfind]
  unfold traits
  rw [List.map_map, List.map_filterMap]
  exact (List.filterMap_congr hfound).trans List.filterMap_some

theorem Coherent.doesImplement_iff {target : Target} (hcoherent : target.Coherent)
    (trait : Trait) :
    target.doesImplement trait ↔ trait.identity ∈ target.traits.map Trait.identity := by
  rw [hcoherent.map_identity_traits, target.mem_order_iff]
  rfl

theorem Change.coherent {old new : Target} (hchange : Change old new) (hold : old.Coherent) :
    new.Coherent := by
  cases hchange with
  | defineNative name method => exact ⟨hold.own, hold.once, hold.ordered⟩
  | @register implementation hnew hancestors =>
      refine ⟨?_, ?_, ?_⟩
      · intro token other hfind
        rw [implementations_register, Table.find?_insert] at hfind
        split at hfind
        · cases hfind
          assumption
        · exact hold.own token other hfind
      · rw [order_register, ← List.concat_eq_append]
        exact hold.once.concat (not_mem_order hnew)
      · rw [traits_register hnew]
        -- the trait that comes last was admitted because its ancestors were there
        have hlast : ∀ ancestor ∈ implementation.trait.ancestors,
            ancestor.identity ∈ old.traits.map Trait.identity := fun ancestor hancestor =>
          (hold.doesImplement_iff ancestor).mp (hancestors ancestor hancestor)
        exact fits_concat (fun before trait => ∀ ancestor ∈ trait.ancestors,
          ancestor.identity ∈ before.map Trait.identity) hold.ordered hlast

theorem Evolves.coherent {old new : Target} (hevolves : old.Evolves new) (hold : old.Coherent) :
    new.Coherent := by
  induction hevolves with
  | refl => exact hold
  | tail _ hchange ih => exact hchange.coherent ih

namespace Coherent

variable {target : Target}

theorem nodup (hcoherent : target.Coherent) : (target.traits.map Trait.identity).Nodup := by
  rw [hcoherent.map_identity_traits]
  exact hcoherent.once

/-- The ancestors of a trait were implemented before it. -/
theorem sublist (hcoherent : target.Coherent) {trait ancestor : Trait}
    (htrait : trait ∈ target.traits) (hancestor : ancestor ∈ trait.ancestors) :
    [ancestor.identity, trait.identity].Sublist (target.traits.map Trait.identity) := by
  obtain ⟨i, hi, rfl⟩ := List.mem_iff_getElem.mp htrait
  have hbefore : [ancestor.identity].Sublist ((target.traits.take i).map Trait.identity) :=
    List.singleton_sublist.mpr (hcoherent.ordered i hi ancestor hancestor)
  have hfrom : [target.traits[i].identity].Sublist ((target.traits.drop i).map Trait.identity) := by
    rw [List.drop_eq_getElem_cons hi, List.map_cons, List.singleton_sublist]
    exact List.mem_cons_self
  have hboth := hbefore.append hfrom
  rw [← List.map_append, List.take_append_drop] at hboth
  exact hboth

end Coherent

end Target

/-! ## All targets -/

namespace Members

/-- Whatever is implemented for an identity, its ancestors are too and were before it.  The traits
of a target are in the order of registration, and no identity occurs twice among them. -/
structure ParentFirst (members : Members) (identity : Token) : Prop where
  nodup : ((members.traitsOf identity).map Trait.identity).Nodup
  own : ∀ token implementation, members.implementation? identity token = some implementation →
    implementation.trait.identity = token ∧ implementation.trait ∈ members.traitsOf identity
  implemented : ∀ token implementation,
    members.implementation? identity token = some implementation →
      ∀ ancestor ∈ implementation.trait.ancestors, members.contains identity ancestor.identity
  earlier : ∀ token implementation,
    members.implementation? identity token = some implementation →
      ∀ ancestor ∈ implementation.trait.ancestors,
        [ancestor.identity, token].Sublist ((members.traitsOf identity).map Trait.identity)

namespace Reachable

variable {members : Members}

theorem parentFirst (hreachable : members.Reachable) (identity : Token) :
    members.ParentFirst identity := by
  have hcoherent := (hreachable.target identity).coherent Target.coherent_empty
  have hlisted : ∀ token implementation,
      members.implementation? identity token = some implementation →
        implementation.trait ∈ members.traitsOf identity := by
    intro token implementation hfind
    exact ((members.target identity).mem_traits_iff _).mpr ⟨token, implementation, hfind, rfl⟩
  have hearlier : ∀ token implementation,
      members.implementation? identity token = some implementation →
        ∀ ancestor ∈ implementation.trait.ancestors,
          [ancestor.identity, token].Sublist ((members.traitsOf identity).map Trait.identity) := by
    intro token implementation hfind ancestor hancestor
    have hsublist := hcoherent.sublist (hlisted token implementation hfind) hancestor
    rwa [hcoherent.own token implementation hfind] at hsublist
  refine ⟨hcoherent.nodup, ?_, ?_, hearlier⟩
  · intro token implementation hfind
    exact ⟨hcoherent.own token implementation hfind, hlisted token implementation hfind⟩
  · intro token implementation hfind ancestor hancestor
    have hmem := (hearlier token implementation hfind ancestor hancestor).subset List.mem_cons_self
    exact (hcoherent.doesImplement_iff ancestor).mpr hmem

/-- A trait is listed for an identity if it is what is implemented under its own identity. -/
theorem mem_traitsOf_iff (hreachable : members.Reachable) {identity : Token} {trait : Trait} :
    trait ∈ members.traitsOf identity ↔
      ∃ implementation, members.implementation? identity trait.identity = some implementation ∧
        implementation.trait = trait := by
  have hparents := hreachable.parentFirst identity
  constructor
  · intro hlisted
    obtain ⟨token, implementation, hfind, rfl⟩ :=
      ((members.target identity).mem_traits_iff trait).mp hlisted
    refine ⟨implementation, ?_, rfl⟩
    rw [(hparents.own token implementation hfind).1]
    exact hfind
  · rintro ⟨implementation, hfind, rfl⟩
    exact (hparents.own _ _ hfind).2

end Reachable

end Members

end TraitSystem
