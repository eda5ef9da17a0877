import TraitSystem.Proofs.Hierarchy.Growth
import TraitSystem.Proofs.Identity.Names

/-!
# The traits that a walk asks for

A walk asks for the token of every trait that it comes to: for that of the trait at which it starts,
and for that of each parent when it follows the edge.  `Asks` is the list of these traits in their
order, and since a trait is asked for by the name of its type, the list says all about the names
that a definition records (`Hierarchy.exists_asks`).

A parent on the path is not asked for, whether it ends the walk or is left out.  A trait may be
asked for several times, and the one that is defined is asked for once more before the walk.
-/

namespace TraitSystem

/-- The request for the token of a trait. -/
def Identities.Request.ofKey (key : TraitKey) : Identities.Request := .byName (.trait key)

namespace Walk

mutual

/-- The traits whose tokens are asked for when the trait of a key is resolved. -/
inductive Asks (setting : Setting) : List TraitKey → TraitKey → Walk → List TraitKey → Prop
  | found {path : List TraitKey} {key : TraitKey} {walk : Walk} {trait : Trait}
      (hfind : find? setting (walk.request key) (walk.tokenOf key) = some trait) :
      Asks setting path key walk [key]
  | expanded {path asked : List TraitKey} {key : TraitKey} {walk : Walk}
      (hnew : find? setting (walk.request key) (walk.tokenOf key) = none)
      (parents : AsksParents setting (key :: path) (setting.signatures.get key).parents
        ((walk.request key).expand (key :: path)) asked) :
      Asks setting path key walk (key :: asked)

/-- The traits whose tokens are asked for when parents are gathered. -/
inductive AsksParents (setting : Setting) :
    List TraitKey → List TraitKey → Walk → List TraitKey → Prop
  | done {path : List TraitKey} {walk : Walk} : AsksParents setting path [] walk []
  | cyclic {path rest : List TraitKey} {parent : TraitKey} {walk : Walk}
      (onPath : parent ∈ path) (hpolicy : setting.policy = .reject) :
      AsksParents setting path (parent :: rest) walk []
  | truncated {path rest asked : List TraitKey} {parent : TraitKey} {walk : Walk}
      (onPath : parent ∈ path) (hpolicy : setting.policy = .truncate)
      (others : AsksParents setting path rest walk asked) :
      AsksParents setting path (parent :: rest) walk asked
  | failed {path rest asked : List TraitKey} {parent : TraitKey} {walk after : Walk}
      {error : DefineError} (offPath : parent ∉ path)
      (first : Asks setting path parent walk asked)
      (hfirst : Resolves setting path parent walk (.error error) after) :
      AsksParents setting path (parent :: rest) walk asked
  | added {path rest asked more : List TraitKey} {parent : TraitKey} {walk between : Walk}
      {trait : Trait} (offPath : parent ∉ path)
      (first : Asks setting path parent walk asked)
      (hfirst : Resolves setting path parent walk (.ok trait) between)
      (others : AsksParents setting path rest between more) :
      AsksParents setting path (parent :: rest) walk (asked ++ more)

end

mutual

/-- What a walk does to the tokens is to ask for those of these traits. -/
theorem Resolves.exists_asks {setting : Setting} {path : List TraitKey} {key : TraitKey}
    {walk after : Walk} {result : Except DefineError Trait} :
    Resolves setting path key walk result after →
      ∃ asked, Asks setting path key walk asked ∧
        after.identities = walk.identities.replay (asked.map .ofKey)
  | .found hfind => ⟨[key], .found hfind, rfl⟩
  | .stopped hnew parents => by
      obtain ⟨asked, hasked, hidentities⟩ := parents.exists_asks
      exact ⟨key :: asked, .expanded hnew hasked, hidentities⟩
  | .conflicting hnew parents _ => by
      obtain ⟨asked, hasked, hidentities⟩ := parents.exists_asks
      exact ⟨key :: asked, .expanded hnew hasked, hidentities⟩
  | .built hnew parents _ => by
      obtain ⟨asked, hasked, hidentities⟩ := parents.exists_asks
      exact ⟨key :: asked, .expanded hnew hasked, hidentities⟩

theorem Gathers.exists_asks {setting : Setting} {path parents : List TraitKey} {lineage : Lineage}
    {walk after : Walk} {result : Except DefineError Lineage} :
    Gathers setting path parents lineage walk result after →
      ∃ asked, AsksParents setting path parents walk asked ∧
        after.identities = walk.identities.replay (asked.map .ofKey)
  | .done => ⟨[], .done, rfl⟩
  | .cyclic onPath hpolicy => ⟨[], .cyclic onPath hpolicy, rfl⟩
  | .truncated onPath hpolicy others => by
      obtain ⟨asked, hasked, hidentities⟩ := others.exists_asks
      exact ⟨asked, .truncated onPath hpolicy hasked, hidentities⟩
  | .failed offPath first => by
      obtain ⟨asked, hasked, hidentities⟩ := first.exists_asks
      exact ⟨asked, .failed offPath hasked first, hidentities⟩
  | .added offPath first others => by
      obtain ⟨asked, hasked, hbetween⟩ := first.exists_asks
      obtain ⟨more, hmore, hidentities⟩ := others.exists_asks
      refine ⟨asked ++ more, .added offPath hasked first hmore, ?_⟩
      rw [hidentities, hbetween, List.map_append, Identities.replay_append]

end

mutual

/-- There is no choice about the traits that are asked for. -/
theorem Asks.unique {setting : Setting} {path asked others : List TraitKey} {key : TraitKey}
    {walk : Walk} :
    Asks setting path key walk asked → Asks setting path key walk others → asked = others
  | .found hfind, hother => by
      cases hother with
      | found _ => rfl
      | expanded hnew _ => cases hnew.symm.trans hfind
  | .expanded hnew parents, hother => by
      cases hother with
      | found hfind => cases hnew.symm.trans hfind
      | expanded _ parents' => rw [parents.unique parents']

theorem AsksParents.unique {setting : Setting} {path parents asked others : List TraitKey}
    {walk : Walk} :
    AsksParents setting path parents walk asked →
      AsksParents setting path parents walk others → asked = others
  | .done, hother => by
      cases hother
      rfl
  | .cyclic onPath hpolicy, hother => by
      cases hother with
      | cyclic _ _ => rfl
      | truncated _ hpolicy' _ => cases hpolicy.symm.trans hpolicy'
      | failed offPath _ _ => exact absurd onPath offPath
      | added offPath _ _ _ => exact absurd onPath offPath
  | .truncated onPath hpolicy rest, hother => by
      cases hother with
      | cyclic _ hpolicy' => cases hpolicy.symm.trans hpolicy'
      | truncated _ _ rest' => exact rest.unique rest'
      | failed offPath _ _ => exact absurd onPath offPath
      | added offPath _ _ _ => exact absurd onPath offPath
  | .failed offPath first hfirst, hother => by
      cases hother with
      | cyclic onPath _ => exact absurd onPath offPath
      | truncated onPath _ _ => exact absurd onPath offPath
      | failed _ first' _ => exact first.unique first'
      | added _ _ hfirst' _ => cases (hfirst.unique hfirst').1
  | .added offPath first hfirst rest, hother => by
      cases hother with
      | cyclic onPath _ => exact absurd onPath offPath
      | truncated onPath _ _ => exact absurd onPath offPath
      | failed _ _ hfirst' => cases (hfirst.unique hfirst').1
      | added _ first' hfirst' rest' =>
          obtain ⟨-, rfl⟩ := hfirst.unique hfirst'
          rw [first.unique first', rest.unique rest']

end

end Walk

namespace Hierarchy

variable (hierarchy : Hierarchy) (signatures : Signatures) (policy : CyclePolicy) (key : TraitKey)
  (identities : Identities) (nextSerial : Nat)

/-- The traits whose tokens are asked for by a definition. -/
inductive Asks : List TraitKey → Prop
  | found {trait : Trait}
      (hfind : hierarchy.find? (identities.ofType (.trait key)).1 = some trait) : Asks [key]
  | walked {asked : List TraitKey}
      (hnew : hierarchy.find? (identities.ofType (.trait key)).1 = none)
      (hwalk : Walk.Asks (hierarchy.setting signatures policy) [] key
        (begin key identities nextSerial) asked) : Asks (key :: asked)

/-- What a definition does to the tokens is to ask for those of these traits. -/
theorem exists_asks :
    ∃ asked, hierarchy.Asks signatures policy key identities nextSerial asked ∧
      (hierarchy.define signatures policy key identities nextSerial).identities =
        identities.replay (asked.map .ofKey) := by
  cases hfind : hierarchy.find? (identities.ofType (.trait key)).1 with
  | some trait =>
      rw [hierarchy.define_of_found signatures policy key identities nextSerial hfind]
      exact ⟨[key], .found hfind, rfl⟩
  | none =>
      obtain ⟨result, walk, hresolves, hdefine⟩ :=
        hierarchy.define_of_new signatures policy key identities nextSerial hfind
      obtain ⟨asked, hasked, hidentities⟩ := hresolves.exists_asks
      rw [hdefine]
      exact ⟨key :: asked, .walked hfind hasked, hidentities⟩

variable {hierarchy signatures policy key identities nextSerial} {asked others : List TraitKey}

theorem Asks.unique (hasked : hierarchy.Asks signatures policy key identities nextSerial asked)
    (hothers : hierarchy.Asks signatures policy key identities nextSerial others) :
    asked = others := by
  cases hasked with
  | found hfind =>
      cases hothers with
      | found _ => rfl
      | walked hnew _ => cases hnew.symm.trans hfind
  | walked hnew hwalk =>
      cases hothers with
      | found hfind => cases hnew.symm.trans hfind
      | walked _ hwalk' => rw [hwalk.unique hwalk']

theorem Asks.identities_eq
    (hasked : hierarchy.Asks signatures policy key identities nextSerial asked) :
    (hierarchy.define signatures policy key identities nextSerial).identities =
      identities.replay (asked.map .ofKey) := by
  obtain ⟨others, hothers, hidentities⟩ :=
    hierarchy.exists_asks signatures policy key identities nextSerial
  rw [hidentities, hothers.unique hasked]

/-- The trait that is defined is asked for first. -/
theorem Asks.head (hasked : hierarchy.Asks signatures policy key identities nextSerial asked) :
    [key] <+: asked := by
  cases hasked with
  | found _ => exact List.prefix_rfl
  | walked _ _ => exact ⟨_, rfl⟩

end Hierarchy

end TraitSystem
