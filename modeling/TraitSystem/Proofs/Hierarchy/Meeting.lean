import TraitSystem.Proofs.Hierarchy.Preorder
import TraitSystem.Proofs.Hierarchy.Asking
import TraitSystem.Proofs.Hierarchy.Atomicity
import TraitSystem.Proofs.Hierarchy.Naming

/-!
# Walks meet traits in pre-order

A walk asks for the token of a trait whenever it follows an edge to it, so it may ask for the same
one many times.  The first time it does is when `Signatures.preorder` meets the trait.  A walk that
succeeds meets the whole pre-order, one that fails breaks off (`Resolves.meets`).

## Strategy

A walk and the pre-order decide in different ways where to go on.  The walk goes down from what it
does not find, pre-order from what it has not met.  What has been met is on the path or found, and
what has been built has been met (`Meets`).  Below traits that were known before the walk neither
goes.  These stay the same while tokens are handed out, since a new token is that of no known trait
(`Heeds`).
-/

namespace TraitSystem

/-- A setting in which the known traits are those of certain keys. -/
structure Setting.Heeds (setting : Setting) (known : TraitKey → Bool) (ids : Identities) : Prop where
  identified : ∀ token trait, setting.known.find? token = some trait →
    ∃ key, ids.Identifies token key
  known_iff : ∀ key, known key ↔ ∃ token trait, ids.Identifies token key ∧
    setting.known.find? token = some trait

variable {setting : Setting} {known : TraitKey → Bool}

/-- Handing out tokens makes no trait known. -/
theorem Setting.Heeds.mono {ids later : Identities} (hheeds : setting.Heeds known ids)
    (hextends : ids.Extends later) (hlater : later.WellFormed) : setting.Heeds known later where
  identified token trait hfind := by
    obtain ⟨key, hkey⟩ := hheeds.identified token trait hfind
    exact ⟨key, hkey.mono hextends⟩
  known_iff key := by
    rw [hheeds.known_iff]
    constructor
    · rintro ⟨token, trait, hkey, hfind⟩
      exact ⟨token, trait, hkey.mono hextends, hfind⟩
    · rintro ⟨token, trait, hkey, hfind⟩
      obtain ⟨other, hother⟩ := hheeds.identified token trait hfind
      cases hlater.biUnique.2 (hother.mono hextends) hkey
      exact ⟨token, trait, hother, hfind⟩

namespace Walk

/-- What a walk has met: all that is on the path, that is found besides and that has been built. -/
structure Meets (setting : Setting) (path : List TraitKey) (walk : Walk) (met : List TraitKey) :
    Prop where
  onPath : ∀ key ∈ path, key ∈ met
  found : ∀ key ∈ met, key ∉ path → ∃ token trait, walk.identities.Identifies token key ∧
    find? setting walk token = some trait
  built : ∀ token trait, walk.built.find? token = some trait →
    ∃ key ∈ met, walk.identities.Identifies token key

namespace Meets

variable {path met : List TraitKey} {walk : Walk} {key : TraitKey}

/-- A trait that is found has been met, or the walk does not go on from it. -/
theorem meet_of_found (hmeets : Meets setting path walk met) (hids : walk.identities.WellFormed)
    (hheeds : setting.Heeds known walk.identities) {trait : Trait}
    (hfind : find? setting (walk.request key) (walk.tokenOf key) = some trait)
    (rest : List TraitKey) :
    setting.signatures.meet known (key :: rest) met =
        setting.signatures.meet known rest (appendNew met key) ∧
      Meets setting path (walk.request key) (appendNew met key) := by
  have hextends := (walk.evolves_request key).extends
  have hrequest := (walk.evolves_request key).wellFormed hids
  refine ⟨?_, ?_, ?_, ?_⟩
  · rcases Option.or_eq_some_iff.mp hfind with hknown | ⟨-, hbuilt⟩
    · apply Signatures.meet_of_known
      exact ((hheeds.mono hextends hrequest).known_iff key).mpr
        ⟨_, trait, walk.find?_request key, hknown⟩
    · obtain ⟨other, hmet, hother⟩ := hmeets.built _ _ hbuilt
      have hsame : other = key :=
        hrequest.biUnique.2 (hother.mono hextends) (walk.find?_request key)
      rw [hsame] at hmet
      rw [Signatures.meet_of_mem _ hmet, appendNew, if_pos hmet]
  · exact fun other hother => mem_appendNew.mpr (Or.inl (hmeets.onPath other hother))
  · intro other hother offPath
    rcases mem_appendNew.mp hother with hmet | rfl
    · obtain ⟨token, found, htoken, hfound⟩ := hmeets.found other hmet offPath
      exact ⟨token, found, htoken.mono hextends, hfound⟩
    · exact ⟨_, trait, walk.find?_request other, hfind⟩
  · intro token found hfound
    obtain ⟨other, hmet, hother⟩ := hmeets.built token found hfound
    exact ⟨other, mem_appendNew.mpr (Or.inl hmet), hother.mono hextends⟩

/-- A trait that is neither on the path nor found has not been met. -/
theorem meet_of_new (hmeets : Meets setting path walk met) (hids : walk.identities.WellFormed)
    (hheeds : setting.Heeds known walk.identities) (offPath : key ∉ path)
    (hnew : find? setting (walk.request key) (walk.tokenOf key) = none) (rest : List TraitKey) :
    setting.signatures.meet known (key :: rest) met =
        setting.signatures.meet known ((setting.signatures.get key).parents ++ rest)
          (appendNew met key) ∧
      Meets setting (key :: path) ((walk.request key).expand (key :: path)) (appendNew met key) := by
  have hextends := (walk.evolves_request key).extends
  have hrequest := (walk.evolves_request key).wellFormed hids
  have hunmet : key ∉ met := by
    intro hmet
    obtain ⟨token, trait, htoken, hfind⟩ := hmeets.found key hmet offPath
    rw [← tokenOf_eq htoken] at hfind
    cases hnew.symm.trans hfind
  have hunknown : ¬ known key := by
    rw [(hheeds.mono hextends hrequest).known_iff]
    rintro ⟨token, trait, htoken, hfind⟩
    have hsame : token = walk.tokenOf key :=
      hrequest.biUnique.1 htoken (walk.find?_request key)
    rw [hsame, (find?_eq_none.mp hnew).1] at hfind
    cases hfind
  refine ⟨?_, ?_, ?_, ?_⟩
  · rw [Signatures.meet_of_not_mem _ hunmet, Signatures.onward, if_neg hunknown, appendNew,
      if_neg hunmet]
  · intro other hother
    rcases List.mem_cons.mp hother with rfl | hpath
    · exact mem_appendNew.mpr (Or.inr rfl)
    · exact mem_appendNew.mpr (Or.inl (hmeets.onPath other hpath))
  · intro other hother hoff
    rw [List.mem_cons, not_or] at hoff
    have hmet := (mem_appendNew.mp hother).resolve_right hoff.1
    obtain ⟨token, trait, htoken, hfind⟩ := hmeets.found other hmet hoff.2
    exact ⟨token, trait, htoken.mono hextends, hfind⟩
  · intro token trait hbuilt
    obtain ⟨other, hmet, hother⟩ := hmeets.built token trait hbuilt
    exact ⟨other, mem_appendNew.mpr (Or.inl hmet), hother.mono hextends⟩

/-- When the trait in front of the path is built it is found. -/
theorem add (hmeets : Meets setting (key :: path) walk met) {trait : Trait}
    (hnew : find? setting walk trait.identity = none)
    (htoken : walk.identities.Identifies trait.identity key) :
    Meets setting path (walk.add trait) met := by
  refine ⟨fun other hother => hmeets.onPath other (List.mem_cons_of_mem _ hother), ?_, ?_⟩
  · intro other hother offPath
    by_cases hsame : other = key
    · subst hsame
      exact ⟨trait.identity, trait, htoken, by rw [find?_add walk hnew, if_pos rfl]⟩
    · obtain ⟨token, found, hidentifies, hfind⟩ :=
        hmeets.found other hother (List.not_mem_cons_of_ne_of_not_mem hsame offPath)
      exact ⟨token, found, hidentifies, walk.findsMore_add hnew token found hfind⟩
  · intro token found hfound
    change (walk.built.insert trait.identity trait).find? token = some found at hfound
    rw [Table.find?_insert] at hfound
    split at hfound
    · rename_i hsame
      exact ⟨key, hmeets.onPath key List.mem_cons_self, hsame ▸ htoken⟩
    · exact hmeets.built token found hfound

end Meets

/-- What is asked for between two states of a walk is met next in pre-order, up to repetitions, when
some traits are ahead.  If the walk gets through, it has seen to all of them. -/
structure Proceeds (setting : Setting) (known : TraitKey → Bool) (path starts : List TraitKey)
    (walk after : Walk) (asked : List TraitKey) (through : Prop) : Prop where
  identities : after.identities = walk.identities.replay (asked.map .ofKey)
  meet : ∀ rest met, Meets setting path walk met → ∃ ahead,
    setting.signatures.meet known (starts ++ rest) met =
        setting.signatures.meet known ahead (mergeNew met asked) ∧
      (through → ahead = rest ∧ Meets setting path after (mergeNew met asked))

namespace Proceeds

variable {path starts siblings asked more : List TraitKey} {key : TraitKey}
  {walk between after last : Walk} {through done : Prop}

theorem nil : Proceeds setting known path [] walk walk [] through where
  identities := rfl
  meet rest _ hmeets := ⟨rest, rfl, fun _ => ⟨rfl, hmeets⟩⟩

/-- A walk may break off without asking for anything. -/
theorem stop (hstopped : ¬ through) : Proceeds setting known path starts walk walk [] through where
  identities := rfl
  meet rest _ _ := ⟨starts ++ rest, rfl, fun hthrough => absurd hthrough hstopped⟩

/-- What is on the path is passed over. -/
theorem skip (onPath : key ∈ path)
    (hproceeds : Proceeds setting known path siblings walk after asked through) :
    Proceeds setting known path (key :: siblings) walk after asked through where
  identities := hproceeds.identities
  meet rest met hmeets := by
    rw [List.cons_append, Signatures.meet_of_mem _ (hmeets.onPath _ onPath)]
    exact hproceeds.meet rest met hmeets

/-- A walk that breaks off leaves what comes after. -/
theorem fail (hfirst : Proceeds setting known path [key] walk after asked through)
    (hfailed : ¬ done) (siblings : List TraitKey) :
    Proceeds setting known path (key :: siblings) walk after asked done where
  identities := hfirst.identities
  meet rest met hmeets := by
    obtain ⟨ahead, hmeet, -⟩ := hfirst.meet (siblings ++ rest) met hmeets
    exact ⟨ahead, hmeet, fun hdone => absurd hdone hfailed⟩

/-- First one trait is seen to and then the others. -/
theorem append (hfirst : Proceeds setting known path [key] walk between asked through)
    (hthrough : through) (hothers : Proceeds setting known path siblings between after more done) :
    Proceeds setting known path (key :: siblings) walk after (asked ++ more) done where
  identities := by
    rw [hothers.identities, hfirst.identities, List.map_append, Identities.replay_append]
  meet rest met hmeets := by
    obtain ⟨_, hmeet, hafter⟩ := hfirst.meet (siblings ++ rest) met hmeets
    obtain ⟨rfl, hbetween⟩ := hafter hthrough
    rw [mergeNew_append]
    obtain ⟨ahead, hahead, hlast⟩ := hothers.meet rest _ hbetween
    exact ⟨ahead, hmeet.trans hahead, hlast⟩

theorem found (hids : walk.identities.WellFormed) (hheeds : setting.Heeds known walk.identities)
    {trait : Trait} (hfind : find? setting (walk.request key) (walk.tokenOf key) = some trait) :
    Proceeds setting known path [key] walk (walk.request key) [key] through where
  identities := rfl
  meet rest met hmeets := by
    obtain ⟨hmeet, hafter⟩ := hmeets.meet_of_found hids hheeds hfind rest
    exact ⟨rest, hmeet, fun _ => ⟨rfl, hafter⟩⟩

/-- To see to a trait that is not found is to see to its parents. -/
theorem enter (hids : walk.identities.WellFormed) (hheeds : setting.Heeds known walk.identities)
    (offPath : key ∉ path) (hnew : find? setting (walk.request key) (walk.tokenOf key) = none)
    (hparents : Proceeds setting known (key :: path) (setting.signatures.get key).parents
      ((walk.request key).expand (key :: path)) after asked through)
    (hidentities : last.identities = after.identities)
    (hdone : done → through ∧ ∀ met, Meets setting (key :: path) after met →
      Meets setting path last met) :
    Proceeds setting known path [key] walk last (key :: asked) done where
  identities := hidentities.trans hparents.identities
  meet rest met hmeets := by
    obtain ⟨hmeet, hinner⟩ := hmeets.meet_of_new hids hheeds offPath hnew rest
    obtain ⟨ahead, hahead, hafter⟩ := hparents.meet rest _ hinner
    refine ⟨ahead, hmeet.trans hahead, fun h => ?_⟩
    obtain ⟨hthrough, hlast⟩ := hdone h
    obtain ⟨rfl, hmet⟩ := hafter hthrough
    exact ⟨rfl, hlast _ hmet⟩

end Proceeds

mutual

/-- **What is asked for when a trait is resolved is met next in pre-order.** -/
theorem Resolves.proceeds {path : List TraitKey} {key : TraitKey} {walk after : Walk}
    {result : Except DefineError Trait} :
    Resolves setting path key walk result after → key ∉ path → Sound setting path walk →
      setting.Heeds known walk.identities →
        ∃ asked, Proceeds setting known path [key] walk after (key :: asked) result.isOk
  | .found hfind => fun _ hsound hheeds => ⟨[], .found hsound.identities hheeds hfind⟩
  | .stopped hnew parents => by
      intro offPath hsound hheeds
      obtain ⟨asked, hasked⟩ := parents.proceeds (hsound.enter hnew)
        (hheeds.mono (walk.evolves_request key).extends (hsound.request key).identities)
      exact ⟨asked, hasked.enter hsound.identities hheeds offPath hnew rfl nofun⟩
  | .conflicting hnew parents _ => by
      intro offPath hsound hheeds
      obtain ⟨asked, hasked⟩ := parents.proceeds (hsound.enter hnew)
        (hheeds.mono (walk.evolves_request key).extends (hsound.request key).identities)
      exact ⟨asked, hasked.enter hsound.identities hheeds offPath hnew rfl nofun⟩
  | .built hnew parents _ => by
      intro offPath hsound hheeds
      obtain ⟨asked, hasked⟩ := parents.proceeds (hsound.enter hnew)
        (hheeds.mono (walk.evolves_request key).extends (hsound.request key).identities)
      obtain ⟨htoken, hnone⟩ := parents.find?_front hnew hsound
      exact ⟨asked, hasked.enter hsound.identities hheeds offPath hnew rfl
        fun _ => ⟨rfl, fun _ hmeets => hmeets.add hnone htoken⟩⟩

theorem Gathers.proceeds {path parents : List TraitKey} {lineage : Lineage} {walk after : Walk}
    {result : Except DefineError Lineage} :
    Gathers setting path parents lineage walk result after → Sound setting path walk →
      setting.Heeds known walk.identities →
        ∃ asked, Proceeds setting known path parents walk after asked result.isOk
  | .done => fun _ _ => ⟨[], .nil⟩
  | .cyclic _ _ => fun _ _ => ⟨[], .stop nofun⟩
  | .truncated onPath _ others => by
      intro hsound hheeds
      obtain ⟨asked, hasked⟩ := others.proceeds hsound hheeds
      exact ⟨asked, hasked.skip onPath⟩
  | .failed offPath first => by
      intro hsound hheeds
      obtain ⟨asked, hasked⟩ := first.proceeds offPath hsound hheeds
      exact ⟨_, hasked.fail nofun _⟩
  | .added offPath first others => by
      intro hsound hheeds
      obtain ⟨hbetween, -, -⟩ := first.sound _ rfl offPath hsound
      obtain ⟨asked, hasked⟩ := first.proceeds offPath hsound hheeds
      obtain ⟨more, hmore⟩ := others.proceeds hbetween
        (hheeds.mono first.evolves.extends hbetween.identities)
      exact ⟨_, hasked.append rfl hmore⟩

end

end Walk

end TraitSystem
