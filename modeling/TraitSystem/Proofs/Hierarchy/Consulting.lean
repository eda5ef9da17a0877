import TraitSystem.Proofs.Hierarchy.Survey
import TraitSystem.Proofs.Hierarchy.Trail
import TraitSystem.Proofs.Hierarchy.Definability
import Mathlib.Data.Set.Card

/-!
# What definitions read, and how deep they go

Parents form no well-founded relation, and where cycles are truncated a walk follows cyclic graphs.
Still a definition comes to an end: going down no further than there are traits to be reached from
the one it defines is enough (`Reachable.survey_eq_define`), because the path is a trail.  And it
reads the parents and the declarations of every trait at most once, those of the traits in the
hierarchy not at all.

## Strategy

What a walk reads it has not found before, and has found afterwards unless it failed (`Reads`,
`Defines`).  So what is read for two parents, one after the other, is never the same
(`Reads.append`).  What is read below a trait is off the path, and hence not the trait itself
(`Reads.enter`).
-/

namespace TraitSystem

/-! ## Traits to be reached -/

namespace Signatures

variable (signatures : Signatures) (start : TraitKey)

/-- Only finitely many traits are reached from one. -/
theorem finite_reaches : {other | signatures.Reaches start other}.Finite := by
  have hlisted : {other | signatures.Reaches start other} ⊆
      {other | other ∈ start :: signatures.keys.flatMap fun key => (signatures.get key).parents} := by
    intro other hother
    rcases Relation.ReflTransGen.cases_tail hother with rfl | ⟨key, -, hextends⟩
    · exact List.mem_cons_self
    · refine List.mem_cons_of_mem _ (List.mem_flatMap.mpr ⟨key, ?_, hextends⟩)
      by_contra hunknown
      have hparents : other ∈ (signatures.get key).parents := hextends
      rw [signatures.parents_eq_nil_of_not_mem_keys hunknown] at hparents
      cases hparents
  exact (List.finite_toSet _).subset hlisted

/-- The number of traits that are reached from one, itself included. -/
noncomputable def reach : ℕ := {other | signatures.Reaches start other}.ncard

variable {signatures start}

/-- Where parents never lead out of a list, nothing else is reached. -/
theorem reach_le_length {keys : List TraitKey} (hstart : start ∈ keys)
    (hclosed : ∀ key ∈ keys, (signatures.get key).parents ⊆ keys) :
    signatures.reach start ≤ keys.length := by
  have hsubset : {other | signatures.Reaches start other} ⊆ (keys.toFinset : Set TraitKey) := by
    intro other hother
    rw [List.coe_toFinset]
    induction hother with
    | refl => exact hstart
    | tail _ hextends ih => exact hclosed _ ih hextends
  calc signatures.reach start ≤ (keys.toFinset : Set TraitKey).ncard :=
        Set.ncard_le_ncard hsubset (Finset.finite_toSet _)
    _ = keys.toFinset.card := Set.ncard_coe_finset _
    _ ≤ keys.length := keys.toFinset_card_le

/-- A trail is no longer than there are traits to be reached. -/
theorem Trail.length_le {path : List TraitKey} (htrail : signatures.Trail start path) :
    path.length ≤ signatures.reach start := by
  have hsubset : (path.toFinset : Set TraitKey) ⊆ {other | signatures.Reaches start other} := by
    intro other hother
    exact htrail.reaches other (List.mem_toFinset.mp hother)
  calc path.length = path.toFinset.card := (List.toFinset_card_of_nodup htrail.nodup).symm
    _ = (path.toFinset : Set TraitKey).ncard := (Set.ncard_coe_finset _).symm
    _ ≤ signatures.reach start := Set.ncard_le_ncard hsubset (signatures.finite_reaches start)

end Signatures

namespace Walk

variable {setting : Setting} {start : TraitKey}

/-! ## What is read between two states of a walk -/

/-- A trait that can be reached, is off the path and was not found before. -/
structure Unvisited (setting : Setting) (start : TraitKey) (path : List TraitKey)
    (walk after : Walk) (key : TraitKey) : Prop where
  reaches : setting.signatures.Reaches start key
  offPath : key ∉ path
  unknown : ∃ token, after.identities.Identifies token key ∧ find? setting walk token = none

/-- The signature of the trait with a token is read completely. -/
def Covers (ids : Identities) (read : List Reading) (token : Token) : Prop :=
  ∃ key, ids.Identifies token key ∧ Reading.parents key ∈ read ∧ Reading.declarations key ∈ read

theorem Covers.mono {ids later : Identities} {read more : List Reading} {token : Token}
    (hcovers : Covers ids read token) (hextends : ids.Extends later) (hmore : read ⊆ more) :
    Covers later more token := by
  obtain ⟨key, htoken, hparents, hdeclarations⟩ := hcovers
  exact ⟨key, htoken.mono hextends, hmore hparents, hmore hdeclarations⟩

/-- Nothing is read twice, only what was not visited before is read of, and what is found in
addition was read completely. -/
structure Reads (setting : Setting) (start : TraitKey) (path : List TraitKey) (walk after : Walk)
    (read : List Reading) : Prop where
  nodup : read.Nodup
  unvisited : ∀ reading ∈ read, Unvisited setting start path walk after reading.key
  found : ∀ token trait, find? setting after token = some trait →
    find? setting walk token = some trait ∨ Covers after.identities read token

/-- Everything that was read of has been built. -/
def Defines (setting : Setting) (after : Walk) (read : List Reading) : Prop :=
  ∀ reading ∈ read, ∃ token trait, after.identities.Identifies token reading.key ∧
    find? setting after token = some trait

variable {path : List TraitKey} {walk between after : Walk} {key : TraitKey}

/-- What was not visited when something had been found was not visited before. -/
theorem Unvisited.before (hunvisited : Unvisited setting start path between after key)
    (hmore : FindsMore setting walk between) : Unvisited setting start path walk after key where
  reaches := hunvisited.reaches
  offPath := hunvisited.offPath
  unknown := by
    obtain ⟨token, htoken, hnone⟩ := hunvisited.unknown
    refine ⟨token, htoken, Option.eq_none_iff_forall_ne_some.mpr fun trait hfind => ?_⟩
    rw [hmore token trait hfind] at hnone
    cases hnone

theorem Unvisited.mono (hunvisited : Unvisited setting start path walk between key)
    (hextends : between.identities.Extends after.identities) :
    Unvisited setting start path walk after key where
  reaches := hunvisited.reaches
  offPath := hunvisited.offPath
  unknown := by
    obtain ⟨token, htoken, hnone⟩ := hunvisited.unknown
    exact ⟨token, htoken.mono hextends, hnone⟩

theorem Unvisited.leave {front : TraitKey}
    (hunvisited : Unvisited setting start (front :: path) walk after key) :
    Unvisited setting start path walk after key where
  reaches := hunvisited.reaches
  offPath hpath := hunvisited.offPath (List.mem_cons_of_mem _ hpath)
  unknown := hunvisited.unknown

/-- What is built stays built. -/
theorem Defines.mono {read : List Reading} (hdefines : Defines setting between read)
    (hmore : FindsMore setting between after)
    (hextends : between.identities.Extends after.identities) : Defines setting after read := by
  intro reading hreading
  obtain ⟨token, trait, htoken, hfind⟩ := hdefines reading hreading
  exact ⟨token, trait, htoken.mono hextends, hmore token trait hfind⟩

namespace Reads

variable {read first rest : List Reading}

theorem nil (hfound : ∀ token trait, find? setting after token = some trait →
    find? setting walk token = some trait) : Reads setting start path walk after [] where
  nodup := List.nodup_nil
  unvisited := nofun
  found token trait h := Or.inl (hfound token trait h)

/-- What is read while one thing is found and then while another one is. -/
theorem append (hfirst : Reads setting start path walk between first)
    (hdefines : Defines setting between first) (hrest : Reads setting start path between after rest)
    (hmore : FindsMore setting walk between)
    (hextends : between.identities.Extends after.identities) :
    Reads setting start path walk after (first ++ rest) where
  nodup := by
    refine List.nodup_append.mpr ⟨hfirst.nodup, hrest.nodup, ?_⟩
    rintro reading hreading _ hagain rfl
    -- it would have been found when it was read again
    obtain ⟨token, trait, htoken, hfind⟩ := hdefines reading hreading
    obtain ⟨other, hother, hnone⟩ := (hrest.unvisited reading hagain).unknown
    have hsame : token = other := Option.some_inj.mp ((htoken.mono hextends).symm.trans hother)
    rw [hsame, hnone] at hfind
    cases hfind
  unvisited := List.forall_mem_append.mpr
    ⟨fun reading hreading => (hfirst.unvisited reading hreading).mono hextends,
      fun reading hreading => (hrest.unvisited reading hreading).before hmore⟩
  found token trait hfind := by
    rcases hrest.found token trait hfind with hbetween | hcovers
    · apply (hfirst.found token trait hbetween).imp_right
      exact fun hcovers => hcovers.mono hextends (List.subset_append_left first rest)
    · exact Or.inr (hcovers.mono (Identities.Extends.refl _) (List.subset_append_right first rest))

variable (hown : Unvisited setting start path walk after key)
  (hread : Reads setting start (key :: path) ((walk.request key).expand (key :: path)) after read)

include hown hread

/-- The parents of a trait are read before anything below it. -/
theorem enter : Reads setting start path walk after (.parents key :: read) where
  nodup := hread.nodup.cons fun hagain =>
    (hread.unvisited _ hagain).offPath List.mem_cons_self
  unvisited := List.forall_mem_cons.mpr
    ⟨hown, fun reading hreading => (hread.unvisited reading hreading).leave.before fun _ _ => id⟩
  found token trait hfind := by
    apply (hread.found token trait hfind).imp_right
    exact fun hcovers => hcovers.mono (Identities.Extends.refl _) (List.subset_cons_self _ read)

/-- Its declarations are read after that, and then at most the trait itself is built. -/
theorem finish {last : Walk} (hidentities : last.identities = after.identities)
    (hlast : ∀ token trait, find? setting last token = some trait →
      find? setting after token = some trait ∨ last.identities.Identifies token key) :
    Reads setting start path walk last (.parents key :: read ++ [.declarations key]) := by
  have hentered := hread.enter hown
  have hextends : after.identities.Extends last.identities := by
    rw [hidentities]
    exact Identities.Extends.refl _
  refine ⟨?_, List.forall_mem_append.mpr ⟨?_, ?_⟩, ?_⟩
  · refine List.nodup_append.mpr ⟨hentered.nodup, List.nodup_singleton _, ?_⟩
    rintro reading hreading _ hagain rfl
    rw [List.mem_singleton.mp hagain] at hreading
    rcases List.mem_cons.mp hreading with hsame | hreading
    · cases hsame
    · exact (hread.unvisited _ hreading).offPath List.mem_cons_self
  · exact fun reading hreading => (hentered.unvisited reading hreading).mono hextends
  · exact List.forall_mem_singleton.mpr (hown.mono hextends)
  · intro token trait hfind
    rcases hlast token trait hfind with hbefore | htoken
    · apply (hentered.found token trait hbefore).imp_right
      exact fun hcovers => hcovers.mono hextends (List.subset_append_left _ _)
    · exact Or.inr ⟨key, htoken, by simp, by simp⟩

/-- So it is if the trait can be built. -/
theorem add {trait : Trait} (hnew : find? setting after trait.identity = none)
    (htoken : after.identities.Identifies trait.identity key) :
    Reads setting start path walk (after.add trait)
      (.parents key :: read ++ [.declarations key]) := by
  refine hread.finish hown ?_ fun token other hother => ?_
  · rfl
  · rw [find?_add after hnew] at hother
    split at hother
    · rename_i hsame
      exact Or.inr (hsame ▸ htoken)
    · exact Or.inl hother

end Reads

/-- When the trait itself has been built, everything that was read of has been. -/
theorem Defines.add {read : List Reading} (hdefines : Defines setting after read) {trait : Trait}
    (hnew : find? setting after trait.identity = none)
    (htoken : after.identities.Identifies trait.identity key) :
    Defines setting (after.add trait) (.parents key :: read ++ [.declarations key]) := by
  have hself : ∃ token other, after.identities.Identifies token key ∧
      find? setting (after.add trait) token = some other :=
    ⟨trait.identity, trait, htoken, by rw [find?_add after hnew, if_pos rfl]⟩
  have hbelow : Defines setting (after.add trait) read :=
    hdefines.mono (after.findsMore_add hnew) (Identities.Extends.refl _)
  exact List.forall_mem_append.mpr
    ⟨List.forall_mem_cons.mpr ⟨hself, hbelow⟩, List.forall_mem_singleton.mpr hself⟩

/-! ## Walks are surveys -/

/-- A trait that is entered was not visited before. -/
theorem unvisited_of_new (htrail : setting.signatures.Trail start (key :: path))
    (hnew : find? setting (walk.request key) (walk.tokenOf key) = none)
    (hextends : (walk.request key).identities.Extends after.identities) :
    Unvisited setting start path walk after key where
  reaches := htrail.reaches key List.mem_cons_self
  offPath := (List.nodup_cons.mp htrail.nodup).1
  unknown := ⟨walk.tokenOf key, hextends.tokens _ _ (walk.find?_request key), hnew⟩

/-- Where a trail can go on, the limit is not reached. -/
theorem exists_limit_eq_succ (htrail : setting.signatures.Trail start (key :: path)) {limit : ℕ}
    (hlimit : setting.signatures.reach start ≤ path.length + limit) :
    ∃ below, limit = below + 1 ∧
      setting.signatures.reach start ≤ (key :: path).length + below := by
  have hlength := htrail.length_le
  rw [List.length_cons] at hlength ⊢
  exact ⟨limit - 1, by omega, by omega⟩

mutual

/-- **A walk is a survey that goes down no further than there are traits to be reached.** -/
theorem Resolves.survey {path : List TraitKey} {key : TraitKey} {walk after : Walk}
    {result : Except DefineError Trait} :
    Resolves setting path key walk result after → setting.signatures.Trail start (key :: path) →
      Sound setting path walk →
        ∃ read, Reads setting start path walk after read ∧
          (∀ trait, result = .ok trait → Defines setting after read) ∧
          ∀ limit, setting.signatures.reach start ≤ path.length + limit → ∀ readings,
            Walk.survey setting limit path key ⟨walk, readings⟩ =
              some (result, ⟨after, readings ++ read⟩)
  | .found hfind => by
      intro htrail hsound
      refine ⟨[], .nil fun _ _ => id, fun _ _ => nofun, ?_⟩
      intro limit hlimit readings
      obtain ⟨below, rfl, -⟩ := exists_limit_eq_succ htrail hlimit
      rw [survey_of_found hfind, List.append_nil]
  | .stopped hnew parents => by
      intro htrail hsound
      obtain ⟨read, hread, -, hsurvey⟩ := parents.survey (.parents key path) htrail
        (hsound.enter hnew) Lineage.wellFormed_empty
      have hown := unvisited_of_new htrail hnew parents.evolves.extends
      refine ⟨.parents key :: read, hread.enter hown, fun _ => nofun, ?_⟩
      intro limit hlimit readings
      obtain ⟨below, rfl, hbelow⟩ := exists_limit_eq_succ htrail hlimit
      rw [survey_of_new hnew, hsurvey below hbelow, List.append_assoc, List.singleton_append]
      rfl
  | .conflicting hnew parents hconflict => by
      intro htrail hsound
      obtain ⟨read, hread, -, hsurvey⟩ := parents.survey (.parents key path) htrail
        (hsound.enter hnew) Lineage.wellFormed_empty
      have hown := unvisited_of_new htrail hnew parents.evolves.extends
      refine ⟨.parents key :: read ++ [.declarations key], hread.finish hown ?_ ?_, fun _ => nofun,
        ?_⟩
      · rfl
      · exact fun _ _ => Or.inl
      · intro limit hlimit readings
        obtain ⟨below, rfl, hbelow⟩ := exists_limit_eq_succ htrail hlimit
        rw [survey_of_new hnew, hsurvey below hbelow, Option.map_some,
          Survey.finish_conflicting hconflict]
        simp
  | .built hnew parents hconflict => by
      intro htrail hsound
      obtain ⟨read, hread, hdefines, hsurvey⟩ := parents.survey (.parents key path) htrail
        (hsound.enter hnew) Lineage.wellFormed_empty
      have hown := unvisited_of_new htrail hnew parents.evolves.extends
      obtain ⟨htoken, hnone⟩ := parents.find?_front hnew hsound
      refine ⟨.parents key :: read ++ [.declarations key], ?_, fun _ _ => ?_, ?_⟩
      · apply hread.add hown
        · exact hnone
        · exact htoken
      · apply (hdefines _ rfl).add
        · exact hnone
        · exact htoken
      · intro limit hlimit readings
        obtain ⟨below, rfl, hbelow⟩ := exists_limit_eq_succ htrail hlimit
        rw [survey_of_new hnew, hsurvey below hbelow, Option.map_some,
          Survey.finish_built hconflict]
        simp

theorem Gathers.survey {path parents : List TraitKey} {lineage : Lineage} {walk after : Walk}
    {result : Except DefineError Lineage} :
    Gathers setting path parents lineage walk result after →
      setting.signatures.FrontExtends path parents → setting.signatures.Trail start path →
        Sound setting path walk → lineage.WellFormed (find? setting walk) →
          ∃ read, Reads setting start path walk after read ∧
            (∀ gathered, result = .ok gathered → Defines setting after read) ∧
            ∀ limit, setting.signatures.reach start ≤ path.length + limit → ∀ readings,
              surveyParents setting.policy path (Walk.survey setting limit path) parents lineage
                ⟨walk, readings⟩ = some (result, ⟨after, readings ++ read⟩)
  | .done => by
      intro _ _ _ _
      refine ⟨[], .nil fun _ _ => id, fun _ _ => nofun, fun limit _ readings => ?_⟩
      rw [surveyParents, List.append_nil]
  | .cyclic onPath hpolicy => by
      intro _ _ _ _
      refine ⟨[], .nil fun _ _ => id, fun _ => nofun, fun limit _ readings => ?_⟩
      rw [hpolicy, surveyParents_cyclic onPath, List.append_nil]
  | .truncated onPath hpolicy others => by
      intro hparents htrail hsound hlineage
      obtain ⟨read, hread, hdefines, hsurvey⟩ :=
        others.survey hparents.tail htrail hsound hlineage
      refine ⟨read, hread, hdefines, fun limit hlimit readings => ?_⟩
      rw [← hsurvey limit hlimit readings, hpolicy]
      exact surveyParents_truncated onPath
  | .failed offPath first => by
      intro hparents htrail hsound _
      obtain ⟨read, hread, -, hsurvey⟩ :=
        first.survey (htrail.extend hparents.head offPath) hsound
      refine ⟨read, hread, fun _ => nofun, fun limit hlimit readings => ?_⟩
      exact surveyParents_failed offPath (hsurvey limit hlimit readings)
  | .added offPath first others => by
      intro hparents htrail hsound hlineage
      obtain ⟨hbetween, hmore, hfind⟩ := first.sound _ rfl offPath hsound
      have hgathered := (hlineage.mono hmore).addParent
        (hbetween.lookup.wellFormed _ _ hfind).toListed hfind
      obtain ⟨read, hread, hdefines, hsurvey⟩ :=
        first.survey (htrail.extend hparents.head offPath) hsound
      obtain ⟨rest, hrest, hdefinesRest, hsurveyRest⟩ :=
        others.survey hparents.tail htrail hbetween hgathered
      refine ⟨read ++ rest,
        hread.append (hdefines _ rfl) hrest hmore others.evolves.extends, ?_, ?_⟩
      · intro gathered hresult
        obtain ⟨-, hmoreRest, -⟩ := others.sound gathered hresult hbetween hgathered
        exact List.forall_mem_append.mpr
          ⟨(hdefines _ rfl).mono hmoreRest others.evolves.extends, hdefinesRest gathered hresult⟩
      · intro limit hlimit readings
        rw [surveyParents_added offPath (hsurvey limit hlimit readings), ← List.append_assoc]
        exact hsurveyRest limit hlimit _

end

end Walk

namespace Hierarchy

variable {hierarchy : Hierarchy} {identities : Identities}

/-- **A definition comes to an end, and it reads the signature of every trait at most once.**  Going
down no further than there are traits to be reached is enough for it, and then it reads the same
whatever the limit is.  It reads nothing of the traits in the hierarchy. -/
theorem Reachable.survey_eq_define (hreachable : hierarchy.Reachable identities)
    (signatures : Signatures) (policy : CyclePolicy) (key : TraitKey) (nextSerial : Nat) :
    let defined := hierarchy.define signatures policy key identities nextSerial
    {other | signatures.Reaches key other}.Finite ∧ ∃ read,
      (∀ limit, signatures.reach key ≤ limit →
        hierarchy.survey limit signatures policy key identities nextSerial = some (defined, read)) ∧
      read.Nodup ∧
      (∀ reading ∈ read, signatures.Reaches key reading.key ∧
        ∃ token, defined.identities.Identifies token reading.key ∧ hierarchy.find? token = none) ∧
      ∀ token trait, defined.hierarchy.find? token = some trait → hierarchy.find? token = none →
        ∃ other, defined.identities.Identifies token other ∧
          Reading.parents other ∈ read ∧ Reading.declarations other ∈ read := by
  intro defined
  refine ⟨signatures.finite_reaches key, ?_⟩
  cases hfind : hierarchy.find? (identities.ofType (.trait key)).1 with
  | some known =>
      have hdefined : defined = _ :=
        hierarchy.define_of_found signatures policy key identities nextSerial hfind
      refine ⟨[], fun limit _ => ?_, List.nodup_nil, nofun, ?_⟩
      · rw [survey, hfind, hdefined]
      · rw [hdefined]
        intro token trait hheld hnone
        rw [hnone] at hheld
        cases hheld
  | none =>
      obtain ⟨result, walk, hresolves, hdefine⟩ :=
        hierarchy.define_of_new signatures policy key identities nextSerial hfind
      have hdefined : defined = _ := hdefine
      obtain ⟨read, hread, -, hsurvey⟩ := hresolves.survey .start
        (sound_begin hreachable.identities_wellFormed hreachable.wellFormedLookup signatures policy
          key nextSerial)
      have hbegin := hierarchy.find?_begin signatures policy key identities nextSerial
      refine ⟨read, fun limit hlimit => ?_, hread.nodup, ?_, ?_⟩
      · rw [survey, hfind]
        dsimp only
        rw [hsurvey limit (by rwa [List.length_nil, Nat.zero_add]) [], hdefined]
        rfl
      · intro reading hreading
        obtain ⟨hreaches, -, token, htoken, hnone⟩ := hread.unvisited reading hreading
        rw [hbegin] at hnone
        exact ⟨hreaches, token, hdefined ▸ htoken, hnone⟩
      · intro token trait hheld hnone
        rw [hdefined] at hheld ⊢
        cases result with
        | error error =>
            rw [show hierarchy.find? token = some trait from hheld] at hnone
            cases hnone
        | ok answer =>
            have hfresh := hresolves.fresh (hierarchy.fresh_begin _ _ _ _ _)
            have hfound := (hierarchy.find?_commit signatures policy hfresh token).symm.trans hheld
            rcases hread.found token trait hfound with hknown | hread
            · rw [hbegin, hnone] at hknown
              cases hknown
            · exact hread

/-- Beside the diamond the circle is defined by truncating.  Of the four traits that are reached from
`Round` two are known, one of them only as an ancestor.  Nothing is read of them. -/
theorem survey_eq_define_round :
    let round := customKey "Round"
    let square := customKey "Square"
    let survey (limit : ℕ) := sideways.hierarchy.survey limit diamond .truncate round
      sideways.identities sideways.nextSerial
    let defined := sideways.hierarchy.define diamond .truncate round sideways.identities
      sideways.nextSerial
    sideways.hierarchy.Reachable sideways.identities ∧ diamond.reach round ≤ 4 ∧
      survey 4 = some (defined,
        [.parents round, .parents square, .declarations square, .declarations round]) ∧
      (survey 1).isNone := by
  intro round square survey defined
  have hclosed : ∀ key ∈ [round, square, customKey "Right", customKey "Base"],
      (diamond.get key).parents ⊆ [round, square, customKey "Right", customKey "Base"] := by
    decide +kernel
  have hreach : diamond.reach round ≤ 4 :=
    Signatures.reach_le_length List.mem_cons_self hclosed
  have hreachable := reachableUnder_sideways.reachable
  obtain ⟨-, read, hsurvey, -⟩ :=
    hreachable.survey_eq_define diamond .truncate round sideways.nextSerial
  have hfour : survey 4 = some (defined, read) := hsurvey 4 hreach
  have hread : (survey 4).map Prod.snd =
      some [.parents round, .parents square, .declarations square, .declarations round] := by
    decide +kernel
  rw [hfour, Option.map_some, Option.some_inj] at hread
  exact ⟨hreachable, hreach, hread ▸ hfour, by decide +kernel⟩

end Hierarchy

end TraitSystem
