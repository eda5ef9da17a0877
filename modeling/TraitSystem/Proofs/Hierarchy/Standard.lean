import TraitSystem.Proofs.Hierarchy.Portrait
import TraitSystem.Proofs.Hierarchy.Reachable

/-!
# The standard traits can always be defined

The standard traits extend each other and nothing else, what they declare is fixed, and it has no
conflicts.  So nothing that is said about custom traits can keep a standard trait from being
defined, provided that the standard traits that a hierarchy has already are as they should be
(`Trait.Realizes`).  They are, because a custom trait never takes the token of a standard one and
all walks that come by a standard trait build it of the same signatures
(`Hierarchy.Reachable.keepsStandards`).

## Strategy

`Walk.resolves_standard` finds a derivation that succeeds, by recursion on the height of the trait.
Since the rules leave no choice, it is that of the walk, wherever the walk comes from.  This needs a
path on which no trait is in the way; walks come to standard traits from custom ones, and from there
on the height only decreases.
-/

namespace TraitSystem

variable {ids later : Identities}

/-! ## What the standard traits extend -/

namespace Standard

/-- The traits that a standard trait extends directly. -/
def parents : Standard → List Standard
  | eq | partialOrd => [partialEq]
  | ord => [eq, partialOrd]
  | partialEq | display | clone | hash => []

/-- The number of traits on the longest way down from a standard trait. -/
def height : Standard → Nat
  | eq | partialOrd => 1
  | ord => 2
  | partialEq | display | clone | hash => 0

/-- The outline of a standard trait. -/
def outline : Standard → Outline
  | eq | partialOrd => ⟨[.standard partialEq], [.standard partialEq]⟩
  | ord =>
    ⟨[.standard eq, .standard partialOrd],
      [.standard partialEq, .standard eq, .standard partialOrd]⟩
  | partialEq | display | clone | hash => {}

theorem parents_signature (standard : Standard) :
    standard.signature.parents = standard.parents.map TraitKey.standard := by
  cases standard <;> rfl

theorem height_lt_of_mem_parents {parent standard : Standard}
    (hparent : parent ∈ standard.parents) : parent.height < standard.height := by
  cases standard <;> revert parent <;> decide

end Standard

/-- Adds a standard trait as a parent. -/
def Outline.addStandard (outline : Outline) (parent : Standard) : Outline :=
  outline.addParent (.standard parent) parent.outline

namespace Standard

/-- The outline is made of those of the parents. -/
theorem foldl_addStandard_parents (standard : Standard) :
    standard.parents.foldl Outline.addStandard {} = standard.outline := by
  cases standard <;> rfl

theorem conflict?_outline (standard : Standard) :
    standard.outline.conflict? {} (.standard standard) = none := by
  cases standard <;> decide

end Standard

/-! ## Traits that are as they should be -/

/-- A trait is what becomes of a standard trait when it is defined.  Its name has been recorded. -/
structure Trait.Realizes (ids : Identities) (trait : Trait) (standard : Standard) : Prop
    extends trait.Fits {} ids (.standard standard) standard.outline where
  methods : ∃ serial, trait.methods = standard.signature.methods serial
  settled : ids.Settled (.trait (.standard standard))

theorem Trait.Realizes.mono {trait : Trait} {standard : Standard}
    (hrealizes : trait.Realizes ids standard) (hextends : ids.Extends later) :
    trait.Realizes later standard where
  toFits := hrealizes.toFits.mono hextends
  methods := hrealizes.methods
  settled := hrealizes.settled.mono hextends

/-- Everything that a look-up knows has the token of a key, and of a standard trait no other trait
has the token than the one that becomes of it. -/
def KeepsStandards (ids : Identities) (lookup : Token → Option Trait) : Prop :=
  ∀ token trait, lookup token = some trait → ∃ key, ids.Identifies trait.identity key ∧
    ∀ standard, key = .standard standard → trait.Realizes ids standard

namespace KeepsStandards

variable {lookup : Token → Option Trait}

theorem mono (hkeeps : KeepsStandards ids lookup) (hextends : ids.Extends later) :
    KeepsStandards later lookup := by
  intro token trait hfind
  obtain ⟨key, hidentity, hrealizes⟩ := hkeeps token trait hfind
  refine ⟨key, hidentity.mono hextends, ?_⟩
  intro standard hkey
  exact (hrealizes standard hkey).mono hextends

theorem realizes (hkeeps : KeepsStandards ids lookup) (hids : ids.WellFormed)
    (hlookup : WellFormedLookup lookup) {token : Token} {trait : Trait} {standard : Standard}
    (hfind : lookup token = some trait) (htoken : ids.Identifies token (.standard standard)) :
    trait.Realizes ids standard := by
  obtain ⟨key, hidentity, hrealizes⟩ := hkeeps token trait hfind
  rw [← hlookup.own token trait hfind] at htoken
  exact hrealizes standard (hids.biUnique.2 hidentity htoken)

end KeepsStandards

namespace Walk

variable {setting : Setting}

/-! ## Walks to standard traits -/

/-- All that a walk finds under the tokens of standard traits is as it should be. -/
abbrev FindsStandards (setting : Setting) (walk : Walk) : Prop :=
  KeepsStandards walk.identities (find? setting walk)

theorem FindsStandards.request {walk : Walk} (hfinds : FindsStandards setting walk)
    (key : TraitKey) : FindsStandards setting (walk.request key) :=
  hfinds.mono (walk.evolves_request key).extends

theorem FindsStandards.add {walk : Walk} (hfinds : FindsStandards setting walk) {trait : Trait}
    (hnew : find? setting walk trait.identity = none) {key : TraitKey}
    (hidentity : walk.identities.Identifies trait.identity key)
    (hrealizes : ∀ standard, key = .standard standard → trait.Realizes walk.identities standard) :
    FindsStandards setting (walk.add trait) := by
  intro token other hother
  rw [find?_add walk hnew] at hother
  split at hother
  · cases hother
    exact ⟨key, hidentity, hrealizes⟩
  · exact hfinds token other hother

/-- A walk gets a standard trait, and keeps what it finds as it should be. -/
def Gets (setting : Setting) (path : List TraitKey) (standard : Standard) (walk : Walk) : Prop :=
  ∃ trait after, Resolves setting path (.standard standard) walk (.ok trait) after ∧
    trait.Realizes after.identities standard ∧ FindsStandards setting after

/-- Standard traits that a walk gets one by one can be gathered. -/
theorem gathers_standards {path : List TraitKey} {parents : List Standard} {lineage : Lineage}
    {outline : Outline} {walk : Walk} (hoff : ∀ parent ∈ parents, .standard parent ∉ path)
    (hgets : ∀ parent ∈ parents, ∀ walk, Sound setting path walk → FindsStandards setting walk →
      Gets setting path parent walk)
    (hsound : Sound setting path walk) (hfinds : FindsStandards setting walk)
    (hfollows : lineage.Follows {} walk.identities outline) :
    ∃ gathered after,
      Gathers setting path (parents.map .standard) lineage walk (.ok gathered) after ∧
        gathered.Follows {} after.identities (parents.foldl Outline.addStandard outline) ∧
        FindsStandards setting after := by
  induction parents generalizing lineage outline walk with
  | nil => exact ⟨lineage, walk, .done, hfollows, hfinds⟩
  | cons parent rest ih =>
      have hparent := hoff parent List.mem_cons_self
      obtain ⟨trait, between, hfirst, hrealizes, hfound⟩ :=
        hgets parent List.mem_cons_self walk hsound hfinds
      obtain ⟨hbetween, -⟩ := hfirst.sound trait rfl hparent hsound
      have hadded := (hfollows.mono hfirst.evolves.extends).addParent hbetween.identities
        hrealizes.toFits
      obtain ⟨gathered, after, hothers, hlast, hkept⟩ :=
        ih (fun other hother => hoff other (List.mem_cons_of_mem _ hother))
          (fun other hother => hgets other (List.mem_cons_of_mem _ hother)) hbetween hfound hadded
      exact ⟨gathered, after, .added hparent hfirst hothers, hlast, hkept⟩

/-- **A walk gets every standard trait** for which no standard trait on the path is in the way. -/
theorem resolves_standard (standard : Standard) {path : List TraitKey} {walk : Walk}
    (habove : ∀ other, .standard other ∈ path → standard.height < other.height)
    (hsound : Sound setting path walk) (hfinds : FindsStandards setting walk) :
    Gets setting path standard walk := by
  have hoff : .standard standard ∉ path := fun hpath => Nat.lt_irrefl _ (habove standard hpath)
  have hrequested := hfinds.request (.standard standard)
  have htoken := walk.find?_request (.standard standard)
  cases hfind : find? setting (walk.request (.standard standard))
      (walk.tokenOf (.standard standard)) with
  | some trait =>
      have hlookup := (hsound.request (.standard standard)).lookup
      have hids := (hsound.request (.standard standard)).identities
      exact ⟨trait, _, .found hfind, hrequested.realizes hids hlookup hfind htoken, hrequested⟩
  | none =>
      have hheight : ∀ parent ∈ standard.parents, ∀ other,
          .standard other ∈ .standard standard :: path → parent.height < other.height := by
        intro parent hparent other hother
        have hlower := Standard.height_lt_of_mem_parents hparent
        rcases List.mem_cons.mp hother with hself | hpath
        · cases hself
          exact hlower
        · exact Nat.lt_trans hlower (habove other hpath)
      have hentered := hsound.enter hfind
      obtain ⟨lineage, after, hparents, hfollows, hgathered⟩ := gathers_standards
        (fun parent hparent hself => Nat.lt_irrefl _ (hheight parent hparent parent hself))
        (fun parent hparent _ hsound hfinds =>
          resolves_standard parent (hheight parent hparent) hsound hfinds)
        hentered hrequested Lineage.follows_empty
      rw [Standard.foldl_addStandard_parents] at hfollows
      rw [← Standard.parents_signature] at hparents
      -- the outline has no conflict, so the lineage has none
      have hshape : (standard.signature.methods after.nextSerial).shape =
          (Signatures.get {} (.standard standard)).shape :=
        standard.signature.shape_methods after.nextSerial
      have hconflict := hfollows.conflict?_eq hshape
      rw [Standard.conflict?_outline, Option.map_none, Option.map_eq_none_iff] at hconflict
      let trait := after.traitFor (.standard standard) (walk.tokenOf (.standard standard))
        standard.signature lineage
      have hidentity : after.identities.Identifies trait.identity (.standard standard) :=
        hparents.evolves.extends.tokens _ _ htoken
      have hsettled := (walk.identities.settled_ofType _).mono hparents.evolves.extends
      have hrealizes : trait.Realizes after.identities standard :=
        ⟨⟨⟨hidentity, rfl, hshape⟩, hfollows⟩, ⟨after.nextSerial, rfl⟩, hsettled⟩
      obtain ⟨hafter, -, hlineage⟩ := hparents.sound lineage rfl hentered Lineage.wellFormed_empty
      obtain ⟨hnew, -⟩ := hafter.leave trait hoff hidentity hlineage
      refine ⟨trait, after.add trait, .built hfind hparents hconflict, hrealizes, ?_⟩
      refine hgathered.add hnew hidentity ?_
      intro other hother
      cases hother
      exact hrealizes
termination_by standard.height
decreasing_by exact Standard.height_lt_of_mem_parents hparent

/-! ## All walks -/

/-- On a path of custom traits a walk to a standard trait keeps what it finds as it should be. -/
theorem Resolves.findsStandards_of_standard {path : List TraitKey} {standard : Standard}
    {walk after : Walk} {result : Except DefineError Trait}
    (hresolves : Resolves setting path (.standard standard) walk result after)
    (hpath : ∀ other, .standard other ∉ path) (hsound : Sound setting path walk)
    (hfinds : FindsStandards setting walk) : FindsStandards setting after := by
  obtain ⟨trait, _, hgets, -, hafter⟩ :=
    resolves_standard standard (fun other hother => absurd hother (hpath other)) hsound hfinds
  obtain ⟨-, rfl⟩ := hresolves.unique hgets
  exact hafter

mutual

/-- **Whatever it resolves, a walk keeps what it finds as it should be.** -/
theorem Resolves.findsStandards {path : List TraitKey} {key : TraitKey} {walk after : Walk}
    {result : Except DefineError Trait} :
    Resolves setting path key walk result after → ∀ trait, result = .ok trait → key ∉ path →
      (∀ other, .standard other ∉ path) → Sound setting path walk →
        FindsStandards setting walk → FindsStandards setting after
  | .found _ => fun _ _ _ _ _ hfinds => hfinds.request key
  | .stopped _ _ => nofun
  | .conflicting _ _ _ => nofun
  | @Resolves.built _ _ _ _ gathered lineage hnew parents hconflict => by
      intro _ hresult offPath hpath hsound hfinds
      by_cases hstandard : ∃ standard, key = .standard standard
      · obtain ⟨standard, rfl⟩ := hstandard
        have hbuilt : Resolves setting path (.standard standard) walk _ _ :=
          .built hnew parents hconflict
        exact hbuilt.findsStandards_of_standard hpath hsound hfinds
      have hcustom : ∀ other, .standard other ∉ key :: path := by
        intro other hother
        rcases List.mem_cons.mp hother with hkey | hrest
        · exact hstandard ⟨other, hkey.symm⟩
        · exact hpath other hrest
      have hentered := hsound.enter hnew
      have hgathered := parents.findsStandards lineage rfl hcustom hentered (hfinds.request key)
      obtain ⟨hafter, -, hlineage⟩ := parents.sound lineage rfl hentered Lineage.wellFormed_empty
      have htoken := parents.evolves.extends.tokens _ _ (walk.find?_request key)
      obtain ⟨hfresh, -⟩ := hafter.leave
        (gathered.traitFor key (walk.tokenOf key) (setting.signatures.get key) lineage) offPath
        htoken hlineage
      -- a custom trait takes the token of no standard one
      exact hgathered.add hfresh htoken fun standard hkey => absurd ⟨standard, hkey⟩ hstandard

theorem Gathers.findsStandards {path parents : List TraitKey} {lineage : Lineage}
    {walk after : Walk} {result : Except DefineError Lineage} :
    Gathers setting path parents lineage walk result after → ∀ gathered, result = .ok gathered →
      (∀ other, .standard other ∉ path) → Sound setting path walk →
        FindsStandards setting walk → FindsStandards setting after
  | .done => fun _ _ _ _ hfinds => hfinds
  | .cyclic _ _ => nofun
  | .truncated _ _ others => others.findsStandards
  | .failed _ _ => nofun
  | .added offPath first others => by
      intro gathered hresult hpath hsound hfinds
      obtain ⟨hbetween, -⟩ := first.sound _ rfl offPath hsound
      have hfound := first.findsStandards _ rfl offPath hpath hsound hfinds
      exact others.findsStandards gathered hresult hpath hbetween hfound

end

end Walk

/-! ## Definitions -/

namespace Hierarchy

namespace Reachable

variable {hierarchy : Hierarchy} (hreachable : hierarchy.Reachable ids)

include hreachable

/-- **The standard traits of a hierarchy are as they should be**, whatever custom traits extend. -/
theorem keepsStandards : KeepsStandards ids hierarchy.find? := by
  induction hreachable with
  | empty _ => exact nofun
  | evolve _ hevolves ih => exact ih.mono hevolves.extends
  | define hbefore signatures policy key nextSerial ih =>
      refine define_keeps hbefore.identities_wellFormed hbefore.wellFormedLookup signatures policy
        key nextSerial (fun hkeeps hevolves => hkeeps.mono hevolves.extends) ?_ ih
      intro walk after trait hresolves hsound hfinds
      exact hresolves.findsStandards trait rfl List.not_mem_nil (fun _ => List.not_mem_nil) hsound
        hfinds

/-- **A standard trait can be defined**, and is as it should be. -/
theorem define_standard (signatures : Signatures) (policy : CyclePolicy) (standard : Standard)
    (nextSerial : Nat) :
    let defined := hierarchy.define signatures policy (.standard standard) ids nextSerial
    ∃ trait, defined.result = .ok trait ∧ trait.Realizes defined.identities standard := by
  intro defined
  have hids := hreachable.identities_wellFormed
  have hrequest := ids.evolves_ofType (.trait (.standard standard))
  have hkeeps := hreachable.keepsStandards.mono hrequest.extends
  cases hfind : hierarchy.find? (ids.ofType (.trait (.standard standard))).1 with
  | some known =>
      have hdefined : defined = _ :=
        hierarchy.define_of_found signatures policy (.standard standard) ids nextSerial hfind
      rw [hdefined]
      exact ⟨known, rfl, hkeeps.realizes (hrequest.wellFormed hids) hreachable.wellFormedLookup
        hfind (ids.find?_ofType _)⟩
  | none =>
      obtain ⟨result, walk, hresolves, hdefined⟩ :=
        hierarchy.define_of_new signatures policy (.standard standard) ids nextSerial hfind
      rw [← hierarchy.find?_begin signatures policy (.standard standard) ids nextSerial] at hkeeps
      obtain ⟨trait, after, hgets, hrealizes, -⟩ := Walk.resolves_standard standard
        (fun _ hother => absurd hother List.not_mem_nil)
        (sound_begin hids hreachable.wellFormedLookup signatures policy (.standard standard)
          nextSerial) hkeeps
      obtain ⟨rfl, rfl⟩ := hresolves.unique hgets
      rw [show defined = _ from hdefined]
      exact ⟨trait, rfl, hrealizes⟩

end Reachable

end Hierarchy

end TraitSystem
