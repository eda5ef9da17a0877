import TraitSystem.Proofs.Hierarchy.Growth
import TraitSystem.Proofs.Hierarchy.Lineage

/-!
# Hierarchies are well-formed

Whatever the signatures say, and however they change between definitions, a hierarchy that was made
by definitions is well-formed: every trait is stored under its own identity, its ancestors are
traits of the hierarchy, each one after its own, and it is not among them (`WellFormed`).  So
`Trait.hasAncestor` is a strict order on it, even where the signatures extend each other in circles.

## Strategy

The invariant of a walk is `Sound`.  It speaks of what the walk finds, that is of the known traits
and the built ones together, and says besides that no trait on the path is found.  The latter is
what keeps a trait out of its own ancestors: they are all found when the trait is built, and the
trait itself is not.  For this it must be known that different traits have different tokens, so the
invariant includes that the identities are well-formed.

For the same reason a path may be told by its tokens (`Walk.Sound.mem_path_iff`), and the walk need
not ask for the token of a parent before it has seen that the parent is off the path
(`Walk.Sound.request_eq`).
-/

namespace TraitSystem

/-! ## Well-formed traits -/

/-- A trait whose ancestors are as they should be among the traits that a look-up knows. -/
structure Trait.WellFormed (lookup : Token → Option Trait) (trait : Trait) : Prop
    extends Lineage.WellFormed lookup ⟨trait.parents, trait.ancestors⟩ where
  /-- The trait is not among its own ancestors. -/
  not_self : ∀ ancestor ∈ trait.ancestors, ancestor.identity ≠ trait.identity

theorem Trait.WellFormed.mono {lookup larger : Token → Option Trait} {trait : Trait}
    (htrait : trait.WellFormed lookup)
    (hlarger : ∀ token trait, lookup token = some trait → larger token = some trait) :
    trait.WellFormed larger where
  toWellFormed := htrait.toWellFormed.mono hlarger
  not_self := htrait.not_self

/-- A look-up that finds well-formed traits, each under its own identity. -/
structure WellFormedLookup (lookup : Token → Option Trait) : Prop where
  own : ∀ token trait, lookup token = some trait → trait.identity = token
  wellFormed : ∀ token trait, lookup token = some trait → trait.WellFormed lookup

/-! ## The invariant of a walk -/

namespace Walk

variable {setting : Setting}

/-- What the walk finds is well-formed, and the traits on the path, which have been asked for, are
not among it. -/
structure Sound (setting : Setting) (path : List TraitKey) (walk : Walk) : Prop where
  identities : walk.identities.WellFormed
  lookup : WellFormedLookup (find? setting walk)
  settled : ∀ key ∈ path, walk.identities.Settled (.trait key)
  path : ∀ key ∈ path, ∃ token, walk.identities.find? (.type (.trait key)) = some token ∧
    find? setting walk token = none

/-- What one walk finds another one finds too. -/
def FindsMore (setting : Setting) (walk after : Walk) : Prop :=
  ∀ token trait, find? setting walk token = some trait → find? setting after token = some trait

theorem FindsMore.refl (walk : Walk) : FindsMore setting walk walk := fun _ _ h => h

theorem FindsMore.trans {first second third : Walk} (hfirst : FindsMore setting first second)
    (hsecond : FindsMore setting second third) : FindsMore setting first third :=
  fun token trait h => hsecond token trait (hfirst token trait h)

theorem find?_add (walk : Walk) {trait : Trait}
    (hnew : find? setting walk trait.identity = none) (token : Token) :
    find? setting (walk.add trait) token =
      if trait.identity = token then some trait else find? setting walk token := by
  have hinsert : find? setting (walk.add trait) token = (setting.known.find? token).or
      (if trait.identity = token then some trait else walk.built.find? token) :=
    congrArg _ (Table.find?_insert ..)
  rw [hinsert]
  by_cases hsame : trait.identity = token
  · rw [if_pos hsame, if_pos hsame, ← hsame, (find?_eq_none.mp hnew).1, Option.none_or]
  · rw [if_neg hsame, if_neg hsame]
    rfl

theorem findsMore_add (walk : Walk) {trait : Trait}
    (hnew : find? setting walk trait.identity = none) :
    FindsMore setting walk (walk.add trait) := by
  intro token known hknown
  rw [find?_add walk hnew, if_neg, hknown]
  rintro rfl
  rw [hnew] at hknown
  cases hknown

theorem find?_request (walk : Walk) (key : TraitKey) :
    (walk.request key).identities.find? (.type (.trait key)) = some (walk.tokenOf key) :=
  Identities.find?_ofType ..

/-- Asking for an identity and reading a signature find nothing new. -/
theorem Sound.request {path : List TraitKey} {walk : Walk} (hsound : Sound setting path walk)
    (key : TraitKey) : Sound setting path (walk.request key) where
  identities := (walk.evolves_request key).wellFormed hsound.identities
  lookup := hsound.lookup
  path other hother := by
    obtain ⟨token, htoken, hnone⟩ := hsound.path other hother
    exact ⟨token, (walk.evolves_request key).extends.tokens _ _ htoken, hnone⟩
  settled other hother := (hsound.settled other hother).mono (walk.evolves_request key).extends

/-- A trait that is not found may go on the path. -/
theorem Sound.enter {path : List TraitKey} {walk : Walk} (hsound : Sound setting path walk)
    {key : TraitKey} (hnew : find? setting (walk.request key) (walk.tokenOf key) = none) :
    Sound setting (key :: path) ((walk.request key).expand (key :: path)) where
  identities := (hsound.request key).identities
  lookup := hsound.lookup
  path other hother := by
    rcases List.mem_cons.mp hother with rfl | hrest
    · exact ⟨walk.tokenOf other, walk.find?_request other, hnew⟩
    · exact (hsound.request key).path other hrest
  settled other hother := by
    rcases List.mem_cons.mp hother with rfl | hrest
    · exact walk.identities.settled_ofType _
    · exact (hsound.request key).settled other hrest

/-- What a walk finds is well-formed after a trait has been built of a well-formed lineage. -/
theorem WellFormedLookup.add {walk : Walk} (hlookup : WellFormedLookup (find? setting walk))
    {trait : Trait} (hnew : find? setting walk trait.identity = none)
    (hlineage : Lineage.WellFormed (find? setting walk) ⟨trait.parents, trait.ancestors⟩) :
    WellFormedLookup (find? setting (walk.add trait)) := by
  have hmore := walk.findsMore_add hnew
  have htrait : trait.WellFormed (find? setting walk) := by
    refine ⟨hlineage, ?_⟩
    intro ancestor hancestor hsame
    have hfind := hlineage.shared ancestor hancestor
    rw [hsame, hnew] at hfind
    cases hfind
  refine ⟨?_, ?_⟩
  · intro token other hother
    rw [find?_add walk hnew] at hother
    split at hother
    · rename_i hsame
      cases hother
      exact hsame
    · exact hlookup.own token other hother
  · intro token other hother
    rw [find?_add walk hnew] at hother
    split at hother
    · cases hother
      exact htrait.mono hmore
    · exact (hlookup.wellFormed token other hother).mono hmore

/-- Building the trait in front of the path takes it off. -/
theorem Sound.leave {path : List TraitKey} {key : TraitKey} {walk : Walk}
    (hsound : Sound setting (key :: path) walk) (trait : Trait) (offPath : key ∉ path)
    (htoken : walk.identities.find? (.type (.trait key)) = some trait.identity)
    (hlineage : Lineage.WellFormed (find? setting walk) ⟨trait.parents, trait.ancestors⟩) :
    find? setting walk trait.identity = none ∧ Sound setting path (walk.add trait) := by
  have hnew : find? setting walk trait.identity = none := by
    obtain ⟨token, hown, hnone⟩ := hsound.path key List.mem_cons_self
    rw [htoken] at hown
    rwa [Option.some_inj.mp hown]
  refine ⟨hnew, hsound.identities, WellFormedLookup.add hsound.lookup hnew hlineage,
    fun other hother => hsound.settled other (List.mem_cons_of_mem _ hother), ?_⟩
  intro other hother
  obtain ⟨token, hown, hnone⟩ := hsound.path other (List.mem_cons_of_mem _ hother)
  refine ⟨token, hown, ?_⟩
  rw [find?_add walk hnew, if_neg, hnone]
  -- two traits with one token would be the same
  rintro rfl
  obtain rfl : key = other := hsound.identities.biUnique.2 htoken hown
  exact offPath hother

/-! ## Paths of tokens -/

/-- A trait with a token keeps it when it is asked for. -/
theorem tokenOf_eq {walk : Walk} {key : TraitKey} {token : Token}
    (htoken : walk.identities.find? (.type (.trait key)) = some token) :
    walk.tokenOf key = token := by
  have hkept := (walk.evolves_request key).extends.tokens _ _ htoken
  exact Option.some_inj.mp ((walk.find?_request key).symm.trans hkept)

/-- **A path of tokens would do as well.**  A trait is on the path if a trait with its token is. -/
theorem Sound.mem_path_iff {path : List TraitKey} {walk : Walk} (hsound : Sound setting path walk)
    (key : TraitKey) : key ∈ path ↔ walk.tokenOf key ∈ path.map walk.tokenOf := by
  refine ⟨List.mem_map_of_mem, fun hmem => ?_⟩
  obtain ⟨other, hother, hsame⟩ := List.mem_map.mp hmem
  obtain ⟨token, htoken, -⟩ := hsound.path other hother
  -- if the trait has no token yet, it gets one that no trait on the path has
  have hkept := (walk.evolves_request key).extends.tokens _ _ htoken
  rw [← tokenOf_eq htoken, hsame] at hkept
  obtain rfl : other = key :=
    (hsound.request key).identities.biUnique.2 hkept (walk.find?_request key)
  exact hother

/-- Asking for the token of a trait on the path changes nothing. -/
theorem Sound.request_eq {path : List TraitKey} {walk : Walk} (hsound : Sound setting path walk)
    {key : TraitKey} (hkey : key ∈ path) : walk.request key = walk := by
  unfold Walk.request
  rw [(hsound.settled key hkey).ofType_eq]

/-! ## Walks keep the invariant -/

mutual

/-- **Resolving keeps what is found well-formed, and the answer is found.** -/
theorem Resolves.sound {path : List TraitKey} {key : TraitKey} {walk after : Walk}
    {result : Except DefineError Trait} :
    Resolves setting path key walk result after → ∀ trait, result = .ok trait → key ∉ path →
      Sound setting path walk → Sound setting path after ∧ FindsMore setting walk after ∧
        find? setting after trait.identity = some trait
  | .found hfind => by
      intro trait hresult offPath hsound
      cases hresult
      refine ⟨hsound.request key, FindsMore.refl walk, ?_⟩
      rw [hsound.lookup.own _ _ hfind]
      exact hfind
  | .stopped _ _ => nofun
  | .conflicting _ _ _ => nofun
  | @Resolves.built _ _ _ _ gathered lineage hnew parents _ => by
      intro _ hresult offPath hsound
      cases hresult
      let trait := gathered.traitFor key (walk.tokenOf key) (setting.signatures.get key) lineage
      obtain ⟨hgathered, hmore, hlineage⟩ :=
        parents.sound lineage rfl (hsound.enter hnew) Lineage.wellFormed_empty
      have htoken := parents.evolves.extends.tokens _ _ (walk.find?_request key)
      obtain ⟨hnone, hafter⟩ := hgathered.leave trait offPath htoken hlineage
      refine ⟨hafter, hmore.trans (gathered.findsMore_add hnone), ?_⟩
      rw [find?_add gathered hnone, if_pos rfl]

/-- Gathering parents keeps what is found well-formed, and with it the lineage. -/
theorem Gathers.sound {path parents : List TraitKey} {lineage : Lineage} {walk after : Walk}
    {result : Except DefineError Lineage} :
    Gathers setting path parents lineage walk result after → ∀ gathered, result = .ok gathered →
      Sound setting path walk → lineage.WellFormed (find? setting walk) →
        Sound setting path after ∧ FindsMore setting walk after ∧
          gathered.WellFormed (find? setting after)
  | .done => by
      intro gathered hresult hsound hlineage
      cases hresult
      exact ⟨hsound, FindsMore.refl walk, hlineage⟩
  | .cyclic _ _ => nofun
  | .truncated _ _ others => others.sound
  | .failed _ _ => nofun
  | .added offPath first others => by
      intro gathered hresult hsound hlineage
      obtain ⟨hbetween, hmore, hfind⟩ := first.sound _ rfl offPath hsound
      have hparent := (hbetween.lookup.wellFormed _ _ hfind).toListed
      obtain ⟨hafter, hmore', hgathered⟩ := others.sound gathered hresult hbetween
        ((hlineage.mono hmore).addParent hparent hfind)
      exact ⟨hafter, hmore.trans hmore', hgathered⟩

end

/-- When the parents of a trait have been gathered it has its token, and it is not found yet. -/
theorem Gathers.find?_front {path parents : List TraitKey} {key : TraitKey} {walk after : Walk}
    {lineage : Lineage}
    (hgathers : Gathers setting (key :: path) parents {} ((walk.request key).expand (key :: path))
      (.ok lineage) after)
    (hnew : find? setting (walk.request key) (walk.tokenOf key) = none)
    (hsound : Sound setting path walk) :
    after.identities.find? (.type (.trait key)) = some (walk.tokenOf key) ∧
      find? setting after (walk.tokenOf key) = none := by
  have htoken := hgathers.evolves.extends.tokens _ _ (walk.find?_request key)
  obtain ⟨hafter, -⟩ := hgathers.sound lineage rfl (hsound.enter hnew) Lineage.wellFormed_empty
  obtain ⟨token, hown, hnone⟩ := hafter.path key List.mem_cons_self
  cases hown.symm.trans htoken
  exact ⟨htoken, hnone⟩

end Walk

end TraitSystem
