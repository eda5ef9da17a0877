import TraitSystem.Proofs.Hierarchy.Definability
import TraitSystem.Proofs.Members.Sequence

/-!
# Orders of implementation

The list of the ancestors of a trait is an order in which they can be implemented.  What is
implemented already can be left out, whichever of them that is and wherever it came from
(`implementAll_ancestors`).

Other orders lead to the same implementations, as long as no trait comes before one of its ancestors
(`implementAll_perm`).  Which trait a name stands for may depend on the order, but only if the name
was free and several of the traits declare it.
-/

namespace TraitSystem

namespace Members

variable {members first second : Members} {identity : Token} {requests others : List Request}

/-! ## The order of the ancestors -/

/-- A list of traits is admitted in its order, without those that are implemented already. -/
theorem AdmitsAll.of_listed {lookup : Token → Option Trait} {traits : List Trait}
    (hlisted : Lineage.Listed lookup traits)
    (hsublist : (requests.map Request.trait).Sublist traits)
    (hskipped : ∀ trait ∈ traits, trait ∉ requests.map Request.trait →
      members.contains identity trait.identity)
    (hfresh : ∀ request ∈ requests, members.contains identity request.trait.identity = false)
    (hsuits : ∀ request ∈ requests, request.Suits) : members.AdmitsAll identity requests := by
  have htraits {request : Request} (hrequest : request ∈ requests) : request.trait ∈ traits :=
    hsublist.subset (List.mem_map_of_mem hrequest)
  have hordered : traits.Pairwise fun earlier later => ¬ earlier.hasAncestor later :=
    List.pairwise_iff_getElem.mpr fun i j hi hj hij =>
      hlisted.not_hasAncestor hi hj (Nat.le_of_lt hij)
  refine ⟨hsuits, hfresh, ?_, ?_, ?_, List.pairwise_map.mp (hordered.sublist hsublist)⟩
  · have hnodup := hlisted.nodup.sublist (hsublist.map Trait.identity)
    rwa [List.map_map] at hnodup
  · intro request hrequest ancestor hancestor
    have hmem := hlisted.closed (htraits hrequest) hancestor
    by_cases hrequested : ancestor ∈ requests.map Request.trait
    · obtain ⟨other, hother, rfl⟩ := List.mem_map.mp hrequested
      exact Or.inr ⟨other, hother, rfl⟩
    · exact Or.inl (hskipped ancestor hmem hrequested)
  · intro request hrequest
    obtain ⟨i, hi, hsame⟩ := List.mem_iff_getElem.mp (htraits hrequest)
    rw [← hsame]
    exact hlisted.not_hasAncestor hi hi i.le_refl

/-- **The ancestors of a trait can be implemented in the order of their list, and then the trait.**
Those that are implemented already are left out, and the bodies only have to suit the traits. -/
theorem implementAll_ancestors {hierarchy : Hierarchy} {identities : Identities}
    (hreachable : hierarchy.Reachable identities) {trait : Trait}
    (htrait : trait ∈ hierarchy.traits.values) (members : Members) (identity : Token)
    (hnew : members.contains identity trait.identity = false) (requests : List Request)
    (htraits : requests.map Request.trait =
      (trait.ancestors.filter fun ancestor => !members.contains identity ancestor.identity) ++
        [trait])
    (hsuits : ∀ request ∈ requests, request.Suits) :
    ∃ after, members.implementAll identity requests = .ok after ∧
      after.traitsOf identity = members.traitsOf identity ++ requests.map Request.trait := by
  have hlookup := hreachable.wellFormedLookup
  have hshared := Hierarchy.find?_identity_of_mem hlookup htrait
  have hown := hlookup.wellFormed _ _ hshared
  have hlisted : Lineage.Listed hierarchy.find? (trait.ancestors ++ [trait]) :=
    hown.toListed.append hshared hown.not_self fun _ hearlier => hearlier
  have hmem (other : Trait) : other ∈ requests.map Request.trait ↔
      (other ∈ trait.ancestors ∧ members.contains identity other.identity = false) ∨
        other = trait := by
    rw [htraits]
    simp
  have hadmits : members.AdmitsAll identity requests := by
    refine AdmitsAll.of_listed hlisted ?_ ?_ ?_ hsuits
    · rw [htraits]
      exact List.filter_sublist.append_right _
    · intro other hother hskipped
      rw [hmem, not_or, not_and, Bool.not_eq_false] at hskipped
      rcases List.mem_append.mp hother with hancestor | hlast
      · exact hskipped.1 hancestor
      · exact absurd (List.mem_singleton.mp hlast) hskipped.2
    · intro request hrequest
      rcases (hmem request.trait).mp (List.mem_map_of_mem hrequest) with ⟨-, hfresh⟩ | hsame
      · exact hfresh
      · rw [hsame]
        exact hnew
  obtain ⟨after, hafter⟩ := exists_implementAll_iff.mpr hadmits
  exact ⟨after, hafter, (gainsAll_implementAll hafter).traitsOf⟩

/-- A request with a body for every method of a trait. -/
def Request.supplied (trait : Trait) : Request where
  targetName := "Unit"
  trait
  overrides := Table.ofList (trait.methods.keys.map (·, ⟨0, .untyped (.value .unit)⟩))
  completeness := .atRegistration

theorem Request.suits_supplied (trait : Trait) : (supplied trait).Suits := by
  have hoverrides (method : String) :
      (supplied trait).overrides.contains method ↔ trait.declares method := by
    show Table.contains _ method ↔ Table.contains _ method
    rw [← Table.mem_keys_iff, ← Table.mem_keys_iff, supplied, Table.mem_keys_ofList, List.map_map]
    simp [Function.comp_def]
  refine ⟨fun method hmethod => (hoverrides method).mp hmethod, ?_⟩
  intro _ method hrequires
  refine (hoverrides method).mpr ?_
  obtain ⟨body?, hfind, -⟩ := Option.map_eq_some_iff.mp hrequires
  exact Option.isSome_iff_exists.mpr ⟨body?, hfind⟩

private theorem eq_ok_of_mem_toOption {ε α : Type} {result : Except ε α} {value : α}
    (hmem : value ∈ result.toOption) : result = .ok value := by
  cases result with
  | error error => cases hmem
  | ok other =>
      cases hmem
      rfl

/-- In the circle, cut where it closes, `Bottom` and `Left` are implemented before it comes to the
rest of what `Top` extends. -/
theorem implementAll_ancestors_circle :
    let hierarchy :=
      (Hierarchy.empty.define Hierarchy.circle .truncate (Hierarchy.customKey "Top") .empty
        0).hierarchy
    ∃ top ∈ hierarchy.traits.values, ∃ before after : Members,
      top.ancestors.map Trait.name = ["Bottom", "Left", "Right"] ∧
      empty.implementAll ⟨9⟩ ((top.ancestors.take 2).map .supplied) = .ok before ∧
      before.implementAll ⟨9⟩ (((top.ancestors.filter fun ancestor =>
        !before.contains ⟨9⟩ ancestor.identity) ++ [top]).map .supplied) = .ok after ∧
      (after.traitsOf ⟨9⟩).map Trait.name = ["Bottom", "Left", "Right", "Top"] := by
  intro hierarchy
  have hreachable : hierarchy.Reachable _ :=
    (Hierarchy.Reachable.empty (Identities.Evolves.refl _)).define _ _ _ _
  obtain ⟨top, htop, hname, hancestors, before, hbefore, hnew, hnames, hmissing⟩ :
      ∃ top ∈ hierarchy.traits.values, top.name = "Top" ∧
        top.ancestors.map Trait.name = ["Bottom", "Left", "Right"] ∧
        ∃ before ∈ (empty.implementAll ⟨9⟩ ((top.ancestors.take 2).map .supplied)).toOption,
          before.contains ⟨9⟩ top.identity = false ∧
          (before.traitsOf ⟨9⟩).map Trait.name = ["Bottom", "Left"] ∧
          (top.ancestors.filter fun ancestor =>
            !before.contains ⟨9⟩ ancestor.identity).map Trait.name = ["Right"] := by
    decide +kernel
  have hsupplied (traits : List Trait) :
      (traits.map Request.supplied).map Request.trait = traits := by
    simp [Request.supplied, Function.comp_def]
  obtain ⟨after, hafter, htraits⟩ := implementAll_ancestors hreachable htop before ⟨9⟩ hnew _
    (hsupplied _) (List.forall_mem_map.mpr fun trait _ => Request.suits_supplied trait)
  refine ⟨top, htop, before, after, hancestors, eq_ok_of_mem_toOption hbefore, hafter, ?_⟩
  rw [htraits, hsupplied, List.map_append, List.map_append, hnames, hmissing, List.map_singleton,
    hname]
  rfl

/-! ## Other orders -/

/-- Members of which nothing but one list of traits and some names differ. -/
structure SameBut (first second : Members) (identity : Token) (settled : String → Prop) :
    Prop where
  /-- The same traits with the same bodies. -/
  implementation? : ∀ other token,
    second.implementation? other token = first.implementation? other token
  contains : ∀ other token, second.contains other token = first.contains other token
  size : second.size = first.size
  targetCount : second.targetCount = first.targetCount
  traitsOf : ∀ other, other ≠ identity → second.traitsOf other = first.traitsOf other
  member? : ∀ other name, other ≠ identity ∨ settled name →
    second.member? other name = first.member? other name

/-- What requests come to in one order and in another one. -/
theorem GainsAll.sameBut (hfirst : members.GainsAll first identity requests)
    (hsecond : members.GainsAll second identity others) (hperm : others.Perm requests) :
    first.SameBut second identity fun name => (members.member? identity name).isSome ∨
      requests.countP (fun request => request.trait.declares name) ≤ 1 := by
  have htarget : ∀ other, other ≠ identity → second.target other = first.target other :=
    fun other hne => (hsecond.others other hne).trans (hfirst.others other hne).symm
  have himplementation : ∀ other token,
      second.implementation? other token = first.implementation? other token := by
    intro other token
    unfold Members.implementation?
    by_cases hother : other = identity
    · subst hother
      refine Table.find?_eq_of_perm ?_ token
      rw [hsecond.implementations, hfirst.implementations]
      exact (hperm.map _).append_left _
    · rw [htarget other hother]
  refine ⟨himplementation, ?_, ?_, ?_, ?_, ?_⟩
  · intro other token
    unfold Members.contains
    rw [himplementation]
  · rw [hsecond.size, hfirst.size, hperm.length_eq]
  · unfold targetCount
    rw [← Table.length_keys, ← Table.length_keys, hsecond.keys, hfirst.keys, hperm.length_eq]
  · intro other hne
    unfold Members.traitsOf
    rw [htarget other hne]
  · intro other name hsettled
    by_cases hother : other = identity
    · subst hother
      rw [hsecond.member?, hfirst.member?]
      rcases hsettled.resolve_left (not_not_intro rfl) with hold | hfew
      · -- the name stands for what it stood for before
        obtain ⟨member, hmember⟩ := Option.isSome_iff_exists.mp hold
        rw [hmember, Option.some_or, Option.some_or]
      · rw [find?_eq_of_perm hperm hfew]
    · unfold Members.member?
      rw [htarget other hother]

/-- **Requests are accepted in every order in which no trait comes before one of its ancestors**,
and come to the same.  The traits are listed in the order of the requests, and names that were free
may stand for another one of those that declare them. -/
theorem implementAll_perm (hfirst : members.implementAll identity requests = .ok first)
    (hperm : others.Perm requests)
    (hordered : others.Pairwise fun earlier later => ¬ earlier.trait.hasAncestor later.trait) :
    ∃ second, members.implementAll identity others = .ok second ∧
      first.traitsOf identity = members.traitsOf identity ++ requests.map Request.trait ∧
      second.traitsOf identity = members.traitsOf identity ++ others.map Request.trait ∧
      first.SameBut second identity fun name => (members.member? identity name).isSome ∨
        requests.countP (fun request => request.trait.declares name) ≤ 1 := by
  have hadmits := (exists_implementAll_iff.mp ⟨first, hfirst⟩).perm hperm hordered
  obtain ⟨second, hsecond⟩ := exists_implementAll_iff.mpr hadmits
  have hforth := gainsAll_implementAll hfirst
  have hback := gainsAll_implementAll hsecond
  exact ⟨second, hsecond, hforth.traitsOf, hback.traitsOf, hforth.sameBut hback hperm⟩

/-- The two sides of a diamond may change places.  Both declare `side`, which goes to the first one
of them, and nothing else is different. -/
theorem implementAll_perm_diamond :
    let traits := (Hierarchy.empty.define Hierarchy.diamond .reject (Hierarchy.customKey "Both")
      .empty 0).hierarchy.traits.values
    let requests (positions : List ℕ) : List Request :=
      (positions.filterMap fun position => traits[position]?).map .supplied
    let holder (members : Members) (name : String) : Option String :=
      ((members.target ⟨9⟩).forwards.find? name).map Trait.name
    ∃ first second : Members,
      empty.implementAll ⟨9⟩ (requests [0, 1, 2, 3]) = .ok first ∧
      empty.implementAll ⟨9⟩ (requests [0, 2, 1, 3]) = .ok second ∧
      (first.traitsOf ⟨9⟩).map Trait.name = ["Base", "Left", "Right", "Both"] ∧
      (second.traitsOf ⟨9⟩).map Trait.name = ["Base", "Right", "Left", "Both"] ∧
      holder first "side" = some "Left" ∧ holder second "side" = some "Right" ∧
      second.member? ⟨9⟩ "base" = first.member? ⟨9⟩ "base" ∧
      ∀ token, second.implementation? ⟨9⟩ token = first.implementation? ⟨9⟩ token := by
  intro traits requests holder
  obtain ⟨first, hfirst, second, hsecond, hnames, hrearranged, hleft, hright⟩ :
      ∃ first ∈ (empty.implementAll ⟨9⟩ (requests [0, 1, 2, 3])).toOption,
        ∃ second ∈ (empty.implementAll ⟨9⟩ (requests [0, 2, 1, 3])).toOption,
          (first.traitsOf ⟨9⟩).map Trait.name = ["Base", "Left", "Right", "Both"] ∧
          (second.traitsOf ⟨9⟩).map Trait.name = ["Base", "Right", "Left", "Both"] ∧
          holder first "side" = some "Left" ∧ holder second "side" = some "Right" := by
    decide +kernel
  have hpositions : [0, 2, 1, 3].Perm [0, 1, 2, 3] := by decide
  have hordered : (requests [0, 2, 1, 3]).Pairwise fun earlier later =>
      ¬ earlier.trait.hasAncestor later.trait := by
    decide +kernel
  have hbase :
      (requests [0, 1, 2, 3]).countP (fun request => request.trait.declares "base") ≤ 1 := by
    decide +kernel
  obtain ⟨other, hother, -, -, hsame⟩ := implementAll_perm (eq_ok_of_mem_toOption hfirst)
    ((hpositions.filterMap _).map _) hordered
  have hagain := eq_ok_of_mem_toOption hsecond
  obtain rfl : other = second := by
    rw [hother] at hagain
    exact Except.ok.inj hagain
  exact ⟨first, other, eq_ok_of_mem_toOption hfirst, hother, hnames, hrearranged, hleft, hright,
    hsame.member? _ _ (Or.inr (Or.inr hbase)), hsame.implementation? _⟩

end Members

end TraitSystem
