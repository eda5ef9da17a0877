import TraitSystem.Proofs.Hierarchy.Trail
import TraitSystem.Proofs.Hierarchy.Truncation

/-!
# Reported cycles

When a definition reports a trait as its own ancestor, the chain of the report is a loop of traits,
each of which has the next one among its parents (`Reachable.loop_of_cyclicAncestry`).  None of them
has been defined.  What led the walk to the loop is no part of it.

The report is made at the end of a trail, when the next trait turns out to be on it.  It is cut off
where this trait is, which is always on the path, and only once: the loop is what comes from there
on (`cycle_of_split`).
-/

namespace TraitSystem

/-- A loop of traits that begins and ends with the same one.  Every trait extends the next one
directly, and no other is met twice. -/
structure Signatures.IsLoop (signatures : Signatures) (first : TraitKey) (others : List TraitKey) :
    Prop where
  nodup : (first :: others).Nodup
  chain : List.IsChain signatures.Extends (first :: others ++ [first])

/-- If the end of a trail extends a trait on it, then this trait and what lies before it are a
loop. -/
theorem Signatures.Trail.isLoop {signatures : Signatures} {start first : TraitKey}
    {inner outer : List TraitKey} (htrail : signatures.Trail start (inner ++ first :: outer))
    (hcloses : ∀ front ∈ (inner ++ first :: outer).head?, signatures.Extends front first) :
    signatures.IsLoop first inner.reverse := by
  have hturned : (inner ++ first :: outer).reverse = outer.reverse ++ first :: inner.reverse := by
    simp
  have hnodup := List.nodup_reverse.mpr htrail.nodup
  have hchain := htrail.isChain_reverse
  rw [hturned] at hnodup hchain
  refine ⟨hnodup.of_append_right, List.isChain_append.mpr ⟨hchain.right_of_append, by simp, ?_⟩⟩
  intro front hfront last hlast
  rw [List.head?_cons, Option.mem_some] at hlast
  subst hlast
  -- the loop is written from its first trait on, so it ends with the front of the path
  have hsplit : first :: inner.reverse = (inner ++ [first]).reverse := by simp
  rw [hsplit, List.getLast?_reverse] at hfront
  apply hcloses
  cases inner <;> exact hfront

namespace Walk

/-! ## Cutting a path -/

/-- What lies between a trait on a path and its end is the cycle that goes back to the trait. -/
theorem cycle_of_split {inner outer : List TraitKey} {first : TraitKey}
    (hnew : first ∉ outer) :
    cycle (inner ++ first :: outer) first = first :: inner.reverse ++ [first] := by
  have hturned : (inner ++ first :: outer).reverse = outer.reverse ++ first :: inner.reverse := by
    simp
  have happroach : outer.reverse.findIdx? (· = first) = none := by
    rw [List.findIdx?_eq_none_iff]
    intro other hother
    exact decide_eq_false fun hsame => hnew (hsame ▸ List.mem_reverse.mp hother)
  have hstart : (outer.reverse ++ first :: inner.reverse).findIdx? (· = first) =
      some outer.reverse.length := by
    rw [List.findIdx?_append, happroach, List.findIdx?_cons, decide_eq_true rfl]
    simp
  unfold cycle
  rw [hturned]
  dsimp only
  rw [hstart, Option.getD_some, List.drop_left]

/-- The report at the end of a trail, when the front extends a trait on it. -/
structure ClosesLoop (setting : Setting) (start : TraitKey) (after : Walk)
    (error : DefineError) (path : List TraitKey) (first : TraitKey) : Prop where
  trail : setting.signatures.Trail start path
  onPath : first ∈ path
  closes : ∀ front ∈ path.head?, setting.signatures.Extends front first
  undefined : ∀ key ∈ path, ∃ token, after.identities.Identifies token key ∧
    setting.known.find? token = none
  followed : path ∈ after.expansions
  error_eq : error = cycleError path first

variable {setting : Setting} {start : TraitKey}

/-! ## Where reports come from -/

mutual

/-- **A report is made at the end of a trail.** -/
theorem Resolves.closesLoop {path : List TraitKey} {key : TraitKey} {walk after : Walk}
    {result : Except DefineError Trait} :
    Resolves setting path key walk result after → ∀ error, result = .error error →
      ReportsCycle result → setting.signatures.Trail start (key :: path) → Sound setting path walk →
        ∃ visited first, ClosesLoop setting start after error visited first
  | .found _ => nofun
  | @Resolves.stopped _ _ _ _ _ error hnew parents => by
      intro _ hresult hcycle htrail hsound
      cases hresult
      exact parents.closesLoop error rfl hcycle.of_error (.parents key path) htrail
        (hsound.enter hnew) (List.mem_append_right _ (List.mem_singleton_self _))
  | .conflicting _ _ _ => by
      rintro _ - ⟨trait, chain, hsame⟩
      cases hsame
  | .built _ _ _ => nofun

theorem Gathers.closesLoop {path parents : List TraitKey} {lineage : Lineage} {walk after : Walk}
    {result : Except DefineError Lineage} :
    Gathers setting path parents lineage walk result after → ∀ error, result = .error error →
      ReportsCycle result → setting.signatures.FrontExtends path parents →
        setting.signatures.Trail start path → Sound setting path walk → path ∈ walk.expansions →
          ∃ visited first, ClosesLoop setting start after error visited first
  | .done => nofun
  | @Gathers.cyclic _ _ _ parent _ _ onPath _ => by
      intro _ hresult _ hparents htrail hsound hfollowed
      cases hresult
      refine ⟨path, parent, htrail, onPath, hparents.head, ?_, hfollowed, rfl⟩
      intro other hother
      obtain ⟨token, htoken, hnone⟩ := hsound.path other hother
      exact ⟨token, htoken, (find?_eq_none.mp hnone).1⟩
  | .truncated _ _ others => by
      intro error hresult hcycle hparents
      exact others.closesLoop error hresult hcycle hparents.tail
  | @Gathers.failed _ _ _ _ _ _ _ error offPath first => by
      intro _ hresult hcycle hparents htrail hsound _
      cases hresult
      exact first.closesLoop error rfl hcycle.of_error (htrail.extend hparents.head offPath) hsound
  | .added offPath first others => by
      intro error hresult hcycle hparents htrail hsound hfollowed
      obtain ⟨hbetween, -⟩ := first.sound _ rfl offPath hsound
      exact others.closesLoop error hresult hcycle hparents.tail htrail hbetween
        (first.expansions hfollowed)

end

end Walk

/-! ## Definitions -/

namespace Hierarchy

variable {hierarchy : Hierarchy} {identities : Identities}

/-- **A reported cycle is a real one.**  The path of the walk consists of an approach, which begins
with the trait that was to be defined, and a loop.  The report shows the loop alone, under the names
of its traits.  No trait on the path is in the hierarchy. -/
theorem Reachable.loop_of_cyclicAncestry (hreachable : hierarchy.Reachable identities)
    (signatures : Signatures) (policy : CyclePolicy) (key : TraitKey) (nextSerial : Nat)
    {trait : String} {chain : List String} :
    let defined := hierarchy.define signatures policy key identities nextSerial
    defined.result = .error (.cyclicAncestry trait chain) →
      ∃ approach first others, signatures.IsLoop first others ∧
        trait = first.name ∧ chain = (first :: others ++ [first]).map TraitKey.name ∧
        (DefineError.cyclicAncestry trait chain).message = "trait " ++ first.name ++
          " is its own ancestor: " ++
            " -> ".intercalate ((first :: others ++ [first]).map TraitKey.name) ∧
        (approach ++ first :: others).reverse ∈
          (hierarchy.walk signatures policy key identities nextSerial).expansions ∧
        (approach ++ first :: others).head? = some key ∧
        List.IsChain signatures.Extends (approach ++ first :: others) ∧
        (approach ++ first :: others).Nodup ∧
        ∀ other ∈ approach ++ first :: others, signatures.Reaches key other ∧
          ∃ token, defined.identities.Identifies token other ∧ hierarchy.find? token = none := by
  intro defined hresult
  cases hfind : hierarchy.find? (identities.ofType (.trait key)).1 with
  | some known =>
      have hdefined : defined = _ :=
        hierarchy.define_of_found signatures policy key identities nextSerial hfind
      rw [hdefined] at hresult
      cases hresult
  | none =>
      obtain ⟨hresolves, hidentities⟩ :=
        hierarchy.define_resolves signatures policy key identities nextSerial hfind
      obtain ⟨visited, first, hcloses⟩ := hresolves.closesLoop _ hresult ⟨trait, chain, hresult⟩
        .start (sound_begin hreachable.identities_wellFormed hreachable.wellFormedLookup signatures
          policy key nextSerial)
      obtain ⟨inner, outer, rfl⟩ := List.append_of_mem hcloses.onPath
      have hnew : first ∉ outer :=
        (List.nodup_cons.mp hcloses.trail.nodup.of_append_right).1
      obtain ⟨rfl, hchain⟩ := DefineError.cyclicAncestry.inj hcloses.error_eq
      rw [Walk.cycle_of_split hnew] at hchain
      have hturned : (inner ++ first :: outer).reverse =
          outer.reverse ++ first :: inner.reverse := by simp
      have hpath := hcloses.trail.isChain_reverse
      have hnodup := List.nodup_reverse.mpr hcloses.trail.nodup
      have hstart := hcloses.trail.head?_reverse
      rw [hturned] at hpath hnodup hstart
      have hloop := hcloses.trail.isLoop hcloses.closes
      refine ⟨outer.reverse, first, inner.reverse, hloop, rfl, hchain, ?_, ?_, hstart, hpath, hnodup,
        ?_⟩
      · rw [hchain]
        rfl
      · rw [← hturned, List.reverse_reverse]
        exact hcloses.followed
      · intro other hother
        rw [← hturned, List.mem_reverse] at hother
        obtain ⟨token, htoken, hnone⟩ := hcloses.undefined other hother
        exact ⟨hcloses.trail.reaches other hother, token, hidentities ▸ htoken, hnone⟩

/-- The circle beside the diamond is reached from outside, past a trait that is known.  Only the
circle is reported. -/
theorem loop_of_cyclicAncestry_outside :
    let changed := diamond.declare (customKey "Outside") ⟨[customKey "Right", customKey "Round"], []⟩
    let defined := sideways.hierarchy.define changed .reject (customKey "Outside")
      sideways.identities sideways.nextSerial
    defined.result = .error (.cyclicAncestry "Round" ["Round", "Square", "Round"]) ∧
      ∃ approach first others, changed.IsLoop first others ∧ "Round" = first.name ∧
        ["Round", "Square", "Round"] = (first :: others ++ [first]).map TraitKey.name ∧
        (approach ++ first :: others).head? = some (customKey "Outside") ∧
        ∀ other ∈ approach ++ first :: others, changed.Reaches (customKey "Outside") other ∧
          ∃ token, defined.identities.Identifies token other ∧
            sideways.hierarchy.find? token = none := by
  intro changed defined
  have hshown : defined.result.map Trait.name =
      .error (.cyclicAncestry "Round" ["Round", "Square", "Round"]) := by
    decide +kernel
  have hresult := eq_error_of_map hshown
  obtain ⟨approach, first, others, hloop, hname, hchain, -, -, hstart, -, -, hothers⟩ :=
    reachableUnder_sideways.reachable.loop_of_cyclicAncestry changed .reject (customKey "Outside")
      sideways.nextSerial hresult
  exact ⟨hresult, approach, first, others, hloop, hname, hchain, hstart, hothers⟩

end Hierarchy

end TraitSystem
