import TraitSystem.Proofs.Members.History

/-!
# Several implementations in a row

Each of several implementations is decided in the state that those before it left behind.  What has
to be the case for all of them to be accepted can still be said of the first state alone
(`exists_implementAll_iff`), and nearly all of it is a matter of which implementations there are.
Their order counts in one place: no trait may come before one of its ancestors.

What they come to is said of the first state as well (`Members.GainsAll`).  Order counts for the
list of traits, and for a name that more than one of them declares.
-/

namespace TraitSystem

/-! ## One implementation -/

/-- Nothing is uncovered when every method without a default body is overridden. -/
theorem Trait.uncovered?_eq_none_iff (trait : Trait) (overrides : Overrides) :
    trait.uncovered? overrides = none ↔
      ∀ method, trait.requires? method = some true → overrides.contains method := by
  unfold uncovered? requires? default?
  rw [List.find?_eq_none]
  constructor
  · intro hnone method hrequires
    cases hfind : trait.methods.find? method with
    | none =>
        rw [hfind] at hrequires
        cases hrequires
    | some body? =>
        rw [hfind] at hrequires
        have hmem : method ∈ trait.methods.keys := by
          rw [Table.mem_keys_iff, Table.contains, hfind]
          rfl
        simpa [hfind, Option.some_inj.mp hrequires] using hnone method hmem
  · intro hall method hmem
    rw [Table.mem_keys_iff, Table.contains, Option.isSome_iff_exists] at hmem
    obtain ⟨body?, hfind⟩ := hmem
    have hmethod := hall method
    rw [hfind] at hmethod ⊢
    cases body? with
    | some body => simp
    | none => simp [hmethod rfl]

namespace Members

section

variable {members after : Members} {identity : Token} {targetName : String} {trait : Trait}
  {overrides : Overrides} {completeness : Completeness}

theorem exists_implement_iff :
    (∃ after, members.implement identity targetName trait overrides completeness = .ok after) ↔
      (members.target identity).Admits trait ∧ overrides.Belong trait ∧
        (completeness = .atRegistration → trait.uncovered? overrides = none) := by
  rw [← ((members.target identity).decides_implement targetName trait overrides
    completeness).accepted]
  rw [implement_eq]
  cases (members.target identity).implement targetName trait overrides completeness with
  | error error => exact iff_of_false nofun nofun
  | ok target => exact iff_of_true ⟨_, rfl⟩ rfl

theorem contains_of_implement
    (hafter : members.implement identity targetName trait overrides completeness = .ok after)
    (token : Token) :
    after.contains identity token ↔ members.contains identity token ∨ token = trait.identity := by
  obtain ⟨implementation, hbuilt, -, htarget, -⟩ := implement_eq_ok hafter
  obtain rfl := Implementation.trait_ofOverrides hbuilt
  show (after.target identity).implementations.contains token ↔
    (members.target identity).implementations.contains token ∨ _
  rw [htarget, if_pos rfl, Target.implementations_register, Table.contains_insert, Bool.or_eq_true,
    decide_eq_true_iff, or_comm, eq_comm (a := token)]

/-- A name that stood for nothing stands for the trait afterwards, if that declares it. -/
theorem member?_of_implement
    (hafter : members.implement identity targetName trait overrides completeness = .ok after)
    (name : String) :
    after.member? identity name =
      (members.member? identity name).or
        (if trait.declares name then some (.forward trait) else none) := by
  have hgains := gains_implement hafter
  unfold member? Target.member?
  rw [hgains.natives, hgains.forwards, Target.hasMember, Table.contains, Table.contains]
  cases (members.target identity).natives.find? name with
  | some method => rfl
  | none =>
      cases (members.target identity).forwards.find? name with
      | some known => simp
      | none => cases trait.declares name <;> rfl

end

/-! ## Requests -/

/-- An implementation that is asked for. -/
structure Request where
  /-- The name by which errors call the target. -/
  targetName : String
  /-- The trait to be implemented. -/
  trait : Trait
  /-- The bodies in place of the default ones. -/
  overrides : Overrides
  /-- When the methods must have their bodies. -/
  completeness : Completeness

/-- The bodies of a request suit its trait: all of them are for methods that the trait declares, and
where methods need their bodies at once, none without a default is left out. -/
structure Request.Suits (request : Request) : Prop where
  belong : request.overrides.Belong request.trait
  covered : request.completeness = .atRegistration → ∀ method,
    request.trait.requires? method = some true → request.overrides.contains method

/-- Registers implementations for an identity one after the other, up to the first that is
refused. -/
def implementAll (members : Members) (identity : Token) :
    List Request → Except ImplementError Members
  | [] => .ok members
  | request :: rest => do
    let between ← members.implement identity request.targetName request.trait request.overrides
      request.completeness
    between.implementAll identity rest

variable {members between after : Members} {identity : Token} {request : Request}
  {requests rest : List Request}

theorem implementAll_cons_eq_ok_iff :
    members.implementAll identity (request :: rest) = .ok after ↔
      ∃ between, members.implement identity request.targetName request.trait request.overrides
          request.completeness = .ok between ∧
        between.implementAll identity rest = .ok after := by
  show Except.bind _ _ = .ok after ↔ _
  cases members.implement identity request.targetName request.trait request.overrides
      request.completeness with
  | error error => exact iff_of_false nofun nofun
  | ok between => exact ⟨fun h => ⟨between, rfl, h⟩, by rintro ⟨_, ⟨⟩, h⟩; exact h⟩

theorem exists_implement_request_iff :
    (∃ after, members.implement identity request.targetName request.trait request.overrides
        request.completeness = .ok after) ↔
      (members.target identity).Admits request.trait ∧ request.Suits := by
  rw [exists_implement_iff, Trait.uncovered?_eq_none_iff]
  exact and_congr_right fun _ => ⟨fun h => ⟨h.1, h.2⟩, fun h => ⟨h.belong, h.covered⟩⟩

/-! ## When all of them are accepted -/

/-- What has to be the case for requests to be accepted one after the other. -/
structure AdmitsAll (members : Members) (identity : Token) (requests : List Request) : Prop where
  suits : ∀ request ∈ requests, request.Suits
  /-- None of the traits is implemented already, and none is to be implemented twice. -/
  fresh : ∀ request ∈ requests, members.contains identity request.trait.identity = false
  nodup : (requests.map fun request => request.trait.identity).Nodup
  /-- All ancestors are implemented or about to be. -/
  closed : ∀ request ∈ requests, ∀ ancestor ∈ request.trait.ancestors,
    members.contains identity ancestor.identity ∨
      ∃ other ∈ requests, other.trait.identity = ancestor.identity
  /-- No trait is needed before it is there. -/
  irreflexive : ∀ request ∈ requests, ¬ request.trait.hasAncestor request.trait
  ordered : requests.Pairwise fun earlier later => ¬ earlier.trait.hasAncestor later.trait

namespace AdmitsAll

theorem nil (members : Members) (identity : Token) : members.AdmitsAll identity [] where
  suits _ h := nomatch h
  fresh _ h := nomatch h
  nodup := List.nodup_nil
  closed _ h := nomatch h
  irreflexive _ h := nomatch h
  ordered := List.Pairwise.nil

/-- Only one of the conditions depends on the order of the requests. -/
theorem perm {others : List Request} (hadmits : members.AdmitsAll identity requests)
    (hperm : others.Perm requests)
    (hordered : others.Pairwise fun earlier later => ¬ earlier.trait.hasAncestor later.trait) :
    members.AdmitsAll identity others where
  suits request h := hadmits.suits request (hperm.subset h)
  fresh request h := hadmits.fresh request (hperm.subset h)
  nodup := (hperm.map _).nodup_iff.mpr hadmits.nodup
  closed request h ancestor hancestor := by
    rcases hadmits.closed request (hperm.subset h) ancestor hancestor with hold | ⟨other, hother⟩
    · exact Or.inl hold
    · exact Or.inr ⟨other, hperm.symm.subset hother.1, hother.2⟩
  irreflexive request h := hadmits.irreflexive request (hperm.subset h)
  ordered := hordered

/-- The first of several requests is accepted by itself. -/
theorem head (hadmits : members.AdmitsAll identity (request :: rest)) :
    (members.target identity).Admits request.trait := by
  refine ⟨hadmits.fresh request List.mem_cons_self, ?_⟩
  intro ancestor hancestor
  have hhas {other : Request} (hsame : other.trait.identity = ancestor.identity) :
      request.trait.hasAncestor other.trait :=
    List.any_eq_true.mpr ⟨ancestor, hancestor, beq_iff_eq.mpr hsame.symm⟩
  rcases hadmits.closed request List.mem_cons_self ancestor hancestor with
    hold | ⟨other, hother, hsame⟩
  · exact hold
  · -- the ancestor would have to come later
    rcases List.mem_cons.mp hother with rfl | hlater
    · exact absurd (hhas hsame) (hadmits.irreflexive other List.mem_cons_self)
    · exact absurd (hhas hsame) (List.rel_of_pairwise_cons hadmits.ordered hlater)

/-- The others are accepted once it is. -/
theorem tail (hadmits : members.AdmitsAll identity (request :: rest))
    (hbetween : ∀ token, between.contains identity token ↔
      members.contains identity token ∨ token = request.trait.identity) :
    between.AdmitsAll identity rest := by
  have hnodup := List.nodup_cons.mp hadmits.nodup
  refine ⟨?_, ?_, hnodup.2, ?_, ?_, hadmits.ordered.tail⟩
  · exact fun other hother => hadmits.suits other (List.mem_cons_of_mem _ hother)
  · intro other hother
    rw [← Bool.not_eq_true, hbetween, not_or, Bool.not_eq_true]
    refine ⟨hadmits.fresh other (List.mem_cons_of_mem _ hother), ?_⟩
    intro hsame
    exact hnodup.1 (List.mem_map.mpr ⟨other, hother, hsame⟩)
  · intro other hother ancestor hancestor
    rcases hadmits.closed other (List.mem_cons_of_mem _ hother) ancestor hancestor with
      hold | ⟨provider, hprovider, hsame⟩
    · exact Or.inl ((hbetween _).mpr (Or.inl hold))
    · rcases List.mem_cons.mp hprovider with rfl | hrest
      · exact Or.inl ((hbetween _).mpr (Or.inr hsame.symm))
      · exact Or.inr ⟨provider, hrest, hsame⟩
  · exact fun other hother => hadmits.irreflexive other (List.mem_cons_of_mem _ hother)

/-- A request that was accepted goes before those that are accepted after it. -/
theorem cons (hadmits : between.AdmitsAll identity rest)
    (hfirst : (members.target identity).Admits request.trait) (hsuits : request.Suits)
    (hbetween : ∀ token, between.contains identity token ↔
      members.contains identity token ∨ token = request.trait.identity) :
    members.AdmitsAll identity (request :: rest) := by
  have hfresh : members.contains identity request.trait.identity = false := hfirst.1
  have hlater : ∀ other ∈ rest, members.contains identity other.trait.identity = false ∧
      other.trait.identity ≠ request.trait.identity := by
    intro other hother
    have hnew := hadmits.fresh other hother
    rwa [← Bool.not_eq_true, hbetween, not_or, Bool.not_eq_true] at hnew
  -- the ancestors of the first trait are implemented, and the traits to come are not
  have hhead {other : Request} (hnew : members.contains identity other.trait.identity = false) :
      ¬ request.trait.hasAncestor other.trait := by
    intro hhas
    obtain ⟨ancestor, hancestor, hsame⟩ := List.any_eq_true.mp hhas
    have hthere : members.contains identity ancestor.identity := hfirst.2 ancestor hancestor
    rw [eq_of_beq hsame, hnew] at hthere
    cases hthere
  refine ⟨?_, ?_, ?_, ?_, ?_, ?_⟩
  · exact List.forall_mem_cons.mpr ⟨hsuits, hadmits.suits⟩
  · exact List.forall_mem_cons.mpr ⟨hfresh, fun other hother => (hlater other hother).1⟩
  · refine List.nodup_cons.mpr ⟨?_, hadmits.nodup⟩
    intro hmem
    obtain ⟨other, hother, hsame⟩ := List.mem_map.mp hmem
    exact (hlater other hother).2 hsame
  · refine List.forall_mem_cons.mpr ⟨fun ancestor h => Or.inl (hfirst.2 ancestor h), ?_⟩
    intro other hother ancestor hancestor
    rcases hadmits.closed other hother ancestor hancestor with hthere | ⟨provider, hmem, hsame⟩
    · rcases (hbetween _).mp hthere with hold | hfirst
      · exact Or.inl hold
      · exact Or.inr ⟨request, List.mem_cons_self, hfirst.symm⟩
    · exact Or.inr ⟨provider, List.mem_cons_of_mem _ hmem, hsame⟩
  · exact List.forall_mem_cons.mpr ⟨hhead hfresh, hadmits.irreflexive⟩
  · exact List.pairwise_cons.mpr
      ⟨fun other hother => hhead (hlater other hother).1, hadmits.ordered⟩

end AdmitsAll

/-- **Requests are accepted one after the other exactly if the first state admits all of them.** -/
theorem exists_implementAll_iff :
    (∃ after, members.implementAll identity requests = .ok after) ↔
      members.AdmitsAll identity requests := by
  induction requests generalizing members with
  | nil => exact iff_of_true ⟨members, rfl⟩ (AdmitsAll.nil members identity)
  | cons request rest ih =>
      constructor
      · rintro ⟨after, hafter⟩
        obtain ⟨between, himplement, hrest⟩ := implementAll_cons_eq_ok_iff.mp hafter
        obtain ⟨hfirst, hsuits⟩ := exists_implement_request_iff.mp ⟨between, himplement⟩
        exact (ih.mp ⟨after, hrest⟩).cons hfirst hsuits (contains_of_implement himplement)
      · intro hadmits
        obtain ⟨between, himplement⟩ := exists_implement_request_iff.mpr
          ⟨hadmits.head, hadmits.suits request List.mem_cons_self⟩
        obtain ⟨after, hafter⟩ := ih.mpr (hadmits.tail (contains_of_implement himplement))
        exact ⟨after, implementAll_cons_eq_ok_iff.mpr ⟨between, himplement, hafter⟩⟩

/-! ## What they come to -/

/-- All that changes when requests for an identity are accepted one after the other. -/
structure GainsAll (old new : Members) (identity : Token) (requests : List Request) : Prop where
  others : ∀ other, other ≠ identity → new.target other = old.target other
  implementations : (new.target identity).implementations.entries =
    (old.target identity).implementations.entries ++ requests.map fun request =>
      (request.trait.identity, .merged request.trait request.overrides)
  /-- The traits come last, in the order of the requests. -/
  traitsOf : new.traitsOf identity = old.traitsOf identity ++ requests.map Request.trait
  /-- A name that stood for nothing stands for the first of the traits to declare it. -/
  member? : ∀ name, new.member? identity name =
    (old.member? identity name).or
      ((requests.find? fun request => request.trait.declares name).map fun request =>
        .forward request.trait)
  size : new.size = old.size + requests.length
  keys : new.targets.keys = mergeNew old.targets.keys (List.replicate requests.length identity)

theorem GainsAll.nil (members : Members) (identity : Token) :
    members.GainsAll members identity [] where
  others _ _ := rfl
  implementations := (List.append_nil _).symm
  traitsOf := (List.append_nil _).symm
  member? name := by simp
  size := rfl
  keys := rfl

theorem GainsAll.cons
    (hbetween : members.implement identity request.targetName request.trait request.overrides
      request.completeness = .ok between)
    (hrest : between.GainsAll after identity rest) :
    members.GainsAll after identity (request :: rest) := by
  obtain ⟨implementation, hbuilt, -, htarget, -⟩ := implement_eq_ok hbetween
  obtain ⟨hnew, henter⟩ := eq_enter_of_implement hbetween
  have hmerged := Implementation.eq_merged_of_ofOverrides hbuilt
  refine ⟨?_, ?_, ?_, ?_, ?_, ?_⟩
  · intro other hne
    rw [hrest.others other hne, htarget, if_neg (Ne.symm hne)]
  · have hentries := Table.entries_insert _ implementation hnew
    rw [hrest.implementations, htarget, if_pos rfl, Target.implementations_register, hmerged]
    rw [hmerged] at hentries
    show (Table.insert _ request.trait.identity _).entries ++ _ = _
    rw [hentries, List.append_assoc]
    rfl
  · rw [hrest.traitsOf]
    show (between.target identity).traits ++ _ = (members.target identity).traits ++ _
    rw [htarget, if_pos rfl, hmerged, Target.traits_register hnew, List.append_assoc]
    rfl
  · intro name
    rw [hrest.member?, member?_of_implement hbetween, Option.or_assoc, List.find?_cons]
    cases request.trait.declares name <;> rfl
  · rw [hrest.size, size_implement hbetween, List.length_cons]
    omega
  · rw [hrest.keys, henter, keys_enter]
    rfl

/-- **What requests come to that are accepted one after the other.** -/
theorem gainsAll_implementAll (hafter : members.implementAll identity requests = .ok after) :
    members.GainsAll after identity requests := by
  induction requests generalizing members with
  | nil =>
      cases hafter
      exact GainsAll.nil _ identity
  | cons request rest ih =>
      obtain ⟨between, himplement, hrest⟩ := implementAll_cons_eq_ok_iff.mp hafter
      exact GainsAll.cons himplement (ih hrest)

end Members

end TraitSystem
