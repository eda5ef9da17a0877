import TraitSystem.Proofs.Call.Forwarding
import TraitSystem.Proofs.Hierarchy.Shadowing
import TraitSystem.Proofs.Session.Own

/-!
# Inherited methods

An implementation has bodies for the methods of its own trait only.  That a target can be called by
the methods that the trait inherits rests on everything else: the traits that it extends are all
among its ancestors, they were implemented before it, and each of them got its names forwarded
unless they stood for something (`inherited_callable`).

## Strategy

A name that stands for anything does so for good.  It keeps its trait until a native takes its
place (`Target.Extends.member?`), so what is known of a session says enough of all later ones.
-/

namespace TraitSystem

/-! ## Where a method is declared -/

/-- A method is declared by the trait itself or by one of its ancestors. -/
theorem Trait.of_declaring? {trait provider : Trait} {name : String}
    (hprovider : trait.declaring? name = some provider) :
    provider.declares name ∧ (provider = trait ∨ provider ∈ trait.ancestors) := by
  have hlast := (declaring?_eq_some_iff provider).mp hprovider
  have hmember := List.mem_append.mp hlast.mem
  rw [List.mem_singleton] at hmember
  exact ⟨hlast.1, hmember.symm⟩

/-! ## What a call by name finds -/

namespace Receiver

variable {receiver : Receiver} {session : Session} {name : String}

theorem member_of_native {body : Method}
    (hmember : (session.registry receiver.registry).members.member? receiver.identity name =
      some (.native body)) :
    receiver.member session name = .ok body := by
  simp only [Receiver.member, hmember]

/-- A member is missing only where the name stands for nothing. -/
theorem member?_eq_none_of_missingMember {missing described : String}
    (hmissing : receiver.member session name = .error (.missingMember missing described)) :
    (session.registry receiver.registry).members.member? receiver.identity name = none := by
  cases hmember : (session.registry receiver.registry).members.member? receiver.identity name with
  | none => rfl
  | some member =>
      cases member with
      | native body =>
          rw [member_of_native hmember] at hmissing
          cases hmissing
      | forward trait =>
          simp only [Receiver.member, hmember, Receiver.method, notImplemented] at hmissing
          split at hmissing
          · split at hmissing <;> cases hmissing
          · cases hmissing

end Receiver

/-! ## Every session -/

namespace Session

variable {old new : Session} {receiver : Receiver} {name : String}

/-- Where all implementations had to be complete, a name that stood for anything leads to a body at
any later time. -/
theorem Reachable.exists_member_eq_ok (hreachable : old.Reachable)
    (hcomplete : (old.registry receiver.registry).members.AllComplete)
    (hmember : ((old.registry receiver.registry).members.member? receiver.identity name).isSome)
    (hlater : old.Reaches new) : ∃ body, receiver.member new name = .ok body := by
  have hmembers := hreachable.members receiver.registry
  have hextends := hlater.target_extends receiver.registry receiver.identity
  obtain ⟨member, hbefore⟩ := Option.isSome_iff_exists.mp hmember
  rcases hextends.member? hbefore with ⟨body, hnative⟩ | ⟨trait, rfl, hforward⟩
  · exact ⟨body, Receiver.member_of_native hnative⟩
  · -- the implementation behind the forward was complete, and it is the same to this day
    obtain ⟨hdeclares, implementation, hfind, rfl⟩ :=
      hmembers.find?_forwards (Target.find?_forwards_of_member? hbefore)
    obtain ⟨body, hbody⟩ := Option.isSome_iff_exists.mp
      (hmembers.isSome_body?_of_allComplete hcomplete hfind hdeclares)
    have hkept := hextends.implementations _ _ hfind
    refine ⟨body, ?_⟩
    rw [Receiver.member_of_forward hforward hdeclares hkept, hbody]

/-- **Inherited methods can be called**, now and at any later time.  In a registry that implements
its own traits, a name stands for something on every target that implements a trait which declares
or inherits it.  A call never fails for want of a member, and it leads to a body if all
implementations had to be complete. -/
theorem inherited_callable (hreachable : old.Reachable)
    (hown : (old.registry receiver.registry).ImplementsOwn) {trait : Trait}
    (htrait : trait ∈ (old.registry receiver.registry).hierarchy.traits.values)
    (himplemented : (old.registry receiver.registry).members.contains receiver.identity
      trait.identity)
    (hdeclaring : (trait.declaring? name).isSome) (hlater : old.Reaches new) :
    ((new.registry receiver.registry).members.member? receiver.identity name).isSome ∧
      (∀ missing described,
        receiver.member new name ≠ .error (.missingMember missing described)) ∧
      ((old.registry receiver.registry).members.AllComplete → ∃ body,
        receiver.member new name = .ok body ∧ ∀ invoke args,
          receiver.call invoke name args new = invoke body receiver args new) := by
  obtain ⟨provider, hprovider⟩ := Option.isSome_iff_exists.mp hdeclaring
  obtain ⟨hdeclares, hsource⟩ := Trait.of_declaring? hprovider
  have hlisted := (hreachable.mem_traitsOf_iff hown).mpr ⟨htrait, himplemented⟩
  have hprovided : provider ∈
      (old.registry receiver.registry).members.traitsOf receiver.identity := by
    rcases hsource with rfl | hancestor
    · exact hlisted
    · exact hreachable.mem_traitsOf_of_ancestor hown hlisted hancestor
  have hbefore := (hreachable.members receiver.registry).isSome_member? hprovided hdeclares
  have hafter : ((new.registry receiver.registry).members.member? receiver.identity
      name).isSome := (hlater.target_extends _ _).isSome_member? hbefore
  refine ⟨hafter, ?_, ?_⟩
  · intro missing described hmissing
    rw [Receiver.member?_eq_none_of_missingMember hmissing] at hafter
    cases hafter
  · intro hcomplete
    obtain ⟨body, hbody⟩ := hreachable.exists_member_eq_ok hcomplete hbefore hlater
    refine ⟨body, hbody, ?_⟩
    intro invoke args
    rw [Receiver.call_apply, hbody]

/-- A session in which a method body has implemented a trait after what it extends. -/
def inheriting : Session :=
  let shape := Hierarchy.customKey "Shape"
  let solid := Hierarchy.customKey "Solid"
  let stub : Body := .untyped (.value .unit)
  let grow : Body := .untyped (.sequence [.implement shape .unit [], .implement solid .unit []])
  let declared := (((start []).after (.identify .unit)).after
    (.declare shape ⟨[], [("area", some stub)]⟩)).after
    (.declare solid ⟨[shape], [("volume", some stub)]⟩)
  (declared.after (.defineNative .shared ⟨1⟩ "grow" ⟨70, grow⟩)).after
    (.call ⟨.unit, ⟨1⟩, .shared⟩ "grow" [])

/-- The inherited method is covered by a native. -/
def covering : Session :=
  inheriting.after (.defineNative .shared ⟨1⟩ "area" ⟨71, .untyped (.fail "covered")⟩)

/-- The area of a solid is that of its shape, until there is a native. -/
theorem inherited_callable_inheriting :
    let registry := inheriting.registry .shared
    let receiver : Receiver := ⟨.unit, ⟨1⟩, .shared⟩
    (start []).KeepsOwn .shared inheriting ∧ inheriting.Reaches covering ∧
      (∃ solid ∈ registry.hierarchy.traits.values,
        solid.name = "Solid" ∧ solid.declares "area" = false ∧
          registry.members.contains ⟨1⟩ solid.identity) ∧
      ((Operation.call receiver "area" []).run inheriting).1 matches .ok _ ∧
      ((Operation.call receiver "area" []).run covering).1
        matches .error (.raised (.failure "covered")) ∧
      ∀ session ∈ [inheriting, covering], ∃ body, receiver.member session "area" = .ok body := by
  intro registry receiver
  have hkeeps : (start []).KeepsOwn .shared inheriting := by
    iterate 5 refine KeepsOwn.after ?_ _ trivial
    exact KeepsOwn.refl _
  have hreachable : inheriting.Reachable := ⟨[], hkeeps.reaches⟩
  have hown : registry.ImplementsOwn := hkeeps.implementsOwn (implementsOwn_start [] .shared)
  have hlater : inheriting.Reaches covering := (Reaches.refl inheriting).operation _
  obtain ⟨solid, hsolid, hname, hinherits, hdeclaring, himplemented⟩ :
      ∃ solid ∈ registry.hierarchy.traits.values, solid.name = "Solid" ∧
        solid.declares "area" = false ∧ (solid.declaring? "area").isSome ∧
          registry.members.contains ⟨1⟩ solid.identity := by
    decide +kernel
  have hcomplete : registry.members.AllComplete := by decide +kernel
  refine ⟨hkeeps, hlater, ⟨solid, hsolid, hname, hinherits, himplemented⟩, by decide +kernel,
    by decide +kernel, ?_⟩
  have hcallable {session : Session} (hsession : inheriting.Reaches session) :
      ∃ body, receiver.member session "area" = .ok body := by
    obtain ⟨-, -, hresolved⟩ := @inherited_callable inheriting session receiver "area" hreachable
      hown solid hsolid himplemented hdeclaring hsession
    obtain ⟨body, hbody, -⟩ := hresolved hcomplete
    exact ⟨body, hbody⟩
  simp only [List.forall_mem_cons, List.not_mem_nil, false_imp_iff, implies_true, and_true]
  exact ⟨hcallable (Reaches.refl inheriting), hcallable hlater⟩

end Session

end TraitSystem
