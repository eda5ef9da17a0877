import TraitSystem.Proofs.Hierarchy.Built
import TraitSystem.Proofs.Hierarchy.Portrait

/-!
# What a trait declares

A signature may name a method any number of times, with a default body or without one.  The methods
of the trait are the table of these declarations, taken as they come
(`Signature.methods_eq_ofList`).  So a method keeps the place where it is named first, and where it
is named last decides on its default.

A definition builds the trait that is asked for and those of its ancestors that are not known yet.
What these declare is what the signatures say at that moment (`Hierarchy.declared_of_new`); the
traits that are known stay as they are.
-/

namespace TraitSystem

/-! ## Signatures -/

namespace Signature

/-- The declarations in order, with the default bodies built under consecutive numbers from the
given one. -/
def numbered (signature : Signature) (serial : Nat) : List (String × Option Method) :=
  (signature.declarations.zipIdx serial).map fun ((name, body?), number) =>
    (name, body?.map fun body => ⟨number, body⟩)

theorem methods_eq_ofList (signature : Signature) (serial : Nat) :
    signature.methods serial = Table.ofList (signature.numbered serial) := rfl

end Signature

/-! ## Traits -/

/-- A trait has the methods that the signature of its key declares. -/
def Trait.Declared (signatures : Signatures) (ids : Identities) (trait : Trait) : Prop :=
  ∃ key serial, ids.Identifies trait.identity key ∧
    trait.methods = (signatures.get key).methods serial

theorem Trait.Declared.mono {signatures : Signatures} {ids later : Identities} {trait : Trait}
    (hdeclared : trait.Declared signatures ids) (hextends : ids.Extends later) :
    trait.Declared signatures later := by
  obtain ⟨key, serial, hidentity, hmethods⟩ := hdeclared
  exact ⟨key, serial, hidentity.mono hextends, hmethods⟩

theorem Walk.ensures_declared (setting : Setting) :
    Ensures setting fun ids trait => trait.Declared setting.signatures ids := by
  intro path key walk after lineage hgathers _
  have htoken := hgathers.evolves.extends.tokens _ _ (walk.find?_request key)
  exact ⟨key, after.nextSerial, htoken, rfl⟩

/-- **What is defined anew declares what its signature says.** -/
theorem Hierarchy.Reachable.declared_of_new {hierarchy : Hierarchy} {identities : Identities}
    (hreachable : hierarchy.Reachable identities) (signatures : Signatures) (policy : CyclePolicy)
    (key : TraitKey) (nextSerial : Nat) :
    let defined := hierarchy.define signatures policy key identities nextSerial
    ∀ trait ∈ defined.hierarchy.traits.values, trait ∉ hierarchy.traits.values →
      trait.Declared signatures defined.identities :=
  hreachable.holds_of_new (fun _ _ _ hdeclared hevolves => hdeclared.mono hevolves.extends)
    (Walk.ensures_declared _) key nextSerial

end TraitSystem
