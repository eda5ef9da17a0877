import TraitSystem.Hierarchy.Basic
import TraitSystem.Members.Basic

/-!
# Registries

A `Registry` is one world of traits: the traits defined in it and what is registered for each
identity, together with the options that say how strict it is.  Registries share nothing but the
identities of types.
-/

namespace TraitSystem

/-- How strict a registry is. -/
structure Options where
  /-- When the methods of an implementation must have their bodies. -/
  completeness : Completeness := .atRegistration
  /-- What is done about a trait that extends itself. -/
  cycles : CyclePolicy := .reject
  deriving DecidableEq, Repr, Inhabited

/-- The traits and members of one registry. -/
structure Registry where
  options : Options := {}
  hierarchy : Hierarchy := .empty
  members : Members := .empty
  deriving Inhabited

/-- The name of a registry. -/
inductive RegistryId where
  /-- The registry that is always there. -/
  | shared
  /-- A registry of the user's. -/
  | numbered (index : Nat)
  deriving DecidableEq, Repr

end TraitSystem
