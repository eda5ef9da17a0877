import TraitSystem.Data.Value
import TraitSystem.Table
import TraitSystem.Hierarchy.Trait
import TraitSystem.Hierarchy.Signature
import TraitSystem.Hierarchy.Walk
import TraitSystem.Hierarchy.Basic
import TraitSystem.Members.Basic
import TraitSystem.Registry
import TraitSystem.Session
import TraitSystem.Call.Eval
import TraitSystem.Call.Standard
import TraitSystem.Inspect
import TraitSystem.Operation
import TraitSystem.Proofs.Identity
import TraitSystem.Proofs.Hierarchy.Derivation
import TraitSystem.Proofs.Hierarchy.Growth
import TraitSystem.Proofs.Hierarchy.Lineage
import TraitSystem.Proofs.Hierarchy.WellFormed
import TraitSystem.Proofs.Hierarchy.Reachable
import TraitSystem.Proofs.Call.Changes
import TraitSystem.Proofs.Members.Coherence
import TraitSystem.Proofs.Members.Resolution
import TraitSystem.Proofs.Session.Permanence
import TraitSystem.Proofs.Session.Registrations
import TraitSystem.Proofs.Call.Forwarding
import TraitSystem.Proofs.Hierarchy.Extension
import TraitSystem.Proofs.Hierarchy.Outline.Basic
import TraitSystem.Proofs.Hierarchy.Outline.Meaning
import TraitSystem.Proofs.Hierarchy.Portrait
import TraitSystem.Proofs.Hierarchy.Faithful
import TraitSystem.Proofs.Hierarchy.Outline.Postorder
import TraitSystem.Proofs.Hierarchy.Definability
import TraitSystem.Proofs.Identity.Grounded
import TraitSystem.Proofs.Session.Requests
import TraitSystem.Proofs.Hierarchy.Atomicity
import TraitSystem.Proofs.Members.Admission
import TraitSystem.Proofs.Members.History
import TraitSystem.Proofs.Session.Log
import TraitSystem.Proofs.Hierarchy.Built
import TraitSystem.Proofs.Hierarchy.Naming
import TraitSystem.Proofs.Session.Provenance
import TraitSystem.Proofs.Call.Views
import TraitSystem.Proofs.Hierarchy.Truncation
import TraitSystem.Proofs.Members.Sequence
import TraitSystem.Proofs.Members.Order
import TraitSystem.Proofs.Session.Own
import TraitSystem.Proofs.Call.Inheritance
import TraitSystem.Proofs.Members.Separate
import TraitSystem.Proofs.Session.Isolation
import TraitSystem.Proofs.Call.Parametric
import TraitSystem.Proofs.Identity.Names
import TraitSystem.Proofs.Hierarchy.Asking
import TraitSystem.Proofs.Session.Names
import TraitSystem.Proofs.Hierarchy.Standard
import TraitSystem.Proofs.Session.Standard
import TraitSystem.Proofs.Call.Depth
import TraitSystem.Proofs.Call.Derived
import TraitSystem.Proofs.Session.Comparisons
import TraitSystem.Proofs.Hierarchy.Declaring
import TraitSystem.Proofs.Call.Unanswered
import TraitSystem.Proofs.Hierarchy.Trail
import TraitSystem.Proofs.Hierarchy.Cycle
import TraitSystem.Proofs.Hierarchy.Survey
import TraitSystem.Proofs.Hierarchy.Consulting
import TraitSystem.Proofs.Identity.Enrolling
import TraitSystem.Proofs.Hierarchy.Preorder
import TraitSystem.Proofs.Hierarchy.Meeting
import TraitSystem.Proofs.Hierarchy.Handout
import TraitSystem.Proofs.Hierarchy.Shadowing
import TraitSystem.Proofs.Members.Bodies
import TraitSystem.Proofs.Hierarchy.Arrangement
import TraitSystem.Proofs.Hierarchy.Declared
import TraitSystem.Proofs.Session.Bodies
import TraitSystem.Proofs.Identity.Counting
import TraitSystem.Proofs.Session.Arrangement
