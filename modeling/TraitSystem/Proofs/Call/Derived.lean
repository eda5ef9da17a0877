import TraitSystem.Proofs.Call.Depth
import TraitSystem.Proofs.Hierarchy.Naming
import TraitSystem.Proofs.Hierarchy.Standard
import TraitSystem.Proofs.Members.Admission

/-!
# Default bodies of comparisons

The standard traits derive `ne` from `eq`, and `lt`, `le`, `gt` and `ge` from `partial_cmp`.  The
default bodies are one body with five sets of values (`Derived.run_eq`): it looks the trait up in
the registry of the receiver, calls the supplied method through it, and concludes from the answer.
Where the registry has the trait already, what such a body comes to follows from what the supplied
method comes to (`Derived.run_apply`).

All traits of one standard trait lead to the same bodies and errors, whichever hierarchy they come
from (`Trait.Realizes.method_eq`), so it makes no difference that the caller may have another one
than the registry.
-/

namespace TraitSystem

/-! ## What is derived from what -/

/-- The method that answers a relation. -/
def Relation.method : Relation → String
  | lt => "lt"
  | le => "le"
  | gt => "gt"
  | ge => "ge"

/-- The outcomes of a comparison for which a relation holds. -/
def Relation.orderings : Relation → List Ordering
  | lt => [.lt]
  | le => [.lt, .eq]
  | gt => [.gt]
  | ge => [.gt, .eq]

theorem Relation.holds_iff (relation : Relation) (ordering : Ordering) :
    relation.holds ordering ↔ ordering ∈ relation.orderings := by
  cases relation <;> cases ordering <;> decide

@[simp] theorem Value.result_mk (type : Ty) (data : type.Carrier) :
    (⟨type, data⟩ : Value).result type = .ok data := by
  simp [Value.result]

theorem Value.result_of_type_ne {value : Value} {expected : Ty} (htype : value.type ≠ expected) :
    value.result expected = .error (.returnType expected.name) := by
  have hdowncast : value.downcast? expected = none := by
    rw [← Option.not_isSome_iff_eq_none, value.downcast?_isSome]
    simpa using htype
  simp [Value.result, hdowncast]

namespace Derived

/-- The standard trait that has the comparison as the default body of a method. -/
def standard : Derived → Standard
  | notEqual => .partialEq
  | related _ => .partialOrd

/-- The method of which it is the default body. -/
def method : Derived → String
  | notEqual => "ne"
  | related relation => relation.method

/-- The method of the same trait from which it is derived. -/
def supplied : Derived → String
  | notEqual => "eq"
  | related _ => "partial_cmp"

/-- The type that the answers of that method should have. -/
def expected : Derived → Ty
  | notEqual => .bool
  | related _ => .option .ordering

/-- What an answer means for the comparison. -/
def conclude : (comparison : Derived) → comparison.expected.Carrier → Bool
  | notEqual, equal => !equal
  | related relation, ordering => ordering.any relation.holds

/-- What the derived method comes to when the supplied one comes to the given outcome. -/
def conclusion (comparison : Derived) : Except Fault Value → Except Fault Value
  | .error fault => .error fault
  | .ok answer =>
    match answer.result comparison.expected with
    | .error error => .error (.raised error)
    | .ok data => .ok ⟨.bool, comparison.conclude data⟩

variable {comparison : Derived}

theorem conclusion_eq_tooDeep_iff {outcome : Except Fault Value} :
    comparison.conclusion outcome = .error .tooDeep ↔ outcome = .error .tooDeep := by
  cases outcome with
  | error fault => simp [conclusion]
  | ok answer => cases hresult : answer.result comparison.expected <;> simp [conclusion, hresult]

theorem conclusion_of_result_ok {answer : Value} {data : comparison.expected.Carrier}
    (hresult : answer.result comparison.expected = .ok data) :
    comparison.conclusion (.ok answer) = .ok ⟨.bool, comparison.conclude data⟩ := by
  simp [conclusion, hresult]

theorem conclusion_of_result_error {answer : Value} {error : CallError}
    (hresult : answer.result comparison.expected = .error error) :
    comparison.conclusion (.ok answer) = .error (.raised error) := by
  simp [conclusion, hresult]

/-- Both default bodies ask the registry for their trait and call the supplied method. -/
theorem run_eq (invoke : Invoke) (frame : Frame) :
    comparison.run invoke frame = (do
      let trait ← standardTrait frame.receiver.registry comparison.standard
      let answer ← frame.receiver.callTrait invoke trait comparison.supplied frame.args
      let data ← CallM.ofExcept (answer.result comparison.expected)
      return ⟨.bool, comparison.conclude data⟩) := by
  cases comparison <;> rfl

/-- Where the registry has the trait already, all that a default body does is to call the supplied
method. -/
theorem run_apply {invoke : Invoke} {frame : Frame} {own : Trait} {session : Session}
    (hown : standardTrait frame.receiver.registry comparison.standard session =
      (.ok own, session)) :
    comparison.run invoke frame session =
      (frame.receiver.callTrait invoke own comparison.supplied frame.args session).map
        comparison.conclusion id := by
  rw [run_eq, CallM.bind_apply, hown]
  simp only [CallM.bind_apply]
  rcases frame.receiver.callTrait invoke own _ frame.args session with ⟨fault | answer, after⟩
  · rfl
  · simp only [Prod.map, conclusion]
    cases answer.result comparison.expected <;> rfl

/-- A call does what another one does, and comes to what a comparison makes of its outcome: an
answer of the expected type means the one or the other, an answer of another type is an error, and
what is no answer stays what it is. -/
structure Concludes (comparison : Derived) (derived supplied : Except Fault Value × Session) :
    Prop where
  session : derived.2 = supplied.2
  answer : ∀ data : comparison.expected.Carrier,
    supplied.1 = .ok ⟨comparison.expected, data⟩ →
      derived.1 = .ok ⟨.bool, comparison.conclude data⟩
  mistyped : ∀ answer, supplied.1 = .ok answer → answer.type ≠ comparison.expected →
    derived.1 = .error (.raised (.returnType comparison.expected.name))
  fault : ∀ fault, supplied.1 = .error fault → derived.1 = .error fault

theorem concludes_map (comparison : Derived) (supplied : Except Fault Value × Session) :
    comparison.Concludes (supplied.map comparison.conclusion id) supplied := by
  obtain ⟨outcome, after⟩ := supplied
  refine ⟨rfl, ?_, ?_, ?_⟩
  · rintro data ⟨rfl⟩
    exact conclusion_of_result_ok (Value.result_mk _ data)
  · rintro answer ⟨rfl⟩ htype
    exact conclusion_of_result_error (Value.result_of_type_ne htype)
  · rintro fault ⟨rfl⟩
    rfl

/-- The relations hold of what their names say, and none holds of what does not compare. -/
theorem conclude_related_iff (relation : Relation) (ordering : Option Ordering) :
    conclude (.related relation) ordering ↔
      ∃ order ∈ relation.orderings, ordering = some order := by
  cases ordering with
  | none => simp [conclude]
  | some order => simp [conclude, relation.holds_iff]

end Derived

/-! ## The traits of the comparisons -/

namespace Trait

variable {ids : Identities} {first second trait : Trait} {standard : Standard}

/-- What a trait of a standard trait declares. -/
theorem Realizes.declares_iff (hrealizes : trait.Realizes ids standard) (method : String) :
    trait.declares method ↔ Signatures.Declares {} (.standard standard) method :=
  hrealizes.toPortrays.declares_iff method

theorem Realizes.declares_method {comparison : Derived}
    (hrealizes : trait.Realizes ids comparison.standard) : trait.declares comparison.method := by
  rw [hrealizes.declares_iff]
  rcases comparison with _ | relation
  · decide
  · cases relation <;> decide

/-- The default body is that of the comparison. -/
theorem Realizes.default?_method {comparison : Derived}
    (hrealizes : trait.Realizes ids comparison.standard) :
    ∃ serial, trait.default? comparison.method = some ⟨serial, .derived comparison⟩ := by
  obtain ⟨serial, hmethods⟩ := hrealizes.methods
  unfold Trait.default?
  rw [hmethods]
  rcases comparison with _ | relation
  · exact ⟨_, rfl⟩
  · cases relation <;> exact ⟨_, rfl⟩

/-- Methods of a standard trait are the same whichever hierarchy it was taken from. -/
theorem Realizes.method_eq (hfirst : first.Realizes ids standard)
    (hsecond : second.Realizes ids standard) (receiver : Receiver) (session : Session)
    (method : String) :
    receiver.method session first method = receiver.method session second method := by
  have hidentity : first.identity = second.identity :=
    Option.some_inj.mp (hfirst.identity.symm.trans hsecond.identity)
  have hname : first.name = second.name := hfirst.name.trans hsecond.name.symm
  have hdeclares : first.declares method = second.declares method := by
    rw [Bool.eq_iff_iff, hfirst.declares_iff, hsecond.declares_iff]
  unfold Receiver.method Receiver.implementation? Receiver.notImplemented
  rw [hidentity, hname, hdeclares]

/-- A trait that was made under the token of a standard trait realizes it. -/
theorem Made.realizes (hmade : trait.Made ids)
    (hidentity : ids.Identifies trait.identity (.standard standard)) :
    trait.Realizes ids standard := by
  obtain ⟨hierarchy, hreachable, hmem⟩ := hmade
  have hlookup := hreachable.wellFormedLookup
  exact hreachable.keepsStandards.realizes hreachable.identities_wellFormed hlookup
    (Hierarchy.find?_identity_of_mem hlookup hmem) hidentity

end Trait

/-- The comparison of which a body is the default body. -/
def Body.derived? : Body → Option Derived
  | .derived comparison => some comparison
  | .untyped _ | .typed _ _ _ => none

theorem Body.derived?_eq_some_iff {body : Body} {comparison : Derived} :
    body.derived? = some comparison ↔ body = .derived comparison := by
  cases body <;> simp [derived?]

/-- An implementation has the default body of a comparison for its method. -/
def Implementation.Derives (implementation : Implementation) (comparison : Derived) : Prop :=
  (implementation.body? comparison.method).bind (fun method => method.body.derived?) =
    some comparison

instance (implementation : Implementation) (comparison : Derived) :
    Decidable (implementation.Derives comparison) :=
  inferInstanceAs (Decidable (_ = _))

/-- An implementation of a standard trait derives what it does not override. -/
theorem Implementation.derives_of_ofOverrides {ids : Identities} {trait : Trait}
    {comparison : Derived} (hrealizes : trait.Realizes ids comparison.standard)
    {targetName : String} {overrides : Overrides} {completeness : Completeness}
    {implementation : Implementation}
    (hbuilt : ofOverrides targetName trait overrides completeness = .ok implementation)
    (hkept : overrides.find? comparison.method = none) : implementation.Derives comparison := by
  obtain ⟨serial, hdefault⟩ := hrealizes.default?_method
  unfold Derives
  rw [eq_merged_of_ofOverrides hbuilt, body?_merged, hkept, Option.none_or, hdefault]
  rfl

/-- An implementation that has the default body leads calls of the method to it. -/
theorem Receiver.method_of_derives {ids : Identities} {trait : Trait} {comparison : Derived}
    (hrealizes : trait.Realizes ids comparison.standard) {receiver : Receiver} {session : Session}
    {record : Implementation} (hrecord : receiver.implementation? session trait = some record)
    (hderives : record.Derives comparison) :
    ∃ body, receiver.method session trait comparison.method = .ok body ∧
      body.body = .derived comparison := by
  obtain ⟨body, hbody, hderived⟩ := Option.bind_eq_some_iff.mp hderives
  refine ⟨body, ?_, Body.derived?_eq_some_iff.mp hderived⟩
  unfold Receiver.method
  rw [if_pos hrealizes.declares_method, hrecord, Option.bind_some, hbody]

end TraitSystem
