import TraitSystem.Call.Standard

/-!
# The evaluator does not look into computations

The evaluator puts computations together from a few others: it lets one follow on another one, it
catches errors, it looks at the session, it asks for traits and tokens, and it registers things.  So
if a relation between computations is respected by all of this (`Congruence`), then it holds between
two evaluations of the same expression, provided that it holds between the calls that these make.

Everything that is known about all method bodies at once is an instance.  A property of computations
is a relation that does not look at the second one, and the calls of the two evaluations may be
nested to different depths (`Congruence.invoke`).  Where the property is about what becomes of the
session, all that has to be known is what the few computations do that change one
(`Congruence.moving`).

## Strategy

The induction on the expression has one case for each constructor, and each case is a sequence of
computations.  What the relation has to say about registering things is asked for of the whole
sequence (`registerTrait`, `registerNative`), because the trait that is implemented is one that was
just asked for.
-/

namespace TraitSystem

/-! ## Computations -/

namespace CallM

variable {α β : Type}

theorem bind_apply (action : CallM α) (next : α → CallM β) (session : Session) :
    (action >>= next) session =
      match action session with
      | (.ok a, after) => next a after
      | (.error fault, after) => (.error fault, after) := by
  show (match action session with | (result, after) => ExceptT.bindCont next result after) = _
  rcases action session with ⟨fault | a, after⟩ <;> rfl

theorem lift_apply (action : StateM Session α) (session : Session) :
    (liftM action : CallM α) session = (.ok (action session).1, (action session).2) := rfl

/-- A computation that looks a body up in the session and goes on with it. -/
theorem lookup_bind_apply (lookup : Session → Except CallError Method)
    (next : Method → CallM Value) (session : Session) :
    (do let body ← ofExcept (lookup (← get)); next body : CallM Value) session =
      match lookup session with
      | .ok body => next body session
      | .error error => (.error (.raised error), session) := by
  have hlooked : (do let body ← ofExcept (lookup (← get)); next body : CallM Value) session =
      (ofExcept (lookup session) >>= next) session := bind_apply _ _ _
  rw [hlooked, bind_apply]
  cases lookup session <;> rfl

end CallM

/-- A method body implements a trait. -/
def registerTrait (id : RegistryId) (key : TraitKey) (target : Ty)
    (overrides : List (String × Body)) : CallM Value := do
  let trait ← requestTrait id key
  let overrides ← Session.newOverrides overrides
  let identity ← Session.identify target
  match ← Session.implement id identity trait overrides with
  | .ok () => return .unit
  | .error error => CallM.raise (.failure error.message)

/-- A method body defines a native member. -/
def registerNative (id : RegistryId) (target : Ty) (name : String) (body : Body) : CallM Value := do
  let method ← Session.newMethod body
  let identity ← Session.identify target
  Session.defineNative id identity name method
  return .unit

/-- A relation between computations that is respected by all that the evaluator does to them. -/
structure Congruence (id : RegistryId) where
  Related : {α : Type} → CallM α → CallM α → Prop
  pure : ∀ {α : Type} (a : α), Related (Pure.pure a) (Pure.pure a)
  raise : ∀ {α : Type} (error : CallError),
    Related (CallM.raise error : CallM α) (CallM.raise error)
  bind : ∀ {α β : Type} {action other : CallM α} {next following : α → CallM β},
    Related action other → (∀ a, Related (next a) (following a)) →
      Related (action >>= next) (other >>= following)
  attempt : ∀ {α : Type} {action other : CallM α}, Related action other →
    Related (CallM.attempt action) (CallM.attempt other)
  get : Related (MonadState.get : CallM Session) MonadState.get
  identifyValue : ∀ value, Related (liftM (Session.identifyValue value) : CallM Token)
    (liftM (Session.identifyValue value))
  requestTrait : ∀ key, Related (requestTrait id key) (requestTrait id key)
  standardTrait : ∀ trait, Related (standardTrait id trait) (standardTrait id trait)
  registerTrait : ∀ key target overrides,
    Related (registerTrait id key target overrides) (registerTrait id key target overrides)
  registerNative : ∀ target name body,
    Related (registerNative id target name body) (registerNative id target name body)

/-- Making a receiver of a value comes down to asking for its identity. -/
theorem Receiver.ofValue_bind {α : Type} (id : RegistryId) (value : Value)
    (next : Receiver → CallM α) :
    (liftM (Receiver.ofValue id value) : CallM Receiver) >>= next =
      (liftM (Session.identifyValue value) : CallM Token) >>= fun token =>
        next ⟨value, token, id⟩ := rfl

namespace Congruence

variable {id : RegistryId} (congruence : Congruence id)

theorem ofExcept {α : Type} (result : Except CallError α) :
    congruence.Related (CallM.ofExcept result) (CallM.ofExcept result) := by
  cases result with
  | ok a => exact congruence.pure a
  | error error => exact congruence.raise error

/-- Two ways to run methods that are related on the receivers of the registry. -/
def Calls (first second : Invoke) : Prop :=
  ∀ method (receiver : Receiver) args, receiver.registry = id →
    congruence.Related (first method receiver args) (second method receiver args)

variable {congruence} {first second : Invoke} (hcalls : congruence.Calls first second)

include hcalls

/-! ## Calls -/

theorem call {receiver : Receiver} (hreceiver : receiver.registry = id) (name : String)
    (args : Args) :
    congruence.Related (receiver.call first name args) (receiver.call second name args) := by
  refine congruence.bind congruence.get fun session => ?_
  refine congruence.bind (congruence.ofExcept _) fun body => ?_
  exact hcalls body receiver args hreceiver

theorem callTrait {receiver : Receiver} (hreceiver : receiver.registry = id) (trait : Trait)
    (method : String) (args : Args) :
    congruence.Related (receiver.callTrait first trait method args)
      (receiver.callTrait second trait method args) := by
  refine congruence.bind congruence.get fun session => ?_
  refine congruence.bind (congruence.ofExcept _) fun body => ?_
  exact hcalls body receiver args hreceiver

theorem callView {view : View} (hview : view.receiver.registry = id) (method : String)
    (args : Args) :
    congruence.Related (view.call first method args) (view.call second method args) := by
  refine congruence.bind congruence.get fun session => ?_
  refine congruence.bind (congruence.ofExcept _) fun body => ?_
  exact hcalls body view.receiver args hview

/-! ## Expressions -/

theorem derived {frame : Frame} (hframe : frame.receiver.registry = id) (comparison : Derived) :
    congruence.Related (comparison.run first frame) (comparison.run second frame) := by
  subst hframe
  cases comparison with
  | notEqual =>
      refine congruence.bind (congruence.standardTrait _) fun trait => ?_
      refine congruence.bind (callTrait hcalls rfl trait _ _) fun answer => ?_
      exact congruence.bind (congruence.ofExcept _) fun equal => congruence.pure _
  | related relation =>
      refine congruence.bind (congruence.standardTrait _) fun trait => ?_
      refine congruence.bind (callTrait hcalls rfl trait _ _) fun answer => ?_
      exact congruence.bind (congruence.ofExcept _) fun ordering => congruence.pure _

omit hcalls in
mutual

theorem eval {frame : Frame} {congruence : Congruence frame.receiver.registry}
    (hcalls : congruence.Calls first second) (expr : Expr) :
    congruence.Related (expr.eval first frame) (expr.eval second frame) := by
  cases expr with
  | value value => exact congruence.pure value
  | fail message => exact congruence.raise _
  | argument index type =>
      exact congruence.bind (congruence.ofExcept _) fun data => congruence.pure _
  | hasArgument index => exact congruence.pure _
  | argumentCount => exact congruence.pure _
  | receiver type => exact congruence.bind (congruence.ofExcept _) fun data => congruence.pure _
  | identity => exact congruence.pure _
  | description => exact congruence.bind congruence.get fun session => congruence.pure _
  | call method args =>
      refine congruence.bind (evalArgs hcalls args) fun values => ?_
      exact call hcalls rfl method values
  | callTrait key method args =>
      refine congruence.bind (congruence.requestTrait key) fun trait => ?_
      refine congruence.bind (evalArgs hcalls args) fun values => ?_
      exact callTrait hcalls rfl trait method values
  | callView key method args =>
      refine congruence.bind (congruence.requestTrait key) fun trait => ?_
      refine congruence.bind congruence.get fun session => ?_
      cases hview : frame.receiver.view? session trait with
      | none => exact congruence.raise _
      | some view =>
          -- the receiver of a view is the one it was taken of
          have hreceiver : view.receiver = frame.receiver := by
            obtain ⟨implementation, -, rfl⟩ := Option.map_eq_some_iff.mp hview
            rfl
          refine congruence.bind (evalArgs hcalls args) fun values => ?_
          exact callView hcalls (congrArg Receiver.registry hreceiver) method values
  | callOn value method args =>
      refine congruence.bind (evalArgs hcalls args) fun values => ?_
      rw [Receiver.ofValue_bind, Receiver.ofValue_bind]
      refine congruence.bind (congruence.identifyValue value) fun token => ?_
      refine call hcalls ?_ method values
      rfl
  | implements key =>
      refine congruence.bind (congruence.requestTrait key) fun trait => ?_
      exact congruence.bind congruence.get fun session => congruence.pure _
  | define key =>
      exact congruence.bind (congruence.requestTrait key) fun trait => congruence.pure _
  | implement key target overrides => exact congruence.registerTrait key target overrides
  | defineNative target name body => exact congruence.registerNative target name body
  | convert type operand =>
      refine congruence.bind (eval hcalls operand) fun value => ?_
      exact congruence.bind (congruence.ofExcept _) fun data => congruence.pure _
  | concat operands =>
      exact congruence.bind (evalList hcalls operands) fun values => congruence.pure _
  | subtract left right =>
      refine congruence.bind (eval hcalls left) fun first => ?_
      refine congruence.bind (congruence.ofExcept _) fun minuend => ?_
      refine congruence.bind (eval hcalls right) fun second => ?_
      exact congruence.bind (congruence.ofExcept _) fun subtrahend => congruence.pure _
  | not operand =>
      refine congruence.bind (eval hcalls operand) fun value => ?_
      exact congruence.bind (congruence.ofExcept _) fun truth => congruence.pure _
  | cond test yes no =>
      refine congruence.bind (eval hcalls test) fun value => ?_
      refine congruence.bind (congruence.ofExcept _) fun (truth : Bool) => ?_
      cases truth with
      | true => exact eval hcalls yes
      | false => exact eval hcalls no
  | orElse operand fallback =>
      refine congruence.bind (congruence.attempt (eval hcalls operand)) fun result => ?_
      cases result with
      | ok value => exact congruence.pure value
      | error error => exact eval hcalls fallback
  | errorText operand =>
      refine congruence.bind (congruence.attempt (eval hcalls operand)) fun result => ?_
      cases result with
      | ok value => exact congruence.pure _
      | error error => exact congruence.pure _
  | sequence operands =>
      exact congruence.bind (evalList hcalls operands) fun values => congruence.pure _
  | compare question type =>
      refine congruence.bind (congruence.ofExcept _) fun left => ?_
      exact congruence.bind (congruence.ofExcept _) fun right => congruence.ofExcept _

theorem evalArgs {frame : Frame} {congruence : Congruence frame.receiver.registry}
    (hcalls : congruence.Calls first second) (source : ArgSource) :
    congruence.Related (source.eval first frame) (source.eval second frame) := by
  cases source with
  | own => exact congruence.pure frame.args
  | given operands => exact evalList hcalls operands

theorem evalList {frame : Frame} {congruence : Congruence frame.receiver.registry}
    (hcalls : congruence.Calls first second) (operands : List Expr) :
    congruence.Related (evalAll first frame operands) (evalAll second frame operands) := by
  cases operands with
  | nil => exact congruence.pure []
  | cons operand rest =>
      refine congruence.bind (eval hcalls operand) fun value => ?_
      exact congruence.bind (evalList hcalls rest) fun values => congruence.pure _

end

/-! ## Bodies -/

theorem body {frame : Frame} (hframe : frame.receiver.registry = id) (body : Body) :
    congruence.Related (body.run first frame) (body.run second frame) := by
  subst hframe
  cases body with
  | untyped expr => exact eval hcalls expr
  | typed receiver result expr =>
      refine congruence.bind (congruence.ofExcept _) fun data => ?_
      refine congruence.bind (eval hcalls expr) fun value => ?_
      exact congruence.bind (congruence.ofExcept _) fun data => congruence.pure _
  | derived comparison => exact derived hcalls rfl comparison

omit hcalls

/-- **What the evaluator respects holds of all calls**, at any depth, if it holds where calls are
nested too deeply.  The second call may be allowed to nest deeper than the first one. -/
theorem invoke (further : Nat)
    (hdeepest : congruence.Calls (TraitSystem.invoke 0) (TraitSystem.invoke further))
    (depth : Nat) :
    congruence.Calls (TraitSystem.invoke depth) (TraitSystem.invoke (depth + further)) := by
  induction depth with
  | zero =>
      rw [Nat.zero_add]
      exact hdeepest
  | succ depth ih =>
      rw [Nat.succ_add]
      intro method receiver args hreceiver
      exact body ih hreceiver method.body

/-! ## Uses of the standard traits -/

theorem mapM {α β : Type} {items : List α} {action other : α → CallM β}
    (hactions : ∀ item, congruence.Related (action item) (other item)) :
    congruence.Related (items.mapM action) (items.mapM other) := by
  induction items with
  | nil => exact congruence.pure []
  | cons item rest ih =>
      rw [List.mapM_cons, List.mapM_cons]
      refine congruence.bind (hactions item) fun answer => ?_
      exact congruence.bind ih fun answers => congruence.pure (answer :: answers)

theorem standardTraits :
    congruence.Related (TraitSystem.standardTraits id) (TraitSystem.standardTraits id) :=
  mapM congruence.standardTrait

include hcalls

theorem callStandard (trait : Standard) (method : String) (value : Value) (args : Args) :
    congruence.Related (TraitSystem.callStandard first id trait method value args)
      (TraitSystem.callStandard second id trait method value args) := by
  refine congruence.bind (congruence.standardTrait trait) fun trait => ?_
  rw [Receiver.ofValue_bind, Receiver.ofValue_bind]
  refine congruence.bind (congruence.identifyValue value) fun token => ?_
  refine callTrait hcalls ?_ trait method args
  rfl

theorem askStandard (trait : Standard) (method : String) (value : Value) (args : Args)
    (expected : Ty) :
    congruence.Related (TraitSystem.askStandard first id trait method value args expected)
      (TraitSystem.askStandard second id trait method value args expected) :=
  congruence.bind (callStandard hcalls trait method value args) fun _ => congruence.ofExcept _

end Congruence

/-! ## What computations do to a session -/

/-- A relation of a session to what becomes of it in any number of steps. -/
structure Session.Course (moves : Session → Session → Prop) : Prop where
  refl : ∀ session, moves session session
  trans : ∀ {first second third}, moves first second → moves second third → moves first third

namespace CallM

variable {α β : Type} {moves : Session → Session → Prop}

/-- All that a computation does to a session is covered by a relation. -/
def Moves (moves : Session → Session → Prop) (action : CallM α) : Prop :=
  ∀ session, moves session (action session).2

theorem moves_throw (hmoves : Session.Course moves) (fault : Fault) :
    Moves moves (throw fault : CallM α) := hmoves.refl

theorem moves_lift {action : StateM Session α}
    (haction : ∀ session, moves session (action session).2) :
    Moves moves (liftM action : CallM α) := haction

/-- What is done next may rely on what the first part answers and leaves. -/
theorem moves_bind (hmoves : Session.Course moves) {action : CallM α} {next : α → CallM β}
    {session : Session} (haction : moves session (action session).2)
    (hnext : ∀ a after, action session = (.ok a, after) → moves after (next a after).2) :
    moves session ((action >>= next) session).2 := by
  rw [bind_apply]
  -- what the first part changed stays changed when it fails
  cases houtcome : action session with
  | mk result after =>
      rw [houtcome] at haction
      cases result with
      | error fault => exact haction
      | ok a => exact hmoves.trans haction (hnext a after houtcome)

theorem Moves.bind (hmoves : Session.Course moves) {action : CallM α} {next : α → CallM β}
    (haction : Moves moves action) (hnext : ∀ a, Moves moves (next a)) :
    Moves moves (action >>= next) := fun session =>
  moves_bind hmoves (haction session) fun a after _ => hnext a after

theorem Moves.attempt {action : CallM α} (haction : Moves moves action) :
    Moves moves (CallM.attempt action) := by
  intro session
  have hfirst := haction session
  unfold CallM.attempt
  cases houtcome : action session with
  | mk result after =>
      rw [houtcome] at hfirst
      cases result with
      | error fault => cases fault <;> exact hfirst
      | ok a => exact hfirst

end CallM

section

open CallM

variable {id : RegistryId} {moves : Session → Session → Prop} (hmoves : Session.Course moves)
  (hdefine : ∀ key session, moves session (Session.define id key session).2)

include hmoves hdefine

theorem moves_requestTrait (key : TraitKey) : Moves moves (requestTrait id key) := by
  refine Moves.bind hmoves (moves_lift (hdefine key)) fun result => ?_
  cases result with
  | ok trait => exact hmoves.refl
  | error error => exact hmoves.refl

theorem moves_standardTrait (trait : Standard) : Moves moves (standardTrait id trait) := by
  refine Moves.bind hmoves (moves_lift (hdefine _)) fun result => ?_
  cases result with
  | ok trait => exact hmoves.refl
  | error error => exact hmoves.refl

/-- That all that is done to a session is covered by a relation is respected by the evaluator. -/
def Congruence.moving
    (hidentify : ∀ value session, moves session (Session.identifyValue value session).2)
    (himplement : ∀ key target overrides,
      Moves moves (TraitSystem.registerTrait id key target overrides))
    (hnative : ∀ target name body, Moves moves (TraitSystem.registerNative id target name body)) :
    Congruence id where
  Related action _ := Moves moves action
  pure _ := hmoves.refl
  raise _ := hmoves.refl
  bind := Moves.bind hmoves
  attempt := Moves.attempt
  get := hmoves.refl
  identifyValue value := moves_lift (hidentify value)
  requestTrait := moves_requestTrait hmoves hdefine
  standardTrait := moves_standardTrait hmoves hdefine
  registerTrait := himplement
  registerNative := hnative

end

end TraitSystem
