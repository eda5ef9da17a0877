import TraitSystem.Hierarchy.Signature

/-!
# The walk that builds a trait

Defining a trait needs its ancestors, so it is a depth-first walk along parents that builds what is
not known yet, ancestors first.  The walk carries the path from the trait it started at to the one
it is building.  A parent on that path would be its own ancestor: `CyclePolicy` says whether this is
an error or whether the edge is left out.  Parents off the path are looked up among the known traits
and those built earlier on the walk, and built only if neither has them; that is why no trait is
built twice.

A trait may not declare a method that one of its ancestors declares.

## Termination

Nothing makes the parents of a trait simpler than the trait, and with truncated cycles the walk does
follow cyclic graphs.  But every step down puts a trait on the path that was not on it, and only
finitely many traits have parents, so `Signatures.offPath` decreases.
-/

namespace TraitSystem

/-- What is done about a trait that extends itself. -/
inductive CyclePolicy where
  /-- It is an error. -/
  | reject
  /-- The edge that closes the cycle is left out. -/
  | truncate
  deriving DecidableEq, Repr

/-- Why a trait cannot be defined. -/
inductive DefineError where
  /-- A trait declares a method that one of its ancestors declares. -/
  | conflictingMethod (method trait ancestor : String)
  /-- A trait extends itself by way of the others in the chain, which starts and ends with it. -/
  | cyclicAncestry (trait : String) (chain : List String)
  deriving DecidableEq, Repr

namespace DefineError

/-- The text of the error. -/
def message : DefineError → String
  | conflictingMethod method trait ancestor =>
    "trait " ++ trait ++ " redeclares method `" ++ method ++ "`, already declared by parent " ++
      ancestor
  | cyclicAncestry trait chain =>
    "trait " ++ trait ++ " is its own ancestor: " ++ " -> ".intercalate chain

end DefineError

/-! ## Lineages -/

/-- The parents and ancestors of a trait, as far as they have been collected. -/
structure Lineage where
  /-- The identities of the parents. -/
  parents : List Token := []
  /-- The ancestors, each one after its own. -/
  ancestors : List Trait := []

namespace Lineage

/-- Appends an ancestor, unless it is in the list. -/
def addAncestor (ancestors : List Trait) (ancestor : Trait) : List Trait :=
  if ancestors.any fun known => known.identity == ancestor.identity then ancestors
  else ancestors ++ [ancestor]

/-- Adds a parent, after all of its own ancestors. -/
def addParent (lineage : Lineage) (parent : Trait) : Lineage where
  ancestors := (parent.ancestors ++ [parent]).foldl addAncestor lineage.ancestors
  parents :=
    if parent.identity ∈ lineage.parents then lineage.parents
    else lineage.parents ++ [parent.identity]

/-- The first declared method that an ancestor declares, with the first ancestor to do so. -/
def conflict? (lineage : Lineage) (methods : Declarations) : Option (String × Trait) :=
  methods.keys.findSome? fun method =>
    (lineage.ancestors.find? fun ancestor => ancestor.declares method).map (method, ·)

end Lineage

/-! ## The walk -/

/-- What does not change during a walk. -/
structure Setting where
  /-- The signatures of all traits. -/
  signatures : Signatures
  /-- What is done about cycles. -/
  policy : CyclePolicy
  /-- The traits defined before, by identity. -/
  known : Table Token Trait

/-- What a walk has done so far. -/
structure Walk where
  /-- The tokens, including those of all traits met so far. -/
  identities : Identities
  /-- The number of the next trait or method to be built. -/
  nextSerial : Nat
  /-- The traits built so far, by identity. -/
  built : Table Token Trait := ∅
  /-- The paths on which the signature of a trait was read, each with that trait in front, in the
  order in which they were followed. -/
  expansions : List (List TraitKey) := []

namespace Walk

/-- A trait known before the walk or built on it. -/
def find? (setting : Setting) (walk : Walk) (token : Token) : Option Trait :=
  (setting.known.find? token).or (walk.built.find? token)

/-- The cycle closed by going from the end of a path back to a trait on it.  Paths have their end in
front.  From a trait that is not on the path, all of the path would be taken. -/
def cycle (path : List TraitKey) (key : TraitKey) : List TraitKey :=
  let outward := path.reverse
  let start := (outward.findIdx? (· = key)).getD 0
  outward.drop start ++ [key]

/-- The error for a trait that extends itself. -/
def cycleError (path : List TraitKey) (key : TraitKey) : DefineError :=
  .cyclicAncestry key.name ((cycle path key).map TraitKey.name)

/-- Builds a trait whose parents have been collected. -/
def build (walk : Walk) (key : TraitKey) (token : Token) (signature : Signature)
    (lineage : Lineage) : Except DefineError Trait × Walk :=
  let methods := signature.methods walk.nextSerial
  let serial := walk.nextSerial + signature.declarations.length
  match lineage.conflict? methods with
  | some (method, ancestor) =>
    (.error (.conflictingMethod method key.name ancestor.name), { walk with nextSerial := serial })
  | none =>
    let trait : Trait :=
      { identity := token, name := key.name, methods, parents := lineage.parents,
        ancestors := lineage.ancestors, serial }
    (.ok trait,
      { walk with nextSerial := serial + 1, built := walk.built.insert token trait })

/-- Adds the traits of the parents of the trait in front of the path to its lineage.  Parents that
are not on the path are found by `resolveParent`. -/
def gather (policy : CyclePolicy) (path : List TraitKey)
    (resolveParent :
      (parent : TraitKey) → parent ∉ path → Walk → Except DefineError Trait × Walk) :
    List TraitKey → Lineage → Walk → Except DefineError Lineage × Walk
  | [], lineage, walk => (.ok lineage, walk)
  | parent :: rest, lineage, walk =>
    if onPath : parent ∈ path then
      match policy with
      | .reject => (.error (cycleError path parent), walk)
      | .truncate => gather policy path resolveParent rest lineage walk
    else
      match resolveParent parent onPath walk with
      | (.error error, walk) => (.error error, walk)
      | (.ok trait, walk) =>
        gather policy path resolveParent rest (lineage.addParent trait) walk

/-- The trait of a key that is not on the path: looked up, or built with all that it extends.  Only
traits in `Signatures.keys` have parents, and the walk goes on from no others. -/
def resolve (setting : Setting) (path : List TraitKey) (key : TraitKey) (_offPath : key ∉ path)
    (walk : Walk) : Except DefineError Trait × Walk :=
  let (token, identities) := walk.identities.ofType (.trait key)
  let walk := { walk with identities }
  match find? setting walk token with
  | some trait => (.ok trait, walk)
  | none =>
    let signature := setting.signatures.get key
    let walk := { walk with expansions := walk.expansions ++ [key :: path] }
    let gathered :=
      if _known : key ∈ setting.signatures.keys then
        gather setting.policy (key :: path)
          (fun parent parentOff walk => resolve setting (key :: path) parent parentOff walk)
          signature.parents {} walk
      else (.ok {}, walk)
    match gathered with
    | (.error error, walk) => (.error error, walk)
    | (.ok lineage, walk) => walk.build key token signature lineage
termination_by setting.signatures.offPath path
decreasing_by exact setting.signatures.offPath_cons_lt _known _offPath

/-- What resolving a trait does, without regard to whether it has a signature. -/
theorem resolve_eq (setting : Setting) (path : List TraitKey) (key : TraitKey)
    (offPath : key ∉ path) (walk : Walk) :
    resolve setting path key offPath walk =
      let (token, identities) := walk.identities.ofType (.trait key)
      let walk := { walk with identities }
      match find? setting walk token with
      | some trait => (.ok trait, walk)
      | none =>
        let signature := setting.signatures.get key
        let walk := { walk with expansions := walk.expansions ++ [key :: path] }
        match gather setting.policy (key :: path)
            (fun parent parentOff walk => resolve setting (key :: path) parent parentOff walk)
            signature.parents {} walk with
        | (.error error, walk) => (.error error, walk)
        | (.ok lineage, walk) => walk.build key token signature lineage := by
  rw [resolve]
  by_cases known : key ∈ setting.signatures.keys
  · simp only [known, dif_pos]
  · simp only [known, setting.signatures.parents_eq_nil_of_not_mem_keys known, gather,
      dif_neg, not_false_eq_true]

end Walk

end TraitSystem
