import TraitSystem.Identity
import TraitSystem.Proofs.Table
import Mathlib.Logic.Relation

/-!
# Tokens and names are permanent

Every request for a token comes down to two changes of the table of tokens: the next token is handed
out for a referent that has none, or a name is recorded for a token that has none (`Change`).  So
whatever is requested, in whatever order, what is assigned stays assigned (`Evolves.extends`), and
no two referents get the same token (`Evolves.wellFormed`).
-/

namespace TraitSystem.Identities

/-! ## The two changes -/

/-- A single change of the table of tokens. -/
inductive Change : Identities → Identities → Prop
  | assign {ids : Identities} {referent : Referent} (hnew : ids.find? referent = none) :
      Change ids (ids.assign referent).2
  | recordName (ids : Identities) (token : Token) (name : String) :
      Change ids (ids.recordName token name)

/-- What any number of changes make of the table of tokens. -/
def Evolves : Identities → Identities → Prop := Relation.ReflTransGen Change

theorem Evolves.refl (ids : Identities) : ids.Evolves ids := Relation.ReflTransGen.refl

theorem Evolves.trans {first second third : Identities} (hfirst : first.Evolves second)
    (hsecond : second.Evolves third) : first.Evolves third :=
  Relation.ReflTransGen.trans hfirst hsecond

theorem Change.evolves {old new : Identities} (hchange : Change old new) : old.Evolves new :=
  Relation.ReflTransGen.single hchange

/-! ## Every request is made of them -/

theorem evolves_ofValueType (ids : Identities) (type : Ty) :
    ids.Evolves (ids.ofValueType type).2 := by
  unfold ofValueType
  cases hfind : ids.find? (.type type) with
  | some token => exact Evolves.refl ids
  | none => exact (Change.assign hfind).evolves

theorem evolves_ofType (ids : Identities) (type : Ty) : ids.Evolves (ids.ofType type).2 :=
  (ids.evolves_ofValueType type).trans (Change.recordName _ _ _).evolves

theorem evolves_instantiate (ids : Identities) (base : Token) (args : TypeArgs) :
    ids.Evolves (ids.instantiate base args).2 := by
  unfold instantiate
  split
  · exact Evolves.refl ids
  · cases hfind : ids.find? (.application base args) with
    | some token => exact Evolves.refl ids
    | none => exact (Change.assign hfind).evolves.trans (Change.recordName _ _ _).evolves

theorem evolves_ofGeneric (ids : Identities) (type : Ty) (args : List TypeArg) :
    ids.Evolves (ids.ofGeneric type args).2 := by
  unfold ofGeneric
  cases TypeArgs.ofList? args with
  | error error => exact ids.evolves_ofType type
  | ok args => exact (ids.evolves_ofType type).trans (evolves_instantiate _ _ args)

/-! ## What one change does to the two tables -/

theorem find?_assign (ids : Identities) (referent other : Referent) :
    (ids.assign referent).2.find? other =
      if referent = other then some ⟨ids.next⟩ else ids.find? other :=
  Table.find?_insert ids.tokens referent ⟨ids.next⟩ other

@[simp] theorem next_assign (ids : Identities) (referent : Referent) :
    (ids.assign referent).2.next = ids.next + 1 := rfl

@[simp] theorem find?_recordName (ids : Identities) (token : Token) (name : String)
    (referent : Referent) : (ids.recordName token name).find? referent = ids.find? referent := by
  unfold recordName
  split <;> rfl

@[simp] theorem next_recordName (ids : Identities) (token : Token) (name : String) :
    (ids.recordName token name).next = ids.next := by
  unfold recordName
  split <;> rfl

theorem nameOf?_recordName {ids : Identities} {other : Token} {old : String}
    (hname : ids.nameOf? other = some old) (token : Token) (name : String) :
    (ids.recordName token name).nameOf? other = some old := by
  unfold recordName
  split
  · exact hname
  · rename_i hnew
    refine Table.find?_insert_of_find?_eq_none ids.names name ?_ hname
    exact (Table.contains_eq_false_iff _ _).mp (Bool.eq_false_iff.mpr hnew)

/-- Asking for a type leaves it with the token that is answered. -/
theorem find?_ofValueType (ids : Identities) (type : Ty) :
    (ids.ofValueType type).2.find? (.type type) = some (ids.ofValueType type).1 := by
  unfold ofValueType
  cases hfind : ids.find? (.type type) with
  | some token => exact hfind
  | none =>
      simp only [find?_assign, if_pos]
      rfl

theorem find?_ofType (ids : Identities) (type : Ty) :
    (ids.ofType type).2.find? (.type type) = some (ids.ofType type).1 := by
  simp only [ofType, find?_recordName]
  exact ids.find?_ofValueType type

/-! ## Nothing is lost -/

/-- Everything assigned or recorded in the old table is so in the new one. -/
structure Extends (old new : Identities) : Prop where
  tokens : ∀ referent token, old.find? referent = some token → new.find? referent = some token
  names : ∀ token name, old.nameOf? token = some name → new.nameOf? token = some name

theorem Extends.refl (ids : Identities) : ids.Extends ids := ⟨fun _ _ h => h, fun _ _ h => h⟩

theorem Extends.trans {first second third : Identities} (hfirst : first.Extends second)
    (hsecond : second.Extends third) : first.Extends third where
  tokens referent token h := hsecond.tokens referent token (hfirst.tokens referent token h)
  names token name h := hsecond.names token name (hfirst.names token name h)

theorem Change.extends {old new : Identities} (hchange : Change old new) : old.Extends new := by
  cases hchange with
  | assign hnew =>
      exact ⟨fun _ _ h => Table.find?_insert_of_find?_eq_none old.tokens _ hnew h, fun _ _ h => h⟩
  | recordName token name =>
      refine ⟨fun referent other h => ?_, fun _ _ h => nameOf?_recordName h token name⟩
      rw [find?_recordName]
      exact h

/-- **Tokens and names are permanent.** -/
theorem Evolves.extends {old new : Identities} (hevolves : old.Evolves new) : old.Extends new := by
  induction hevolves with
  | refl => exact Extends.refl old
  | tail _ hchange ih => exact ih.trans hchange.extends

/-! ## No token is handed out twice -/

/-- All tokens were handed out by counting, one for each referent. -/
structure WellFormed (ids : Identities) : Prop where
  lt_next : ∀ referent token, ids.find? referent = some token → token.raw < ids.next
  injective : ∀ first second token, ids.find? first = some token →
    ids.find? second = some token → first = second

theorem wellFormed_empty : empty.WellFormed where
  lt_next _ _ h := nomatch h
  injective _ _ _ h _ := nomatch h

theorem Change.wellFormed {old new : Identities} (hchange : Change old new)
    (hold : old.WellFormed) : new.WellFormed := by
  cases hchange with
  | recordName token name =>
      refine ⟨?_, ?_⟩
      · intro referent other h
        rw [find?_recordName] at h
        rw [next_recordName]
        exact hold.lt_next referent other h
      · intro first second other hfirst hsecond
        rw [find?_recordName] at hfirst hsecond
        exact hold.injective first second other hfirst hsecond
  | @assign referent hnew =>
      refine ⟨?_, ?_⟩
      · intro other token h
        rw [find?_assign] at h
        rw [next_assign]
        split at h
        · cases h
          exact Nat.lt_succ_self _
        · exact Nat.lt_succ_of_lt (hold.lt_next other token h)
      · intro first second token hfirst hsecond
        rw [find?_assign] at hfirst hsecond
        -- a token from before is smaller than the next one, so it is not the one handed out now
        split at hfirst <;> split at hsecond
        · rename_i hfirst' hsecond'
          exact hfirst'.symm.trans hsecond'
        · cases hfirst
          exact absurd (hold.lt_next second _ hsecond) (Nat.lt_irrefl _)
        · cases hsecond
          exact absurd (hold.lt_next first _ hfirst) (Nat.lt_irrefl _)
        · exact hold.injective first second token hfirst hsecond

theorem Evolves.wellFormed {old new : Identities} (hevolves : old.Evolves new)
    (hold : old.WellFormed) : new.WellFormed := by
  induction hevolves with
  | refl => exact hold
  | tail _ hchange ih => exact hchange.wellFormed ih

/-! ## Tokens of traits -/

/-- A token stands for the trait of a key. -/
def Identifies (ids : Identities) (token : Token) (key : TraitKey) : Prop :=
  ids.find? (.type (.trait key)) = some token

theorem Identifies.mono {ids later : Identities} {token : Token} {key : TraitKey}
    (htoken : ids.Identifies token key) (hextends : ids.Extends later) :
    later.Identifies token key := hextends.tokens _ _ htoken

/-- Different tokens stand for different traits. -/
theorem WellFormed.biUnique {ids : Identities} (hids : ids.WellFormed) :
    Relator.BiUnique ids.Identifies := by
  refine ⟨?_, ?_⟩
  · intro token other key htoken hother
    exact Option.some_inj.mp (htoken.symm.trans hother)
  · intro token key other hkey hother
    simpa using hids.injective _ _ _ hkey hother

/-! ## Types that have been asked for by name -/

/-- A type that has a token with a recorded name. -/
def Settled (ids : Identities) (type : Ty) : Prop :=
  ∃ token, ids.find? (.type type) = some token ∧ ids.names.contains token

theorem Settled.mono {ids later : Identities} {type : Ty} (hsettled : ids.Settled type)
    (hextends : ids.Extends later) : later.Settled type := by
  obtain ⟨token, htoken, hnamed⟩ := hsettled
  obtain ⟨name, hname⟩ := Option.isSome_iff_exists.mp hnamed
  exact ⟨token, hextends.tokens _ _ htoken,
    Option.isSome_iff_exists.mpr ⟨name, hextends.names token name hname⟩⟩

theorem contains_recordName (ids : Identities) (token : Token) (name : String) :
    (ids.recordName token name).names.contains token := by
  unfold recordName
  split
  · assumption
  · simp [Table.contains_insert]

theorem settled_ofType (ids : Identities) (type : Ty) : (ids.ofType type).2.Settled type :=
  ⟨(ids.ofType type).1, ids.find?_ofType type, contains_recordName _ _ _⟩

/-- Asking again for a type by name changes nothing. -/
theorem Settled.ofType_eq {ids : Identities} {type : Ty} (hsettled : ids.Settled type) :
    (ids.ofType type).2 = ids := by
  obtain ⟨token, htoken, hnamed⟩ := hsettled
  unfold ofType ofValueType
  simp only [htoken]
  exact if_pos hnamed

end TraitSystem.Identities
