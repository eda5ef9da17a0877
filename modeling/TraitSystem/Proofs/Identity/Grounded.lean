import TraitSystem.Proofs.Identity

/-!
# Tokens are numbered without gaps

Anything can be written down as a token, but a token means something only if it was handed out.  As
long as applications are only made of tokens that were (`Grounded`), the tokens handed out are the
numbers from one to the size of the table, and an application is younger than all of its parts
(`Grows.numbered`).
-/

namespace TraitSystem.Identities

/-! ## Tokens that mean something -/

/-- A token that stands for something. -/
def HandedOut (ids : Identities) (token : Token) : Prop :=
  ∃ referent, ids.find? referent = some token

/-- All tokens among some arguments have been handed out. -/
def Knows (ids : Identities) (args : List TypeArg) : Prop :=
  ∀ token, .token token ∈ args → ids.HandedOut token

/-- What a referent is made of has been handed out, and there are arguments if it is applied. -/
def Grounded (ids : Identities) : Referent → Prop
  | .type _ => True
  | .application base args => args.toList ≠ [] ∧ ids.HandedOut base ∧ ids.Knows args.toList

theorem HandedOut.mono {ids later : Identities} {token : Token} (htoken : ids.HandedOut token)
    (hextends : ids.Extends later) : later.HandedOut token := by
  obtain ⟨referent, hreferent⟩ := htoken
  exact ⟨referent, hextends.tokens referent token hreferent⟩

theorem Knows.mono {ids later : Identities} {args : List TypeArg} (hargs : ids.Knows args)
    (hextends : ids.Extends later) : later.Knows args := fun token htoken =>
  (hargs token htoken).mono hextends

/-! ## Requests that pass tokens which were handed out -/

/-- A single change of the table of tokens, where new tokens are handed out for what is grounded. -/
inductive GroundedChange : Identities → Identities → Prop
  | assign {ids : Identities} {referent : Referent} (hnew : ids.find? referent = none)
      (hgrounded : ids.Grounded referent) : GroundedChange ids (ids.assign referent).2
  | recordName (ids : Identities) (token : Token) (name : String) :
      GroundedChange ids (ids.recordName token name)

/-- What any number of such changes make of the table of tokens. -/
def Grows : Identities → Identities → Prop := Relation.ReflTransGen GroundedChange

theorem Grows.refl (ids : Identities) : ids.Grows ids := Relation.ReflTransGen.refl

theorem Grows.trans {first second third : Identities} (hfirst : first.Grows second)
    (hsecond : second.Grows third) : first.Grows third :=
  Relation.ReflTransGen.trans hfirst hsecond

theorem GroundedChange.grows {old new : Identities} (hchange : GroundedChange old new) :
    old.Grows new := Relation.ReflTransGen.single hchange

theorem GroundedChange.change {old new : Identities} (hchange : GroundedChange old new) :
    Change old new := by
  cases hchange with
  | assign hnew _ => exact .assign hnew
  | recordName token name => exact .recordName old token name

theorem Grows.evolves {old new : Identities} (hgrows : old.Grows new) : old.Evolves new := by
  induction hgrows with
  | refl => exact Evolves.refl old
  | tail _ hchange ih => exact ih.trans hchange.change.evolves

theorem grows_ofValueType (ids : Identities) (type : Ty) : ids.Grows (ids.ofValueType type).2 := by
  unfold ofValueType
  cases hfind : ids.find? (.type type) with
  | some token => exact Grows.refl ids
  | none => exact (GroundedChange.assign hfind trivial).grows

theorem grows_ofType (ids : Identities) (type : Ty) : ids.Grows (ids.ofType type).2 :=
  (ids.grows_ofValueType type).trans (GroundedChange.recordName _ _ _).grows

theorem grows_instantiate {ids : Identities} {base : Token} {args : TypeArgs}
    (hbase : ids.HandedOut base) (hargs : ids.Knows args.toList) :
    ids.Grows (ids.instantiate base args).2 := by
  unfold instantiate
  split
  · exact Grows.refl ids
  · rename_i hnonempty
    cases hfind : ids.find? (.application base args) with
    | some token => exact Grows.refl ids
    | none =>
        exact (GroundedChange.assign hfind ⟨hnonempty, hbase, hargs⟩).grows.trans
          (GroundedChange.recordName _ _ _).grows

theorem toList_of_ofList? {args : List TypeArg} {checked : TypeArgs}
    (hchecked : TypeArgs.ofList? args = .ok checked) : checked.toList = args := by
  unfold TypeArgs.ofList? at hchecked
  split at hchecked
  · cases hchecked
  · cases hchecked
    rfl

theorem grows_ofGeneric {ids : Identities} (type : Ty) {args : List TypeArg}
    (hargs : ids.Knows args) : ids.Grows (ids.ofGeneric type args).2 := by
  have htype := ids.grows_ofType type
  unfold ofGeneric
  cases hchecked : TypeArgs.ofList? args with
  | error error => exact htype
  | ok checked =>
      have hbase : (ids.ofType type).2.HandedOut (ids.ofType type).1 := ⟨_, ids.find?_ofType type⟩
      rw [← toList_of_ofList? hchecked] at hargs
      exact htype.trans (grows_instantiate hbase (hargs.mono htype.evolves.extends))

/-! ## The numbers -/

/-- The tokens handed out are the first numbers, and applications come after their parts. -/
structure Numbered (ids : Identities) : Prop where
  next_eq : ids.next = ids.size + 1
  handedOut_iff : ∀ token, ids.HandedOut token ↔ 0 < token.raw ∧ token.raw < ids.next
  younger : ∀ base args token, ids.find? (.application base args) = some token →
    args.toList ≠ [] ∧ base.raw < token.raw ∧
      ∀ arg, .token arg ∈ args.toList → arg.raw < token.raw

theorem numbered_empty : empty.Numbered where
  next_eq := rfl
  handedOut_iff token := by
    refine iff_of_false ?_ ?_
    · rintro ⟨referent, hreferent⟩
      cases hreferent
    · rintro ⟨hpositive, hsmall⟩
      exact absurd hsmall (Nat.not_lt_of_ge hpositive)
  younger _ _ _ h := nomatch h

/-- Handing out a token adds it to those handed out. -/
theorem handedOut_assign {ids : Identities} {referent : Referent}
    (hnew : ids.find? referent = none) (token : Token) :
    (ids.assign referent).2.HandedOut token ↔ ids.HandedOut token ∨ token = ⟨ids.next⟩ := by
  constructor
  · rintro ⟨other, hother⟩
    rw [find?_assign] at hother
    split at hother
    · exact Or.inr (Option.some_inj.mp hother).symm
    · exact Or.inl ⟨other, hother⟩
  · rintro (⟨other, hother⟩ | rfl)
    · exact ⟨other, (Change.assign hnew).extends.tokens other token hother⟩
    · exact ⟨referent, by rw [find?_assign, if_pos rfl]⟩

theorem size_assign {ids : Identities} {referent : Referent} (hnew : ids.find? referent = none) :
    (ids.assign referent).2.size = ids.size + 1 := by
  have hentries : (ids.assign referent).2.tokens.entries =
      ids.tokens.entries ++ [(referent, ⟨ids.next⟩)] :=
    Table.entries_insert ids.tokens ⟨ids.next⟩ hnew
  unfold size Table.size
  rw [hentries, List.length_append, List.length_singleton]

@[simp] theorem size_recordName (ids : Identities) (token : Token) (name : String) :
    (ids.recordName token name).size = ids.size := by
  unfold recordName
  split <;> rfl

/-- **Handing out tokens for what is grounded leaves no gaps.** -/
theorem GroundedChange.numbered {old new : Identities} (hchange : GroundedChange old new)
    (hold : old.Numbered) : new.Numbered := by
  cases hchange with
  | recordName token name =>
      have hfind : (old.recordName token name).find? = old.find? :=
        funext (find?_recordName old token name)
      refine ⟨?_, ?_, ?_⟩
      · rw [next_recordName, size_recordName]
        exact hold.next_eq
      · intro other
        unfold HandedOut
        rw [hfind, next_recordName]
        exact hold.handedOut_iff other
      · rw [hfind]
        exact hold.younger
  | @assign referent hnew hgrounded =>
      refine ⟨?_, ?_, ?_⟩
      · rw [next_assign, size_assign hnew, hold.next_eq]
      · intro token
        have hnext : token = ⟨old.next⟩ ↔ token.raw = old.next := by
          cases token
          simp
        have hpositive := hold.next_eq
        rw [handedOut_assign hnew, hold.handedOut_iff, next_assign, hnext]
        omega
      · intro base args token hfind
        rw [find?_assign] at hfind
        split at hfind
        · rename_i happlication
          subst happlication
          obtain ⟨hnonempty, hbase, hargs⟩ := hgrounded
          rw [← Option.some_inj.mp hfind]
          -- everything handed out before is smaller than the next token
          refine ⟨hnonempty, ((hold.handedOut_iff base).mp hbase).2, ?_⟩
          intro arg harg
          exact ((hold.handedOut_iff arg).mp (hargs arg harg)).2
        · exact hold.younger base args token hfind

theorem Grows.numbered {old new : Identities} (hgrows : old.Grows new) (hold : old.Numbered) :
    new.Numbered := by
  induction hgrows with
  | refl => exact hold
  | tail _ hchange ih => exact hchange.numbered ih

end TraitSystem.Identities
