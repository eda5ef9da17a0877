import TraitSystem.Proofs.Identity.Names
import TraitSystem.Proofs.List

/-!
# Asking for many types in a row

Asking for a type a second time changes nothing, so of a list of types only the first occurrences
count (`replay_byName`).  Those of them that have no token get consecutive ones, in the order of the
list, and nothing else gets a token or loses one (`Enrolls`).
-/

namespace TraitSystem.Identities

variable {ids between later : Identities} {types : List Ty} {type : Ty}

/-- The types of a list that have no token. -/
def missing (ids : Identities) (types : List Ty) : List Ty :=
  types.filter fun type => ids.find? (.type type) = none

theorem mem_missing : type ∈ ids.missing types ↔ type ∈ types ∧ ids.find? (.type type) = none := by
  simp [missing]

/-- The types of a list have been asked for by name, one after the other. -/
structure Enrolls (ids later : Identities) (types : List Ty) : Prop where
  /-- Tokens and names stay. -/
  kept : ids.Extends later
  /-- The tokens that are handed out are the next ones in order. -/
  numbered : ∀ (i : ℕ) (type : Ty), (ids.missing types)[i]? = some type →
    later.find? (.type type) = some ⟨ids.next + i⟩
  next_eq : later.next = ids.next + (ids.missing types).length
  /-- No other tokens are handed out, be it for types or for applications. -/
  others : ∀ referent, (∀ type ∈ ids.missing types, referent ≠ .type type) →
    later.find? referent = ids.find? referent
  /-- All of the types have names. -/
  settled : ∀ type ∈ types, later.Settled type
  /-- No other names are recorded, and each is that of the type. -/
  names : ∀ token, later.nameOf? token = ids.nameOf? token ∨ ∃ type ∈ types,
    later.find? (.type type) = some token ∧ ids.nameOf? token = none ∧
      later.nameOf? token = some type.name

/-! ## One more type -/

theorem serve_byName_of_found {token : Token} (hfind : ids.find? (.type type) = some token) :
    ids.serve (.byName type) = ids.recordName token type.name := by
  show (ids.ofType type).2 = _
  rw [ofType, ofValueType_of_found hfind]

theorem serve_byName_of_new (hnew : ids.find? (.type type) = none) :
    ids.serve (.byName type) = (ids.assign (.type type)).2.recordName ⟨ids.next⟩ type.name := by
  show (ids.ofType type).2 = _
  rw [ofType, ofValueType_of_new hnew]
  rfl

theorem nameOf?_serve_byName (ids : Identities) (type : Ty) (token : Token) :
    (ids.serve (.byName type)).nameOf? token =
      (ids.nameOf? token).or (if (ids.ofType type).1 = token then some type.name else none) := by
  show ((ids.ofValueType type).2.recordName _ _).nameOf? token = _
  rw [nameOf?_recordName_eq, nameOf?_ofValueType]
  rfl

theorem missing_concat_of_found {token : Token} (hfind : ids.find? (.type type) = some token) :
    ids.missing (types ++ [type]) = ids.missing types := by
  simp [missing, List.filter_append, hfind]

theorem missing_concat_of_new (hnew : ids.find? (.type type) = none) :
    ids.missing (types ++ [type]) = ids.missing types ++ [type] := by
  simp [missing, List.filter_append, hnew]

namespace Enrolls

/-- What gets a token is one of the types. -/
theorem mem_of_new (henrolls : ids.Enrolls later types) {referent : Referent} {token : Token}
    (hnew : ids.find? referent = none) (hfind : later.find? referent = some token) :
    ∃ type ∈ types, referent = .type type := by
  by_contra hothers
  have hsame := henrolls.others referent fun type htype heq =>
    hothers ⟨type, (mem_missing.mp htype).1, heq⟩
  rw [hfind, hnew] at hsame
  cases hsame

/-- Every type has a name. -/
theorem exists_name (henrolls : ids.Enrolls later types) (htype : type ∈ types) {token : Token}
    (htoken : later.find? (.type type) = some token) : ∃ name, later.nameOf? token = some name := by
  obtain ⟨known, hknown, hname⟩ := henrolls.settled type htype
  cases hknown.symm.trans htoken
  exact Option.isSome_iff_exists.mp hname

theorem nil (ids : Identities) : ids.Enrolls ids [] where
  kept := Extends.refl ids
  numbered _ _ h := nomatch h
  next_eq := rfl
  others _ _ := rfl
  settled _ h := nomatch h
  names _ := Or.inl rfl

/-- One more type records no name but its own, and only if its token has none. -/
theorem names_concat (henrolls : ids.Enrolls between types) (type : Ty) (token : Token) :
    (between.serve (.byName type)).nameOf? token = ids.nameOf? token ∨
      ∃ known ∈ types ++ [type], (between.serve (.byName type)).find? (.type known) = some token ∧
        ids.nameOf? token = none ∧
          (between.serve (.byName type)).nameOf? token = some known.name := by
  have hkept := (between.evolves_serve (.byName type)).extends
  rw [nameOf?_serve_byName]
  rcases henrolls.names token with hsame | ⟨known, hknown, hfind, hnone, hname⟩
  · rw [hsame]
    cases hname : ids.nameOf? token with
    | some name => exact Or.inl (Option.some_or ..)
    | none =>
        rw [Option.none_or]
        split
        · rename_i hown
          subst hown
          exact Or.inr ⟨type, List.mem_append_right _ (List.mem_singleton_self _),
            between.find?_ofType type, rfl, rfl⟩
        · exact Or.inl rfl
  · rw [hname, Option.some_or]
    exact Or.inr ⟨known, List.mem_append_left _ hknown, hkept.tokens _ _ hfind, hnone, rfl⟩

/-- One more type can be asked for that is not in the list. -/
theorem concat (henrolls : ids.Enrolls between types) (hother : type ∉ types) :
    ids.Enrolls (between.serve (.byName type)) (types ++ [type]) := by
  have hkept := (between.evolves_serve (.byName type)).extends
  have hsettled : ∀ known ∈ types ++ [type], (between.serve (.byName type)).Settled known :=
    List.forall_mem_append.mpr ⟨fun known hknown => (henrolls.settled known hknown).mono hkept,
      List.forall_mem_singleton.mpr (between.settled_ofType type)⟩
  cases hfind : ids.find? (.type type) with
  | some token =>
      have hsame := serve_byName_of_found (henrolls.kept.tokens _ _ hfind)
      have hmissing : ids.missing (types ++ [type]) = ids.missing types :=
        missing_concat_of_found hfind
      refine ⟨henrolls.kept.trans hkept, ?_, ?_, ?_, hsettled, henrolls.names_concat type⟩
      · intro i known hi
        rw [hmissing] at hi
        exact hkept.tokens _ _ (henrolls.numbered i known hi)
      · rw [hmissing, hsame, next_recordName, henrolls.next_eq]
      · intro referent hreferent
        rw [hmissing] at hreferent
        rw [hsame, find?_recordName, henrolls.others referent hreferent]
  | none =>
      have hnew : between.find? (.type type) = none := by
        rw [henrolls.others, hfind]
        rintro known hknown ⟨⟩
        exact hother (mem_missing.mp hknown).1
      have hsame := serve_byName_of_new hnew
      have hmissing : ids.missing (types ++ [type]) = ids.missing types ++ [type] :=
        missing_concat_of_new hfind
      refine ⟨henrolls.kept.trans hkept, ?_, ?_, ?_, hsettled, henrolls.names_concat type⟩
      · intro i known hi
        rw [hmissing, List.getElem?_append] at hi
        split at hi
        · exact hkept.tokens _ _ (henrolls.numbered i known hi)
        · -- the last one gets the token that was the next one then
          rw [List.getElem?_singleton] at hi
          split at hi
          · cases hi
            have hlast : i = (ids.missing types).length := by omega
            rw [hsame, find?_recordName, find?_assign, if_pos rfl, henrolls.next_eq, hlast]
          · cases hi
      · rw [hmissing, hsame, next_recordName, next_assign, henrolls.next_eq, List.length_append,
          List.length_singleton, Nat.add_assoc]
      · intro referent hreferent
        rw [hmissing, List.forall_mem_append, List.forall_mem_singleton] at hreferent
        rw [hsame, find?_recordName, find?_assign, if_neg hreferent.2.symm,
          henrolls.others referent hreferent.1]

end Enrolls

/-! ## All of them -/

theorem settled_replay_byName (ids : Identities) (types : List Ty) :
    ∀ type ∈ types, (ids.replay (types.map .byName)).Settled type := by
  induction types using List.reverseRecOn with
  | nil => exact List.forall_mem_nil _
  | append_singleton types last ih =>
      rw [List.map_append, List.map_singleton, replay_concat]
      have hkept := ((ids.replay (types.map .byName)).evolves_serve (.byName last)).extends
      exact List.forall_mem_append.mpr ⟨fun type htype => (ih type htype).mono hkept,
        List.forall_mem_singleton.mpr (settled_ofType _ last)⟩

/-- Only the first time counts that a type is asked for. -/
theorem replay_mergeNew (ids : Identities) (types : List Ty) :
    ids.replay ((mergeNew [] types).map .byName) = ids.replay (types.map .byName) := by
  induction types using List.reverseRecOn with
  | nil => rfl
  | append_singleton types last ih =>
      rw [mergeNew_concat, List.map_append, List.map_singleton, replay_concat, ← ih]
      unfold appendNew
      split
      · rename_i hmem
        exact (Settled.ofType_eq (ids.settled_replay_byName _ last hmem)).symm
      · rw [List.map_append, List.map_singleton, replay_concat]

/-- **Types are enrolled by asking for them**, if none of them is in the list twice. -/
theorem enrolls_replay (ids : Identities) {types : List Ty} (hnodup : types.Nodup) :
    ids.Enrolls (ids.replay (types.map .byName)) types := by
  induction types using List.reverseRecOn with
  | nil => exact .nil ids
  | append_singleton types last ih =>
      obtain ⟨hbefore, -, hother⟩ := List.nodup_append.mp hnodup
      rw [List.map_append, List.map_singleton, replay_concat]
      refine (ih hbefore).concat fun hmem => ?_
      exact hother last hmem last (List.mem_singleton_self last) rfl

/-- **Of types that are asked for the first occurrences are enrolled.** -/
theorem enrolls_mergeNew (ids : Identities) (types : List Ty) :
    ids.Enrolls (ids.replay (types.map .byName)) (mergeNew [] types) := by
  rw [← ids.replay_mergeNew types]
  exact ids.enrolls_replay (nodup_mergeNew List.nodup_nil types)

end TraitSystem.Identities
