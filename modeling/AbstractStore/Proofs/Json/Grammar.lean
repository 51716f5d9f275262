import AbstractStore.Proofs.Json.Faithful

/-! The values of JSON.
To pass over a value is to read one by the grammar, whatever it is (`Decoder.run_skip_eq_ok_iff`).
Values are told apart from what follows them: no value is the beginning of another one
(`IsValue.append_inj`), so a list or an object can be taken apart in one way only. -/

namespace AbstractStore.Json

namespace Token

/-- Whether the token is a value by itself. -/
def isScalar : Token → Bool
  | .null | .bool _ | .integer _ | .number _ | .string _ | .unpaired _ => true
  | _ => false

/-- Whether the token may stand before the colon of an entry. -/
def isKey : Token → Bool
  | .string _ | .unpaired _ => true
  | _ => false

end Token

/-- The tokens of an entry of any object. The key need not be a text, as that of a field is. -/
def entryTokens (e : Token × List Token) : List Token := e.1 :: .colon :: e.2

inductive IsValue : List Token → Prop where
  | scalar {t : Token} (alone : t.isScalar) : IsValue [t]
  | list {items : List (List Token)} (each : ∀ item ∈ items, IsValue item) :
      IsValue (listTokens items)
  | object {entries : List (Token × List Token)} (keys : ∀ e ∈ entries, e.1.isKey)
      (each : ∀ e ∈ entries, IsValue e.2) :
      IsValue (.openBrace :: commas (entries.map entryTokens) ++ [.closeBrace])

theorem IsValue.opens {v : List Token} (value : IsValue v) :
    ∃ t ts, v = t :: ts ∧ t ≠ .closeBracket := by
  cases value with
  | @scalar t alone => exact ⟨t, [], rfl, fun same => by simp [same, Token.isScalar] at alone⟩
  | list each => exact ⟨_, _, rfl, nofun⟩
  | object keys each => exact ⟨_, _, rfl, nofun⟩

theorem IsValue.object_fields {fields : List Field} (each : ∀ f ∈ fields, IsValue f.2) :
    IsValue (objectTokens fields) := by
  have asEntries : fields.map fieldTokens =
      (fields.map fun f => (Token.string f.1, f.2)).map entryTokens := by
    rw [List.map_map]
    rfl
  rw [objectTokens, asEntries]
  exact .object (List.forall_mem_map.2 fun f _ => rfl) (List.forall_mem_map.2 each)

namespace Decoder

/-- The tokens that close some brackets, the innermost first, after a value inside them. -/
inductive Closes : List Bracket → List Token → Prop where
  | done : Closes [] []
  | bracket {around : List Bracket} {b : Bracket} {c : List Token} (later : Closes around c) :
      Closes (b :: around) (b.closing :: c)
  | item {around : List Bracket} {v c : List Token} (value : IsValue v)
      (later : Closes (.square :: around) c) : Closes (.square :: around) (.comma :: (v ++ c))
  | entry {around : List Bracket} {key : Token} {v c : List Token} (named : key.isKey)
      (value : IsValue v) (later : Closes (.curly :: around) c) :
      Closes (.curly :: around) (.comma :: key :: .colon :: (v ++ c))

variable {around : List Bracket} {v w c ts rest : List Token}

theorem Closes.exists_items (closes : Closes (.square :: around) c) :
    ∃ (items : List (List Token)) (c' : List Token),
      c = items.flatMap (.comma :: ·) ++ .closeBracket :: c' ∧ (∀ item ∈ items, IsValue item) ∧
      Closes around c' := by
  generalize inner : Bracket.square :: around = opened at closes
  induction closes with
  | done => cases inner
  | bracket later =>
    cases inner
    exact ⟨[], _, rfl, nofun, later⟩
  | @item _ v c value later ih =>
    cases inner
    obtain ⟨items, c', rfl, each, outer⟩ := ih rfl
    exact ⟨v :: items, c', by simp, List.forall_mem_cons.2 ⟨value, each⟩, outer⟩
  | entry => cases inner

theorem Closes.exists_entries (closes : Closes (.curly :: around) c) :
    ∃ (entries : List (Token × List Token)) (c' : List Token),
      c = (entries.map entryTokens).flatMap (.comma :: ·) ++ .closeBrace :: c' ∧
      (∀ e ∈ entries, e.1.isKey) ∧ (∀ e ∈ entries, IsValue e.2) ∧ Closes around c' := by
  generalize inner : Bracket.curly :: around = opened at closes
  induction closes with
  | done => cases inner
  | bracket later =>
    cases inner
    exact ⟨[], _, rfl, nofun, nofun, later⟩
  | item => cases inner
  | @entry _ key v c named value later ih =>
    cases inner
    obtain ⟨entries, c', rfl, keys, each, outer⟩ := ih rfl
    refine ⟨(key, v) :: entries, c', by simp [entryTokens], ?_, ?_, outer⟩
    · exact List.forall_mem_cons.2 ⟨named, keys⟩
    · exact List.forall_mem_cons.2 ⟨value, each⟩

/-- A first item and what closes the list make a list with what closes the brackets around it. -/
theorem Closes.list (value : IsValue v) (closes : Closes (.square :: around) c) :
    ∃ w c', .openBracket :: (v ++ c) = w ++ c' ∧ IsValue w ∧ Closes around c' := by
  obtain ⟨items, c', rfl, each, outer⟩ := closes.exists_items
  refine ⟨listTokens (v :: items), c', ?_, .list (List.forall_mem_cons.2 ⟨value, each⟩), outer⟩
  simp [listTokens, commas_cons]

theorem Closes.object (key : Token) (named : key.isKey) (value : IsValue v)
    (closes : Closes (.curly :: around) c) :
    ∃ w c', .openBrace :: key :: .colon :: (v ++ c) = w ++ c' ∧ IsValue w ∧ Closes around c' := by
  obtain ⟨entries, c', rfl, keys, each, outer⟩ := closes.exists_entries
  have whole : IsValue (.openBrace :: commas (((key, v) :: entries).map entryTokens) ++
      [.closeBrace]) :=
    .object (List.forall_mem_cons.2 ⟨named, keys⟩) (List.forall_mem_cons.2 ⟨value, each⟩)
  exact ⟨_, c', by simp [commas_cons, entryTokens], whole, outer⟩

theorem Closes.after_scalar {t : Token} (alone : t.isScalar) (closes : Closes around c) :
    ∃ w c', t :: (c ++ rest) = w ++ (c' ++ rest) ∧ IsValue w ∧ Closes around c' :=
  ⟨[t], c, rfl, .scalar alone, closes⟩

mutual
theorem exists_of_skipValue {around : List Bracket} {ts rest : List Token}
    (skipped : skipValue around ts = .ok rest) :
    ∃ v c, ts = v ++ (c ++ rest) ∧ IsValue v ∧ Closes around c := by
  unfold skipValue at skipped
  split at skipped
  case h_1 =>
    obtain ⟨c, rfl, closes⟩ := exists_of_skipRest skipped
    exact ⟨objectTokens [], c, rfl, .object_fields (List.forall_mem_nil _), closes⟩
  case h_2 =>
    obtain ⟨v, c, rfl, value, closes⟩ := exists_of_skipValue skipped
    obtain ⟨w, c', split, whole, outer⟩ := closes.object (.string _) rfl value
    exact ⟨w, c', by simpa using congrArg (· ++ rest) split, whole, outer⟩
  case h_3 =>
    obtain ⟨v, c, rfl, value, closes⟩ := exists_of_skipValue skipped
    obtain ⟨w, c', split, whole, outer⟩ := closes.object (.unpaired _) rfl value
    exact ⟨w, c', by simpa using congrArg (· ++ rest) split, whole, outer⟩
  case h_4 =>
    obtain ⟨c, rfl, closes⟩ := exists_of_skipRest skipped
    exact ⟨listTokens [], c, rfl, .list (List.forall_mem_nil _), closes⟩
  case h_5 =>
    obtain ⟨v, c, rfl, value, closes⟩ := exists_of_skipValue skipped
    obtain ⟨w, c', split, whole, outer⟩ := closes.list value
    exact ⟨w, c', by simpa using congrArg (· ++ rest) split, whole, outer⟩
  case h_12 => cases skipped
  all_goals
    obtain ⟨c, rfl, closes⟩ := exists_of_skipRest skipped
    exact closes.after_scalar rfl
termination_by 2 * ts.length

theorem exists_of_skipRest {around : List Bracket} {ts rest : List Token}
    (skipped : skipRest around ts = .ok rest) :
    ∃ c, ts = c ++ rest ∧ Closes around c := by
  unfold skipRest at skipped
  split at skipped
  case h_1 =>
    cases skipped
    exact ⟨[], rfl, .done⟩
  case h_2 | h_5 =>
    obtain ⟨c, rfl, closes⟩ := exists_of_skipRest skipped
    exact ⟨_, rfl, closes.bracket⟩
  case h_3 key _ =>
    obtain ⟨v, c, rfl, value, closes⟩ := exists_of_skipValue skipped
    have named : (Token.string key).isKey := rfl
    exact ⟨_, by simp, closes.entry named value⟩
  case h_4 key _ =>
    obtain ⟨v, c, rfl, value, closes⟩ := exists_of_skipValue skipped
    have named : (Token.unpaired key).isKey := rfl
    exact ⟨_, by simp, closes.entry named value⟩
  case h_6 =>
    obtain ⟨v, c, rfl, value, closes⟩ := exists_of_skipValue skipped
    exact ⟨_, by simp, closes.item value⟩
  case h_7 => cases skipped
termination_by 2 * ts.length + 1
end

mutual
theorem skipValue_eq_error {around : List Bracket} {ts : List Token} {e : DecodeError}
    (failed : skipValue around ts = .error e) : e = .malformed := by
  unfold skipValue at failed
  split at failed
  case h_2 | h_3 | h_5 => exact skipValue_eq_error failed
  case h_12 =>
    cases failed
    rfl
  all_goals exact skipRest_eq_error failed
termination_by 2 * ts.length

theorem skipRest_eq_error {around : List Bracket} {ts : List Token} {e : DecodeError}
    (failed : skipRest around ts = .error e) : e = .malformed := by
  unfold skipRest at failed
  split at failed
  case h_1 => cases failed
  case h_2 | h_5 => exact skipRest_eq_error failed
  case h_7 =>
    cases failed
    rfl
  all_goals exact skipValue_eq_error failed
termination_by 2 * ts.length + 1
end

/-- The items of a list after one of them are passed over where each of them is. -/
theorem skipRest_items {items : List (List Token)}
    (each : ∀ item ∈ items, ∀ around ts, skipValue around (item ++ ts) = skipRest around ts) :
    skipRest (.square :: around) (items.flatMap (.comma :: ·) ++ .closeBracket :: ts) =
      skipRest around ts := by
  induction items with
  | nil => simp [skipRest]
  | cons item items ih =>
    obtain ⟨first, later⟩ := List.forall_mem_cons.1 each
    rw [List.flatMap_cons, List.cons_append, List.cons_append, List.append_assoc, skipRest, first,
      ih later]

theorem skipRest_entries {entries : List (Token × List Token)} (keys : ∀ e ∈ entries, e.1.isKey)
    (each : ∀ e ∈ entries, ∀ around ts, skipValue around (e.2 ++ ts) = skipRest around ts) :
    skipRest (.curly :: around)
        ((entries.map entryTokens).flatMap (.comma :: ·) ++ .closeBrace :: ts) =
      skipRest around ts := by
  induction entries with
  | nil => simp [skipRest]
  | cons e entries ih =>
    obtain ⟨first, later⟩ := List.forall_mem_cons.1 each
    obtain ⟨named, others⟩ := List.forall_mem_cons.1 keys
    have split : ((e :: entries).map entryTokens).flatMap (.comma :: ·) ++ .closeBrace :: ts =
        .comma :: e.1 :: .colon ::
          (e.2 ++ ((entries.map entryTokens).flatMap (.comma :: ·) ++ .closeBrace :: ts)) := by
      simp [entryTokens]
    rw [split]
    obtain ⟨key, value⟩ := e
    cases key with
    | string | unpaired => rw [skipRest, first, ih others later]
    | _ => cases named

theorem skipValue_of_isValue (value : IsValue v) (around : List Bracket) (ts : List Token) :
    skipValue around (v ++ ts) = skipRest around ts := by
  induction value generalizing around ts with
  | @scalar t alone =>
    cases t with
    | null | bool | integer | number | string | unpaired =>
      rw [List.singleton_append, skipValue]
    | _ => cases alone
  | @list items each ih =>
    cases items with
    | nil => rw [listTokens, commas]; simp [skipValue]
    | cons item items =>
      obtain ⟨first, later⟩ := List.forall_mem_cons.1 ih
      obtain ⟨t, more, begun, notClosed⟩ := (each item (by simp)).opens
      have split : listTokens (item :: items) ++ ts =
          .openBracket :: (item ++ (items.flatMap (.comma :: ·) ++ .closeBracket :: ts)) := by
        simp [listTokens, commas_cons]
      have enters (us : List Token) : skipValue around (.openBracket :: t :: us) =
          skipValue (.square :: around) (t :: us) := by
        rw [skipValue]
        intro rest same
        exact notClosed (List.cons.inj same).1
      rw [split, begun, List.cons_append, enters, ← List.cons_append, ← begun, first,
        skipRest_items later]
  | @object entries keys each ih =>
    cases entries with
    | nil => simp [commas, skipValue]
    | cons e entries =>
      obtain ⟨first, later⟩ := List.forall_mem_cons.1 ih
      obtain ⟨named, others⟩ := List.forall_mem_cons.1 keys
      have split : .openBrace :: commas ((e :: entries).map entryTokens) ++ [.closeBrace] ++ ts =
          .openBrace :: e.1 :: .colon ::
            (e.2 ++ ((entries.map entryTokens).flatMap (.comma :: ·) ++ .closeBrace :: ts)) := by
        simp [commas_cons, entryTokens]
      rw [split]
      obtain ⟨key, value⟩ := e
      cases key with
      | string | unpaired => rw [skipValue, first, skipRest_entries others later]
      | _ => cases named

/-- Exactly a value is passed over, by the grammar. -/
theorem run_skip_eq_ok_iff : skip.run ts = .ok ((), rest) ↔ ∃ v, ts = v ++ rest ∧ IsValue v := by
  have passed : skip.run ts = .ok ((), rest) ↔ skipValue [] ts = .ok rest := by
    simp only [skip]
    cases skipValue [] ts <;> simp
  rw [passed]
  constructor
  · intro skipped
    obtain ⟨v, c, rfl, value, closes⟩ := exists_of_skipValue skipped
    cases closes
    exact ⟨v, rfl, value⟩
  · rintro ⟨v, rfl, value⟩
    rw [skipValue_of_isValue value, skipRest]

end Decoder

/-- What a value is followed by can be told from the tokens. -/
theorem IsValue.append_inj {v w rest more : List Token} (value : IsValue v) (other : IsValue w)
    (same : v ++ rest = w ++ more) : v = w ∧ rest = more := by
  have first : Decoder.skip.run (v ++ rest) = .ok ((), rest) :=
    Decoder.run_skip_eq_ok_iff.2 ⟨v, rfl, value⟩
  have second : Decoder.skip.run (v ++ rest) = .ok ((), more) :=
    Decoder.run_skip_eq_ok_iff.2 ⟨w, same, other⟩
  obtain ⟨-, rfl⟩ := Prod.mk.inj (Except.ok.inj (first.symm.trans second))
  exact ⟨List.append_cancel_right same, rfl⟩

section Injective

variable {items others : List (List Token)} {fields more : List Field}

theorem flatMap_comma_inj (each : ∀ item ∈ items, IsValue item)
    (each' : ∀ item ∈ others, IsValue item)
    (same : items.flatMap (.comma :: ·) ++ [.closeBracket] =
      others.flatMap (.comma :: ·) ++ [.closeBracket]) : items = others := by
  induction items generalizing others with
  | nil =>
    cases others with
    | nil => rfl
    | cons => cases (List.cons.inj same).1
  | cons item items ih =>
    cases others with
    | nil => cases (List.cons.inj same).1
    | cons other others =>
      obtain ⟨first, later⟩ := List.forall_mem_cons.1 each
      obtain ⟨first', later'⟩ := List.forall_mem_cons.1 each'
      simp only [List.flatMap_cons, List.cons_append, List.append_assoc, List.cons.injEq,
        true_and] at same
      obtain ⟨rfl, rest⟩ := first.append_inj first' same
      rw [ih later later' rest]

/-- A list has its items only. -/
theorem listTokens_inj (each : ∀ item ∈ items, IsValue item) (each' : ∀ item ∈ others, IsValue item)
    (same : listTokens items = listTokens others) : items = others := by
  cases items with
  | nil =>
    cases others with
    | nil => rfl
    | cons other others =>
      obtain ⟨t, ts, rfl, notClosed⟩ := (each' other (List.mem_cons_self ..)).opens
      simp [listTokens, commas, notClosed.symm] at same
  | cons item items =>
    cases others with
    | nil =>
      obtain ⟨t, ts, rfl, notClosed⟩ := (each item (List.mem_cons_self ..)).opens
      simp [listTokens, commas, notClosed] at same
    | cons other others =>
      obtain ⟨first, later⟩ := List.forall_mem_cons.1 each
      obtain ⟨first', later'⟩ := List.forall_mem_cons.1 each'
      simp only [listTokens, commas_cons, List.cons_append, List.append_assoc, List.cons.injEq,
        true_and] at same
      obtain ⟨rfl, rest⟩ := first.append_inj first' same
      rw [flatMap_comma_inj later later' rest]

theorem flatMap_fields_inj (each : ∀ f ∈ fields, IsValue f.2) (each' : ∀ f ∈ more, IsValue f.2)
    (same : (fields.map fieldTokens).flatMap (.comma :: ·) ++ [.closeBrace] =
      (more.map fieldTokens).flatMap (.comma :: ·) ++ [.closeBrace]) : fields = more := by
  induction fields generalizing more with
  | nil =>
    cases more with
    | nil => rfl
    | cons => cases (List.cons.inj same).1
  | cons f fields ih =>
    cases more with
    | nil => cases (List.cons.inj same).1
    | cons g more =>
      obtain ⟨first, later⟩ := List.forall_mem_cons.1 each
      obtain ⟨first', later'⟩ := List.forall_mem_cons.1 each'
      simp only [List.map_cons, List.flatMap_cons, fieldTokens, List.cons_append, List.append_assoc,
        List.cons.injEq, Token.string.injEq, true_and] at same
      obtain ⟨sameKey, rest⟩ := same
      obtain ⟨sameValue, rest⟩ := first.append_inj first' rest
      rw [Prod.ext sameKey sameValue, ih later later' rest]

/-- An object has its fields only. -/
theorem objectTokens_inj (each : ∀ f ∈ fields, IsValue f.2) (each' : ∀ f ∈ more, IsValue f.2)
    (same : objectTokens fields = objectTokens more) : fields = more := by
  cases fields with
  | nil =>
    cases more with
    | nil => rfl
    | cons => simp [objectTokens, commas, fieldTokens] at same
  | cons f fields =>
    cases more with
    | nil => simp [objectTokens, commas, fieldTokens] at same
    | cons g more =>
      obtain ⟨first, later⟩ := List.forall_mem_cons.1 each
      obtain ⟨first', later'⟩ := List.forall_mem_cons.1 each'
      simp only [objectTokens, List.map_cons, commas_cons, fieldTokens, List.cons_append,
        List.append_assoc, List.cons.injEq, Token.string.injEq, true_and] at same
      obtain ⟨sameKey, rest⟩ := same
      obtain ⟨sameValue, rest⟩ := first.append_inj first' rest
      rw [Prod.ext sameKey sameValue, flatMap_fields_inj later later' rest]

end Injective

end AbstractStore.Json
