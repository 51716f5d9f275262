import AbstractStore.Proofs.RoundTrip
import Mathlib.Data.List.Nodup

/-! The strings that names are spelled as.
A decimal numeral is the writing of its value exactly if no zero stands in front of it
(`Decimal.digits_eq_iff`). So a string that is read as a name is written again as it was exactly if
it is plain, a generated name in full, or an escape that was needed (`Name.spelling_ofSpelling`),
and objects whose keys are names have no key twice. -/

namespace AbstractStore

open Std Json

namespace Decimal

/-- Digits as a number is written in them: there are some, and none of several starts with zero. -/
structure IsNumeral (cs : List Char) : Prop where
  nonempty : cs ≠ []
  digits : cs.all isDigit = true
  leading : cs.head? = some '0' → cs = ['0']

theorem digit_digitValue {c : Char} (numeral : isDigit c = true) :
    digitValue c < 10 ∧ digit (digitValue c) = c := by
  obtain ⟨low, high⟩ : '0' ≤ c ∧ c ≤ '9' := by simpa [isDigit] using numeral
  have above : 48 ≤ c.toNat := low
  have below : c.toNat ≤ 57 := high
  have same : 48 + digitValue c = c.toNat := by
    unfold digitValue
    omega
  refine ⟨by unfold digitValue; omega, ?_⟩
  rw [digit, same, Char.ofNat_toNat]

theorem isNumeral_digits (n : Nat) : IsNumeral (digits n) where
  nonempty := digits_ne_nil n
  digits := all_isDigit_digits n
  leading zero := by
    rcases Nat.eq_zero_or_pos n with rfl | positive
    · exact digits_zero
    · obtain ⟨c, cs, split, nonzero⟩ := exists_digits_eq_cons positive
      rw [split] at zero
      exact absurd (Option.some.inj zero) nonzero

/-- By induction from the last digit on: what stands before it is a numeral too, and not zero. -/
theorem digits_value {cs : List Char} (numeral : IsNumeral cs) : digits (value cs) = cs := by
  induction cs using List.reverseRecOn with
  | nil => exact absurd rfl numeral.nonempty
  | append_singleton ds c ih =>
    obtain ⟨before, last⟩ : ds.all isDigit = true ∧ isDigit c = true := by
      simpa using numeral.digits
    obtain ⟨small, written⟩ := digit_digitValue last
    -- One digit alone may be zero. Where there are more the first is not, so their value is not.
    rcases List.eq_nil_or_concat ds with rfl | ⟨es, e, split⟩
    · have value_last : value ([] ++ [c]) = digitValue c := by simp [value]
      rw [value_last, digits, if_pos small, written, List.nil_append]
    · have nonempty : ds ≠ [] := by simp [split]
      have head : (ds ++ [c]).head? = ds.head? := List.head?_append_of_ne_nil _ nonempty
      have nonzero : ds.head? ≠ some '0' := by
        intro zero
        have lengths := congrArg List.length (numeral.leading (head.trans zero))
        simp [split] at lengths
      have restored := ih ⟨nonempty, before, fun zero => absurd zero nonzero⟩
      have positive : 0 < value ds := by
        refine Nat.pos_of_ne_zero fun vanishes => nonzero ?_
        rw [← restored, vanishes, digits_zero]
        rfl
      have tens : (10 * value ds + digitValue c) / 10 = value ds := by omega
      have ones : (10 * value ds + digitValue c) % 10 = digitValue c := by omega
      rw [value_concat, digits, if_neg (by omega), tens, ones, restored, written]

theorem digits_eq_iff {cs : List Char} {n : Nat} : digits n = cs ↔ IsNumeral cs ∧ value cs = n := by
  constructor
  · rintro rfl
    exact ⟨isNumeral_digits n, value_digits n⟩
  · rintro ⟨numeral, rfl⟩
    exact digits_value numeral

end Decimal

namespace Json

theorem Codec.ReadsBack.injective {α : Type} {c : Codec α} (readsBack : c.ReadsBack) :
    Function.Injective c.toText := by
  intro a b same
  have read := readsBack a
  rw [same, readsBack b] at read
  exact (Except.ok.inj read).symm

theorem Codec.ofText_via {α β : Type} (c : Codec α) (pack : α → β) (unpack : β → α)
    (text : String) : (c.via pack unpack).ofText text = (c.ofText text).map pack := by
  unfold Codec.ofText Decoder.runText Codec.via
  simp only [Decoder.run_bind, Decoder.run_pure]
  rcases c.decode.run (tokens text) with _ | ⟨a, _ | _⟩ <;> rfl

end Json

namespace Name

/-- The strings that names are spelled as. -/
inductive IsSpelling (s : String) : Prop where
  /-- A user's name that cannot be taken for another one. -/
  | plain (notEscaped : ¬ ['\\'] <+: s.toList) (notGenerated : ¬ gensymPrefix.toList <+: s.toList)
  | generated (index : List Char) (split : s.toList = gensymPrefix.toList ++ index)
      (numeral : Decimal.IsNumeral index) (below : Decimal.value index < UInt64.size)
  | escaped (text : List Char) (split : s.toList = '\\' :: text)
      (needed : gensymPrefix.toList <+: text ∨ ['\\'] <+: text)

theorem needsEscape_iff {text : List Char} :
    needsEscape text = true ↔ gensymPrefix.toList <+: text ∨ ['\\'] <+: text := by
  simp [needsEscape]

theorem toList_spelling_gensym (index : UInt64) :
    (spelling (.gensym index)).toList = gensymPrefix.toList ++ Decimal.digits index.toNat := by
  simp [spelling, Decimal.text]

theorem isSpelling_spelling (n : Name) : IsSpelling n.spelling := by
  cases n with
  | user text =>
    by_cases escape : needsEscape text.toList = true
    · refine .escaped text.toList ?_ (needsEscape_iff.1 escape)
      simp [spelling, escape]
    · have spelled : spelling (.user text) = text := by simp [spelling, escape]
      obtain ⟨notGenerated, notEscaped⟩ := not_or.1 (mt needsEscape_iff.2 escape)
      rw [spelled]
      exact .plain notEscaped notGenerated
  | gensym index =>
    refine .generated _ (toList_spelling_gensym index) (Decimal.isNumeral_digits _) ?_
    rw [Decimal.value_digits]
    exact index.toNat_lt_size

theorem exists_of_isSpelling {s : String} (spells : IsSpelling s) : ∃ n : Name, n.spelling = s := by
  cases spells with
  | plain notEscaped notGenerated =>
    have bare : ¬ needsEscape s.toList = true := fun escape =>
      (needsEscape_iff.1 escape).elim notGenerated notEscaped
    exact ⟨.user s, by simp [spelling, bare]⟩
  | generated index split numeral below =>
    refine ⟨.gensym (UInt64.ofNat (Decimal.value index)), String.toList_injective ?_⟩
    rw [toList_spelling_gensym, UInt64.toNat_ofNat_of_lt' below, Decimal.digits_value numeral, split]
  | escaped text split needed =>
    have escape : needsEscape text = true := needsEscape_iff.2 needed
    refine ⟨.user (String.ofList text), String.toList_injective ?_⟩
    simp [spelling, escape, split]

theorem spelling_ofSpelling {s : String} : (ofSpelling s).spelling = s ↔ IsSpelling s := by
  constructor
  · intro again
    rw [← again]
    exact isSpelling_spelling _
  · intro spells
    obtain ⟨n, rfl⟩ := exists_of_isSpelling spells
    rw [ofSpelling_spelling]

theorem spelling_injective : Function.Injective spelling :=
  Function.LeftInverse.injective ofSpelling_spelling

/-- A string in JSON is read as the name that it spells. -/
theorem ofText_string (s : String) : codec.ofText (Codec.string.toText s) = .ok (ofSpelling s) := by
  rw [codec, Codec.ofText_via, Codec.Faithful.string.readsBack s]
  rfl

theorem toText_eq_iff {n : Name} {s : String} :
    codec.toText n = Codec.string.toText s ↔ n.spelling = s :=
  Codec.Faithful.string.readsBack.injective.eq_iff

/-- A map with names as keys is written as an object that has each of its keys once. -/
theorem encode_keyed {β : Type} (c : Codec β) (m : AscMap Name β) : ∃ fields : List Field,
    (keyed c).encode m = objectTokens fields ∧ (fields.map Prod.fst).Nodup ∧
      fields.map (fun field => ofSpelling field.1) = m.keys.toList := by
  refine ⟨m.toList.map fun e => (e.1.spelling, c.encode e.2), rfl, ?_, ?_⟩
  · have keys : (m.toList.map fun e => (e.1.spelling, c.encode e.2)).map Prod.fst =
        m.keys.toList.map spelling := by
      simp [AscMap.keys]
    rw [keys]
    exact m.keys.nodup_toList.map spelling_injective
  · simp [AscMap.keys, ofSpelling_spelling]

/-- Each name is read back from its spelling, so no two are spelled alike. A string that is read as
a name is spelled like that name exactly if it is the spelling of any, and which strings these are
can be told from the string. The same goes for their texts in JSON. A map with names as keys is an
object with as many keys, each there once, and is read back from it if its values are. -/
theorem spelling_exact :
    (∀ n : Name, ofSpelling n.spelling = n ∧ codec.ofText (codec.toText n) = .ok n) ∧
    Function.Injective spelling ∧
    (∀ text index, ofSpelling (spelling (.user text)) ≠ .gensym index) ∧
    (∀ s, ((∃ n : Name, n.spelling = s) ↔ IsSpelling s) ∧
      ((ofSpelling s).spelling = s ↔ IsSpelling s)) ∧
    (∀ s, ∃ n, codec.ofText (Codec.string.toText s) = .ok n ∧
      (codec.toText n = Codec.string.toText s ↔ IsSpelling s)) ∧
    ∀ {β : Type} (c : Codec β) (m : AscMap Name β),
      (∃ fields : List Field, (keyed c).encode m = objectTokens fields ∧
        (fields.map Prod.fst).Nodup ∧
        fields.map (fun field => ofSpelling field.1) = m.keys.toList) ∧
      (c.Faithful → (keyed c).ofText ((keyed c).toText m) = .ok m) := by
  refine ⟨fun n => ⟨ofSpelling_spelling n, faithful_codec.readsBack n⟩, spelling_injective,
    fun text index => ?_, fun s => ⟨⟨?_, exists_of_isSpelling⟩, spelling_ofSpelling⟩,
    fun s => ⟨ofSpelling s, ofText_string s, toText_eq_iff.trans spelling_ofSpelling⟩,
    fun c m => ⟨encode_keyed c m, fun faithful => (faithful_keyed faithful).readsBack m⟩⟩
  · rw [ofSpelling_spelling]
    exact nofun
  · rintro ⟨n, rfl⟩
    exact isSpelling_spelling n

/-- A generated name and a user's name that looks the same, under keys of their own. -/
def lookalikes : AscMap Name UInt64 := .ofList [(.gensym 3, 1), (.user "_gensym3", 0)]

theorem spelling_exact_lookalikes :
    Codec.uint64.Faithful ∧
    (keyed .uint64).toText lookalikes = "\x7b\"\\\\_gensym3\":0,\"_gensym3\":1\x7d" ∧
    (keyed .uint64).ofText ((keyed .uint64).toText lookalikes) = .ok lookalikes ∧
    ofSpelling "_gensym+07" = .gensym 7 ∧ ¬ IsSpelling "_gensym+07" ∧
    ofSpelling "\\plain" = .user "plain" ∧ ¬ IsSpelling "\\plain" := by
  obtain ⟨-, -, -, exactly, -, maps⟩ := spelling_exact
  have signed : ofSpelling "_gensym+07" = .gensym 7 := by decide +kernel
  have escaped : ofSpelling "\\plain" = .user "plain" := by decide +kernel
  refine ⟨.uint64, by decide +kernel, (maps .uint64 lookalikes).2 .uint64, signed, ?_, escaped, ?_⟩
  · rw [← (exactly _).2, signed]
    decide +kernel
  · rw [← (exactly _).2, escaped]
    decide +kernel

end Name

end AbstractStore
