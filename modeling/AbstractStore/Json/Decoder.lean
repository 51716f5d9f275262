import AbstractStore.Json.Scan

/-! Readers of values from tokens.
A decoder takes a value off the front of the tokens and stops at the first fault it meets, reading
from left to right. It never leaves more tokens than it was given, which is why the readers of
lists and objects come to an end. -/

namespace AbstractStore.Json

inductive DecodeError where
  /-- The text has not the form that the value is written in. -/
  | malformed
  /-- The form is right and complete, but no value has it, for the reason given. -/
  | refused (reason : String)
  deriving DecidableEq

structure Decoder (α : Type) where
  run : List Token → Except DecodeError (α × List Token)
  noLonger : ∀ {ts a rest}, run ts = .ok (a, rest) → rest.length ≤ ts.length

namespace Decoder

variable {α β σ : Type}

protected def pure (a : α) : Decoder α := ⟨fun ts => .ok (a, ts), fun h => by cases h; simp⟩

protected def bind (d : Decoder α) (f : α → Decoder β) : Decoder β where
  run ts := match d.run ts with
    | .error e => .error e
    | .ok (a, rest) => (f a).run rest
  noLonger {ts b rest} h := by
    split at h
    next => cases h
    next a middle first => exact Nat.le_trans ((f a).noLonger h) (d.noLonger first)

instance : Monad Decoder where
  pure := Decoder.pure
  bind := Decoder.bind

def fail (e : DecodeError) : Decoder α := ⟨fun _ => .error e, fun h => by cases h⟩

@[simp] theorem run_pure (a : α) (ts : List Token) : (pure a : Decoder α).run ts = .ok (a, ts) := rfl

@[simp] theorem run_bind (d : Decoder α) (f : α → Decoder β) (ts : List Token) :
    (d >>= f).run ts = match d.run ts with
      | .error e => .error e
      | .ok (a, rest) => (f a).run rest := rfl

@[simp] theorem run_fail (e : DecodeError) (ts : List Token) :
    (fail e : Decoder α).run ts = .error e := rfl

/-- One token, if the test gives a value for it. -/
def token (test : Token → Option α) : Decoder α where
  run
    | [] => .error .malformed
    | t :: rest => match test t with
      | some a => .ok (a, rest)
      | none => .error .malformed
  noLonger {ts a rest} h := by
    split at h
    next => cases h
    next => split at h <;> cases h; simp

def exactly (t : Token) : Decoder Unit := token fun u => if u = t then some () else none

@[simp] theorem run_exactly (t : Token) (ts : List Token) :
    (exactly t).run (t :: ts) = .ok ((), ts) := by
  simp [exactly, token]

/-- The items of a list after one of them, up to the closing bracket. -/
def laterItems (d : Decoder α) : List Token → Except DecodeError (List α × List Token)
  | .closeBracket :: rest => .ok ([], rest)
  | .comma :: ts =>
      match item : d.run ts with
      | .error e => .error e
      | .ok (a, rest) =>
          have := d.noLonger item
          match laterItems d rest with
          | .error e => .error e
          | .ok (as, rest) => .ok (a :: as, rest)
  | _ => .error .malformed
termination_by ts => ts.length

theorem laterItems_noLonger {d : Decoder α} {ts rest : List Token} {as : List α}
    (h : laterItems d ts = .ok (as, rest)) : rest.length ≤ ts.length := by
  fun_induction laterItems d ts generalizing as with
  | case1 => cases h; simp
  | case2 => cases h
  | case3 => cases h
  | case4 ts a rest item shorter as' rest' later ih =>
      cases h
      have := ih later
      have := d.noLonger item
      grind
  | case5 => cases h

def list (d : Decoder α) : Decoder (List α) where
  run
    | .openBracket :: .closeBracket :: rest => .ok ([], rest)
    | .openBracket :: ts => match d.run ts with
      | .error e => .error e
      | .ok (a, rest) => match laterItems d rest with
        | .error e => .error e
        | .ok (as, rest) => .ok (a :: as, rest)
    | _ => .error .malformed
  noLonger {ts as rest} h := by
    split at h
    next => cases h; simp; omega
    next =>
      split at h
      next => cases h
      next item =>
        split at h
        next => cases h
        next later =>
          cases h
          have := laterItems_noLonger later
          have := d.noLonger item
          grind
    next => cases h

/-- The fields of an object after one of them, up to the closing brace. What has been gathered from
the fields so far and the key of a field decide how its value is read. -/
def laterFields (field : σ → String → Decoder σ) (s : σ) :
    List Token → Except DecodeError (σ × List Token)
  | .closeBrace :: rest => .ok (s, rest)
  | .comma :: .string key :: .colon :: ts =>
      match value : (field s key).run ts with
      | .error e => .error e
      | .ok (s, rest) =>
          have := (field _ key).noLonger value
          laterFields field s rest
  | _ => .error .malformed
termination_by ts => ts.length

theorem laterFields_noLonger {field : σ → String → Decoder σ} {s t : σ} {ts rest : List Token}
    (h : laterFields field s ts = .ok (t, rest)) : rest.length ≤ ts.length := by
  fun_induction laterFields field s ts with
  | case1 => cases h; simp
  | case2 => cases h
  | case3 s key ts s' rest' value shorter ih =>
      have := ih h
      grind
  | case4 => cases h

def object (field : σ → String → Decoder σ) (start : σ) : Decoder σ where
  run
    | .openBrace :: .closeBrace :: rest => .ok (start, rest)
    | .openBrace :: .string key :: .colon :: ts => match (field start key).run ts with
      | .error e => .error e
      | .ok (s, rest) => laterFields field s rest
    | _ => .error .malformed
  noLonger {ts s rest} h := by
    split at h
    next => cases h; simp; omega
    next =>
      split at h
      next => cases h
      next value =>
        have := laterFields_noLonger h
        have := (field _ _).noLonger value
        grind
    next => cases h

/-- A bracket that is still open while a value is passed over. -/
inductive Bracket where
  | curly
  | square

def Bracket.closing : Bracket → Token
  | .curly => .closeBrace
  | .square => .closeBracket

mutual
/-- Passes over one value, then over what is left of the brackets around it. -/
def skipValue (around : List Bracket) : List Token → Except DecodeError (List Token)
  | .openBrace :: .closeBrace :: rest => skipRest around rest
  | .openBrace :: .string _ :: .colon :: rest => skipValue (.curly :: around) rest
  | .openBrace :: .unpaired _ :: .colon :: rest => skipValue (.curly :: around) rest
  | .openBracket :: .closeBracket :: rest => skipRest around rest
  | .openBracket :: rest => skipValue (.square :: around) rest
  | .null :: rest => skipRest around rest
  | .bool _ :: rest => skipRest around rest
  | .integer _ :: rest => skipRest around rest
  | .number _ :: rest => skipRest around rest
  | .string _ :: rest => skipRest around rest
  | .unpaired _ :: rest => skipRest around rest
  | _ => .error .malformed
termination_by ts => 2 * ts.length

/-- After a value: passes over what is left of the brackets around it, innermost first. -/
def skipRest : List Bracket → List Token → Except DecodeError (List Token)
  | [], ts => .ok ts
  | .curly :: around, .closeBrace :: rest => skipRest around rest
  | .curly :: around, .comma :: .string _ :: .colon :: rest => skipValue (.curly :: around) rest
  | .curly :: around, .comma :: .unpaired _ :: .colon :: rest => skipValue (.curly :: around) rest
  | .square :: around, .closeBracket :: rest => skipRest around rest
  | .square :: around, .comma :: rest => skipValue (.square :: around) rest
  | _, _ => .error .malformed
termination_by _ ts => 2 * ts.length + 1
end

mutual
theorem skipValue_noLonger {around : List Bracket} {ts rest : List Token}
    (h : skipValue around ts = .ok rest) : rest.length ≤ ts.length := by
  unfold skipValue at h
  split at h
  case h_3 | h_2 | h_5 => have := skipValue_noLonger h; grind
  case h_12 => cases h
  all_goals have := skipRest_noLonger h; grind
termination_by 2 * ts.length

theorem skipRest_noLonger {around : List Bracket} {ts rest : List Token}
    (h : skipRest around ts = .ok rest) : rest.length ≤ ts.length := by
  unfold skipRest at h
  split at h
  case h_1 => cases h; simp
  case h_2 | h_5 => have := skipRest_noLonger h; grind
  case h_7 => cases h
  all_goals have := skipValue_noLonger h; grind
termination_by 2 * ts.length + 1
end

def skip : Decoder Unit where
  run ts := match skipValue [] ts with
    | .error e => .error e
    | .ok rest => .ok ((), rest)
  noLonger {ts a rest} h := by
    split at h
    next => cases h
    next skipped => cases h; exact skipValue_noLonger skipped

/-- Reads a whole text; nothing but blanks may follow the value. -/
def runText (d : Decoder α) (text : String) : Except DecodeError α :=
  match d.run (tokens text) with
  | .error e => .error e
  | .ok (a, []) => .ok a
  | .ok (_, _ :: _) => .error .malformed

end Decoder

end AbstractStore.Json
