import AbstractStore.Json.Codec
import AbstractStore.Proofs.Json.Spelling
import Mathlib.Data.List.Forall2

/-! Codecs that read back what they write.
A codec is faithful when its decoder takes what it has written off the front of any tokens, and
what it writes is legible. The codecs that are put together of faithful ones are faithful, so a
value that is written as a text is read back from it (`Codec.Faithful.readsBack`). -/

namespace AbstractStore.Json

open Std

section Legible

variable {t : Token} {ts us : List Token}

theorem legible_singleton (plain : t.isPlain) : Legible [t] where
  plain u inside := by rwa [List.mem_singleton.1 inside]
  apart := List.isChain_singleton t

theorem legible_append_cons (left : Legible ts) (right : Legible us) (plain : t.isPlain)
    (notInteger : t.isInteger = false) : Legible (ts ++ t :: us) where
  plain u inside := by
    rcases List.mem_append.1 inside with before | inside
    · exact left.plain u before
    rcases List.mem_cons.1 inside with rfl | after
    · exact plain
    · exact right.plain u after
  apart := by
    refine left.apart.append (List.isChain_cons.2 ⟨fun u _ integer => ?_, right.apart⟩) ?_
    · rw [notInteger] at integer
      cases integer
    · intro u _ v first _
      cases first
      exact notInteger

theorem Legible.cons (legible : Legible ts) (plain : t.isPlain) (notInteger : t.isInteger = false) :
    Legible (t :: ts) :=
  legible_append_cons ⟨List.forall_mem_nil _, .nil⟩ legible plain notInteger

theorem commas_cons (part : List Token) (parts : List (List Token)) :
    commas (part :: parts) = part ++ parts.flatMap (.comma :: ·) := by
  induction parts generalizing part with
  | nil => simp [commas, List.intercalate]
  | cons next parts ih =>
    have split : commas (part :: next :: parts) = part ++ .comma :: commas (next :: parts) := by
      simp [commas, List.intercalate]
    rw [split, ih]
    rfl

theorem legible_commas {parts : List (List Token)} (each : ∀ part ∈ parts, Legible part) :
    Legible (commas parts) := by
  cases parts with
  | nil => exact ⟨List.forall_mem_nil _, .nil⟩
  | cons part parts =>
    rw [commas_cons]
    obtain ⟨first, later⟩ := List.forall_mem_cons.1 each
    clear each
    induction parts generalizing part with
    | nil => simpa using first
    | cons next parts ih =>
      obtain ⟨second, later⟩ := List.forall_mem_cons.1 later
      exact legible_append_cons first (ih next second later) rfl rfl

theorem legible_listTokens {items : List (List Token)} (each : ∀ item ∈ items, Legible item) :
    Legible (listTokens items) :=
  (legible_append_cons (legible_commas each) ⟨List.forall_mem_nil _, .nil⟩ rfl rfl).cons rfl rfl

theorem legible_fieldTokens {f : Field} (legible : Legible f.2) : Legible (fieldTokens f) :=
  (legible.cons rfl rfl).cons rfl rfl

theorem legible_objectTokens {fields : List Field} (each : ∀ f ∈ fields, Legible f.2) :
    Legible (objectTokens fields) := by
  have parts : ∀ part ∈ fields.map fieldTokens, Legible part :=
    List.forall_mem_map.2 fun f inside => legible_fieldTokens (each f inside)
  exact (legible_append_cons (legible_commas parts) ⟨List.forall_mem_nil _, .nil⟩ rfl rfl).cons
    rfl rfl

end Legible

namespace Decoder

variable {α β σ : Type}

theorem run_token {test : Token → Option α} {t : Token} {a : α} (known : test t = some a)
    (rest : List Token) : (token test).run (t :: rest) = .ok (a, rest) := by
  simp [token, known]

/-- The tokens are read as the value, whatever stands behind them. -/
def Reads (d : Decoder α) (v : List Token) (a : α) : Prop :=
  ∀ rest, d.run (v ++ rest) = .ok (a, rest)

section List

variable {d : Decoder α} {items : List (List Token)} {as : List α}

theorem laterItems_commas (reads : List.Forall₂ d.Reads items as) (rest : List Token) :
    laterItems d (items.flatMap (.comma :: ·) ++ .closeBracket :: rest) = .ok (as, rest) := by
  induction reads with
  | nil => simp [laterItems]
  | @cons item a items as first _ ih =>
    have split : (item :: items).flatMap (.comma :: ·) ++ .closeBracket :: rest =
        .comma :: (item ++ (items.flatMap (.comma :: ·) ++ .closeBracket :: rest)) := by
      simp
    rw [split, laterItems]
    split
    next e failed => cases (first _).symm.trans failed
    next b after read =>
      cases (first _).symm.trans read
      simp only [ih]

/-- A list that does not end at once has a first item. -/
theorem run_list_of_begins {t : Token} (notClosed : t ≠ .closeBracket) (ts : List Token) :
    d.list.run (.openBracket :: t :: ts) = match d.run (t :: ts) with
      | .error e => .error e
      | .ok (a, rest) => match laterItems d rest with
        | .error e => .error e
        | .ok (as, rest) => .ok (a :: as, rest) := by
  cases t with
  | closeBracket => exact absurd rfl notClosed
  | _ => rfl

theorem run_list (reads : List.Forall₂ d.Reads items as)
    (opens : ∀ item ∈ items, ∃ t ts, item = t :: ts ∧ t ≠ .closeBracket) (rest : List Token) :
    d.list.run (listTokens items ++ rest) = .ok (as, rest) := by
  cases reads with
  | nil => rfl
  | @cons item a items as first others =>
    let later := items.flatMap (.comma :: ·) ++ .closeBracket :: rest
    have split : listTokens (item :: items) ++ rest = .openBracket :: (item ++ later) := by
      simp [listTokens, commas_cons, later]
    have read : d.run (item ++ later) = .ok (a, later) := first later
    obtain ⟨t, ts, begun, notClosed⟩ := opens item (List.mem_cons_self ..)
    rw [begun, List.cons_append] at read
    rw [split, begun, List.cons_append, run_list_of_begins notClosed, read]
    simp only [later, laterItems_commas others]

end List

/-- The fields are read one after the other, from one state of what has been gathered to the next. -/
inductive Feeds (field : σ → String → Decoder σ) : σ → List Field → σ → Prop where
  | nil (s : σ) : Feeds field s [] s
  | cons {s t u : σ} {key : String} {value : List Token} {later : List Field}
      (first : ∀ rest, (field s key).run (value ++ rest) = .ok (t, rest))
      (others : Feeds field t later u) : Feeds field s ((key, value) :: later) u

theorem Feeds.laterFields_commas {field : σ → String → Decoder σ} {s t : σ} {fields : List Field}
    (feeds : Feeds field s fields t) (rest : List Token) :
    laterFields field s ((fields.map fieldTokens).flatMap (.comma :: ·) ++ .closeBrace :: rest) =
      .ok (t, rest) := by
  induction feeds with
  | nil s => simp [laterFields]
  | @cons s t u key value later first others ih =>
    have split : (((key, value) :: later).map fieldTokens).flatMap (.comma :: ·) ++
        .closeBrace :: rest = .comma :: .string key :: .colon :: (value ++
          ((later.map fieldTokens).flatMap (.comma :: ·) ++ .closeBrace :: rest)) := by
      simp [fieldTokens]
    rw [split, laterFields]
    split
    next e failed => cases (first _).symm.trans failed
    next b after read =>
      cases (first _).symm.trans read
      exact ih

theorem Feeds.run_object {field : σ → String → Decoder σ} {s t : σ} {fields : List Field}
    (feeds : Feeds field s fields t) (rest : List Token) :
    (object field s).run (objectTokens fields ++ rest) = .ok (t, rest) := by
  cases feeds with
  | nil => rfl
  | @cons _ t u key value later first others =>
    have split : objectTokens ((key, value) :: later) ++ rest =
        .openBrace :: .string key :: .colon :: (value ++
          ((later.map fieldTokens).flatMap (.comma :: ·) ++ .closeBrace :: rest)) := by
      simp [objectTokens, commas_cons, fieldTokens]
    rw [split]
    simp only [object, first]
    exact others.laterFields_commas rest

end Decoder

namespace Fields

variable {α β : Type} {f : Fields α} {g : Fields β}

/-- The fields are known ones, and are read into the slots one after the other. -/
inductive Takes (f : Fields α) : f.Slots → List Field → f.Slots → Prop where
  | nil (s : f.Slots) : Takes f s [] s
  | cons {s t u : f.Slots} {key : String} {value : List Token} {later : List Field}
      {d : Decoder f.Slots} (known : f.fill s key = some d)
      (first : ∀ rest, d.run (value ++ rest) = .ok (t, rest)) (others : Takes f t later u) :
      Takes f s ((key, value) :: later) u

theorem Takes.append {s t u : f.Slots} {fields later : List Field} (first : f.Takes s fields t)
    (others : f.Takes t later u) : f.Takes s (fields ++ later) u := by
  induction first with
  | nil => exact others
  | cons known reads _ ih => exact .cons known reads (ih others)

theorem Takes.left {s t : f.Slots} {fields : List Field} (takes : f.Takes s fields t)
    (slots : g.Slots) : (f.and g).Takes (s, slots) fields (t, slots) := by
  induction takes with
  | nil => exact .nil _
  | @cons s t u key value later d known reads _ ih =>
    have both : (f.and g).fill (s, slots) key = some do return (← d, slots) := by
      simp only [Fields.and, known]
    exact .cons both (fun rest => by simp [reads]; rfl) ih

theorem Takes.right {s t : g.Slots} {fields : List Field} (takes : g.Takes s fields t)
    (slots : f.Slots) (apart : ∀ x ∈ fields, f.fill slots x.1 = none) :
    (f.and g).Takes (slots, s) fields (slots, t) := by
  induction takes with
  | nil => exact .nil _
  | @cons s t u key value later d known reads _ ih =>
    obtain ⟨first, others⟩ := List.forall_mem_cons.1 apart
    have both : (f.and g).fill (slots, s) key = some do return (slots, ← d) := by
      simp only [Fields.and, first, known]
    exact .cons both (fun rest => by simp [reads]; rfl) (ih others)

/-- How a field is read while an object is: one that is not known is passed over. -/
def readField (f : Fields α) (slots : f.Slots) (key : String) : Decoder f.Slots :=
  match f.fill slots key with
  | some d => d
  | none => do
      Decoder.skip
      return slots

theorem ofObject_eq (f : Fields α) : f.ofObject =
    Decoder.object f.readField f.blank >>= fun slots => match f.finish slots with
      | some a => pure a
      | none => Decoder.fail .malformed := rfl

theorem ofObject_run {slots : f.Slots} {a : α} {ts rest : List Token}
    (read : (Decoder.object f.readField f.blank).run ts = .ok (slots, rest))
    (finished : f.finish slots = some a) : f.ofObject.run ts = .ok (a, rest) := by
  simp only [ofObject_eq, Decoder.run_bind, read, finished, Decoder.run_pure]

theorem Takes.feeds {s t : f.Slots} {fields : List Field} (takes : f.Takes s fields t) :
    Decoder.Feeds f.readField s fields t := by
  induction takes with
  | nil s => exact .nil s
  | cons known reads _ ih => exact .cons (fun rest => by rw [readField, known, reads]) ih

/-- The fields of a structure with the given names, each of which is read as it is written. -/
structure Faithful (f : Fields α) (names : List String) : Prop where
  reads : ∀ a, ∃ slots, f.Takes f.blank (f.encode a) slots ∧ f.finish slots = some a
  misses : ∀ slots key, key ∉ names → f.fill slots key = none
  named : ∀ a, ∀ x ∈ f.encode a, x.1 ∈ names
  legible : ∀ a, ∀ x ∈ f.encode a, Legible x.2

theorem Faithful.and {names more : List String} (first : f.Faithful names)
    (second : g.Faithful more) (apart : ∀ name ∈ more, name ∉ names) :
    (f.and g).Faithful (names ++ more) where
  reads p := by
    obtain ⟨slots, taken, finished⟩ := first.reads p.1
    obtain ⟨slots', taken', finished'⟩ := second.reads p.2
    have missed : ∀ x ∈ g.encode p.2, f.fill slots x.1 = none := fun x inside =>
      first.misses slots x.1 (apart x.1 (second.named p.2 x inside))
    refine ⟨(slots, slots'), (taken.left g.blank).append (taken'.right slots missed), ?_⟩
    simp [Fields.and, finished, finished']
  misses slots key unknown := by
    obtain ⟨left, right⟩ := not_or.1 fun inside => unknown (List.mem_append.2 inside)
    simp only [Fields.and, first.misses slots.1 key left, second.misses slots.2 key right]
  named p x inside := List.mem_append.2
    ((List.mem_append.1 inside).imp (first.named p.1 x) (second.named p.2 x))
  legible p x inside :=
    (List.mem_append.1 inside).elim (first.legible p.1 x) (second.legible p.2 x)

theorem Faithful.decode_run {names : List String} (faithful : f.Faithful names) (a : α)
    (rest : List Token) : f.decode.run (objectTokens (f.encode a) ++ rest) = .ok (a, rest) := by
  obtain ⟨slots, taken, finished⟩ := faithful.reads a
  have byObject : f.decode.run (objectTokens (f.encode a) ++ rest) =
      f.ofObject.run (objectTokens (f.encode a) ++ rest) := rfl
  rw [byObject, ofObject_run (taken.feeds.run_object rest) finished]

end Fields

namespace Shape

variable {α : Type} {shapes : String → Option (Shape α)} {a : α} {ts : List Token}

/-- Tokens that one of the shapes is written with, for a value that has it. -/
inductive Writes (shapes : String → Option (Shape α)) (a : α) : List Token → Prop where
  | bare {name : String} (known : shapes name = some (.bare a)) : Writes shapes a (bareTokens name)
  | holding {name : String} {contents : Decoder α} {ts : List Token}
      (known : shapes name = some (.holding contents))
      (reads : ∀ rest, contents.run (ts ++ rest) = .ok (a, rest)) (legible : Legible ts) :
      Writes shapes a (holdingTokens name ts)

namespace Writes

theorem reads (writes : Writes shapes a ts) (rest : List Token) :
    (decode shapes).run (ts ++ rest) = .ok (a, rest) := by
  cases writes with
  | bare known => simp [decode, bareTokens, known]
  | @holding name contents ts known reads legible =>
    have split : holdingTokens name ts ++ rest =
        .openBrace :: .string name :: .colon :: (ts ++ .closeBrace :: rest) := by
      simp [holdingTokens, objectTokens, commas_cons, fieldTokens]
    rw [split]
    simp [decode, known, reads]

theorem legible (writes : Writes shapes a ts) : Legible ts := by
  cases writes with
  | bare known => exact legible_singleton rfl
  | holding known reads legible =>
    exact legible_objectTokens (List.forall_mem_singleton.2 legible)

theorem opens (writes : Writes shapes a ts) : ∃ t later, ts = t :: later ∧ t ≠ .closeBracket := by
  cases writes with
  | bare known => exact ⟨_, _, rfl, nofun⟩
  | holding known reads legible => exact ⟨_, _, rfl, nofun⟩

end Writes

end Shape

namespace Codec

variable {α β γ κ : Type}

structure Faithful (c : Codec α) : Prop where
  reads : ∀ a rest, c.decode.run (c.encode a ++ rest) = .ok (a, rest)
  legible : ∀ a, Legible (c.encode a)
  opens : ∀ a, ∃ t ts, c.encode a = t :: ts ∧ t ≠ .closeBracket

/-- Each value is read from the text that it is written as. -/
def ReadsBack (c : Codec α) : Prop := ∀ a, c.ofText (c.toText a) = .ok a

theorem Faithful.readsBack {c : Codec α} (faithful : c.Faithful) : c.ReadsBack := by
  intro a
  have read := faithful.reads a []
  rw [List.append_nil] at read
  rw [ofText, toText, Decoder.runText, tokens_compact (faithful.legible a), read]

namespace Faithful

variable {c : Codec α} {d : Codec β}

theorem of_shapes {shapes : String → Option (Shape α)} {encode : α → List Token}
    (writes : ∀ a, Shape.Writes shapes a (encode a)) :
    Faithful { encode, decode := Shape.decode shapes } where
  reads a := (writes a).reads
  legible a := (writes a).legible
  opens a := (writes a).opens

/-- A shape that holds what a codec writes. -/
theorem holding (faithful : c.Faithful) {shapes : String → Option (Shape β)} {name : String}
    {pack : α → β} (known : shapes name = some (.holding do return pack (← c.decode))) (a : α) :
    Shape.Writes shapes (pack a) (Shape.holdingTokens name (c.encode a)) :=
  .holding known (fun rest => by simp [faithful.reads]) (faithful.legible a)

theorem via (faithful : c.Faithful) {pack : α → β} {unpack : β → α}
    (same : ∀ b, pack (unpack b) = b) : (c.via pack unpack).Faithful where
  reads b rest := by simp [Codec.via, faithful.reads, same]
  legible b := faithful.legible (unpack b)
  opens b := faithful.opens (unpack b)

theorem refine (faithful : c.Faithful) {pack : α → Except String β} {unpack : β → α}
    (same : ∀ b, pack (unpack b) = .ok b) : (c.refine pack unpack).Faithful where
  reads b rest := by simp [Codec.refine, faithful.reads, same]
  legible b := faithful.legible (unpack b)
  opens b := faithful.opens (unpack b)

/-- A codec that writes each value as one token. -/
theorem of_token {test : Token → Option α} {write : α → Token}
    (known : ∀ a, test (write a) = some a) (plain : ∀ a, (write a).isPlain)
    (notClosed : ∀ a, write a ≠ .closeBracket) :
    Faithful { encode := fun a => [write a], decode := Decoder.token test } where
  reads a rest := Decoder.run_token (known a) rest
  legible a := legible_singleton (plain a)
  opens a := ⟨write a, [], rfl, notClosed a⟩

theorem bool : Codec.bool.Faithful := of_token (fun _ => rfl) (fun _ => rfl) nofun

theorem string : Codec.string.Faithful := of_token (fun _ => rfl) (fun _ => rfl) nofun

theorem uint64 : Codec.uint64.Faithful := by
  refine of_token (fun n => ?_) (fun _ => rfl) nofun
  have inRange : 0 ≤ (n.toNat : Int) ∧ (n.toNat : Int).toNat < UInt64.size :=
    ⟨Int.natCast_nonneg _, n.toNat_lt_size⟩
  exact (if_pos inRange).trans (by rw [Int.toNat_natCast, UInt64.ofNat_toNat])

theorem int64 : Codec.int64.Faithful := by
  refine of_token (fun n => ?_) (fun _ => rfl) nofun
  have inRange : Int64.minValue.toInt ≤ n.toInt ∧ n.toInt ≤ Int64.maxValue.toInt :=
    ⟨Int64.minValue_le_toInt n, Int64.toInt_le n⟩
  exact (if_pos inRange).trans (by rw [Int64.ofInt_toInt])

theorem list (faithful : c.Faithful) : c.list.Faithful where
  reads as rest := by
    have each : List.Forall₂ c.decode.Reads (as.map c.encode) as :=
      List.forall₂_map_left_iff.2 (List.forall₂_same.2 fun a _ => faithful.reads a)
    exact Decoder.run_list each (List.forall_mem_map.2 fun a _ => faithful.opens a) rest
  legible _ := legible_listTokens (List.forall_mem_map.2 fun a _ => faithful.legible a)
  opens _ := ⟨.openBracket, _, rfl, nofun⟩

theorem pair (first : c.Faithful) (second : d.Faithful) : (c.pair d).Faithful where
  reads p rest := by
    have split : (c.pair d).encode p ++ rest = .openBracket :: (c.encode p.1 ++ .comma ::
        (d.encode p.2 ++ .closeBracket :: rest)) := by
      simp [Codec.pair, listTokens, commas_cons]
    rw [split]
    simp [Codec.pair, first.reads, second.reads]
  legible p := legible_listTokens (List.forall_mem_cons.2 ⟨first.legible p.1,
    List.forall_mem_singleton.2 (second.legible p.2)⟩)
  opens _ := ⟨.openBracket, _, rfl, nofun⟩

theorem set [Ord α] [TransOrd α] [LawfulEqOrd α] (faithful : c.Faithful) : c.set.Faithful :=
  faithful.list.via AscSet.ofList_toList

theorem entries [Ord α] [TransOrd α] [LawfulEqOrd α] (first : c.Faithful) (second : d.Faithful) :
    (c.entries d).Faithful :=
  (first.pair second).list.via AscMap.ofList_toList

theorem field (name : String) (faithful : c.Faithful) : (Fields.one name c).Faithful [name] where
  reads a := by
    refine ⟨some a, .cons (if_pos rfl) (fun rest => ?_) (.nil _), rfl⟩
    simp [Fields.one, faithful.reads]
  misses slots key unknown := if_neg fun same => unknown (List.mem_singleton.2 same)
  named a x inside := by
    rw [List.mem_singleton.1 inside]
    exact List.mem_singleton_self name
  legible a x inside := by
    rw [List.mem_singleton.1 inside]
    exact faithful.legible a

theorem keyed [Ord κ] [TransOrd κ] [LawfulEqOrd κ] {spell : κ → String} {read : String → κ}
    (same : ∀ k, read (spell k) = k) (faithful : c.Faithful) :
    (Codec.keyed spell read c).Faithful where
  reads m rest := by
    let field (m : AscMap κ α) (key : String) : Decoder (AscMap κ α) := do
      return m.insert (read key) (← c.decode)
    have feeds (l : List (κ × α)) (m : AscMap κ α) : Decoder.Feeds field m
        (l.map fun e => (spell e.1, c.encode e.2)) (l.foldl (fun m e => m.insert e.1 e.2) m) := by
      induction l generalizing m with
      | nil => exact .nil m
      | cons e l ih =>
        exact .cons (fun rest => by simp [field, faithful.reads, same]) (ih _)
    have fed := (feeds m.toList ∅).run_object rest
    have whole : m.toList.foldl (fun m e => m.insert e.1 e.2) ∅ = m := AscMap.ofList_toList m
    rw [whole] at fed
    exact fed
  legible m := legible_objectTokens (List.forall_mem_map.2 fun e _ => faithful.legible e.2)
  opens _ := ⟨.openBrace, _, rfl, nofun⟩

end Faithful

end Codec

theorem Fields.Faithful.record {α : Type} {f : Fields α} {names : List String}
    (faithful : f.Faithful names) : (Codec.record f).Faithful where
  reads := faithful.decode_run
  legible a := legible_objectTokens (faithful.legible a)
  opens _ := ⟨.openBrace, _, rfl, nofun⟩

end AbstractStore.Json
