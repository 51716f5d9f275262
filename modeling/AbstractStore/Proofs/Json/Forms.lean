import AbstractStore.Proofs.Json.Grammar

/-! The forms that decoders read.
A decoder parses a form when it takes exactly the tokens of that form off the front, whatever stands
behind them, and finds all other tokens malformed (`Decoder.Parses`). The form of what is put
together is read off from the forms of its parts, so that what a text may look like can be told
without a run of the decoder. -/

namespace AbstractStore.Json

namespace Decoder

variable {α β σ : Type}

/-- Tokens of the form are read as the values that it gives them, and no others are read. -/
structure Parses (d : Decoder α) (form : List Token → α → Prop) : Prop where
  reads : ∀ {v a}, form v a → d.Reads v a
  front : ∀ {ts a rest}, d.run ts = .ok (a, rest) → ∃ v, ts = v ++ rest ∧ form v a
  plain : ∀ {ts e}, d.run ts = .error e → e = .malformed

/-- A decoder parses what it reads; it does not go by what stands behind. -/
def Regular (d : Decoder α) : Prop := d.Parses d.Reads

section Parses

variable {d : Decoder α} {form other : List Token → α → Prop} {ts v rest : List Token} {a b : α}

theorem Reads.unique (first : d.Reads v a) (second : d.Reads v b) : a = b := by
  cases (first []).symm.trans (second [])
  rfl

namespace Parses

theorem reads_iff (parses : d.Parses form) : d.Reads v a ↔ form v a := by
  refine ⟨fun read => ?_, parses.reads⟩
  obtain ⟨w, split, formed⟩ := parses.front (read [])
  rw [List.append_nil, List.append_nil] at split
  rwa [split]

theorem congr (parses : d.Parses form) (same : ∀ v a, form v a ↔ other v a) : d.Parses other where
  reads formed := parses.reads ((same _ _).2 formed)
  front read := by
    obtain ⟨v, split, formed⟩ := parses.front read
    exact ⟨v, split, (same v _).1 formed⟩
  plain := parses.plain

theorem regular (parses : d.Parses form) : d.Regular :=
  parses.congr fun _ _ => parses.reads_iff.symm

theorem runText_eq_ok_iff (parses : d.Parses form) {text : String} :
    d.runText text = .ok a ↔ form (tokens text) a := by
  rw [← parses.reads_iff]
  unfold runText
  constructor
  · intro read
    split at read
    next => cases read
    next found =>
      cases read
      obtain ⟨v, split, formed⟩ := parses.front found
      rw [split, List.append_nil]
      exact parses.reads formed
    next => cases read
  · intro reads
    have whole : d.run (tokens text) = .ok (a, []) := by simpa using reads []
    rw [whole]

theorem runText_eq_error (parses : d.Parses form) {text : String} {e : DecodeError}
    (failed : d.runText text = .error e) : e = .malformed := by
  unfold runText at failed
  split at failed
  next found =>
    cases failed
    exact parses.plain found
  next => cases failed
  next =>
    cases failed
    rfl

protected theorem pure (a : α) : (pure a : Decoder α).Parses fun v b => v = [] ∧ b = a where
  reads := by
    rintro v b ⟨rfl, rfl⟩ rest
    rfl
  front read := by
    cases read
    exact ⟨[], rfl, rfl, rfl⟩
  plain failed := nomatch failed

protected theorem fail : (fail .malformed : Decoder α).Parses fun _ _ => False where
  reads impossible := impossible.elim
  front read := nomatch read
  plain failed := by
    cases failed
    rfl

protected theorem bind (first : d.Parses form) {f : α → Decoder β}
    {next : α → List Token → β → Prop} (others : ∀ a, (f a).Parses (next a)) :
    (d >>= f).Parses fun v b => ∃ a v₁ v₂, v = v₁ ++ v₂ ∧ form v₁ a ∧ next a v₂ b where
  reads := by
    rintro v b ⟨a, v₁, v₂, rfl, formed, later⟩ rest
    rw [run_bind, List.append_assoc, first.reads formed]
    exact (others a).reads later rest
  front {ts b rest} read := by
    rw [run_bind] at read
    split at read
    next => cases read
    next a middle found =>
      obtain ⟨v₁, rfl, formed⟩ := first.front found
      obtain ⟨v₂, rfl, later⟩ := (others a).front read
      exact ⟨v₁ ++ v₂, (List.append_assoc ..).symm, a, v₁, v₂, rfl, formed, later⟩
  plain {ts e} failed := by
    rw [run_bind] at failed
    split at failed
    next e found =>
      cases failed
      exact first.plain found
    next a middle found => exact (others a).plain failed

protected theorem map (parses : d.Parses form) (g : α → β) :
    (d >>= fun a => pure (g a)).Parses fun v b => ∃ a, form v a ∧ b = g a := by
  refine (parses.bind fun a => Parses.pure (g a)).congr fun v b => ?_
  constructor
  · rintro ⟨a, v₁, v₂, rfl, formed, rfl, rfl⟩
    exact ⟨a, by rwa [List.append_nil], rfl⟩
  · rintro ⟨a, formed, rfl⟩
    exact ⟨a, v, [], (List.append_nil v).symm, formed, rfl, rfl⟩

protected theorem token (test : Token → Option α) :
    (token test).Parses fun v a => ∃ t, v = [t] ∧ test t = some a where
  reads := by
    rintro v a ⟨t, rfl, known⟩ rest
    exact run_token known rest
  front {ts a rest} read := by
    unfold token at read
    simp only at read
    split at read
    next => cases read
    next t rest =>
      split at read <;> cases read
      next known => exact ⟨[t], rfl, t, rfl, known⟩
  plain {ts e} failed := by
    unfold token at failed
    simp only at failed
    split at failed
    next =>
      cases failed
      rfl
    next =>
      split at failed <;> cases failed
      rfl

protected theorem exactly (t : Token) : (exactly t).Parses fun v _ => v = [t] := by
  refine (Parses.token _).congr fun v _ => ?_
  constructor
  · rintro ⟨u, rfl, known⟩
    rw [Option.ite_none_right_eq_some] at known
    rw [known.1]
  · rintro rfl
    exact ⟨t, rfl, if_pos rfl⟩

end Parses

protected theorem Parses.skip : skip.Parses fun v _ => IsValue v where
  reads value _ := run_skip_eq_ok_iff.2 ⟨_, rfl, value⟩
  front := run_skip_eq_ok_iff.1
  plain {ts e} failed := by
    have skipped : skipValue [] ts = .error e := by
      unfold skip at failed
      simp only at failed
      split at failed <;> cases failed
      assumption
    exact skipValue_eq_error skipped

end Parses

section Lists

variable {d : Decoder α} {form : List Token → α → Prop}

theorem exists_items_of_laterItems (parses : d.Parses form) {ts rest : List Token} {as : List α}
    (read : laterItems d ts = .ok (as, rest)) : ∃ items : List (List Token),
      ts = items.flatMap (.comma :: ·) ++ .closeBracket :: rest ∧ List.Forall₂ form items as := by
  fun_induction laterItems d ts generalizing as with
  | case1 =>
    cases read
    exact ⟨[], rfl, .nil⟩
  | case2 => cases read
  | case3 => cases read
  | case4 ts a rest' found shorter as' rest'' later ih =>
    cases read
    obtain ⟨v, rfl, formed⟩ := parses.front found
    obtain ⟨items, rfl, others⟩ := ih later
    exact ⟨v :: items, by simp, .cons formed others⟩
  | case5 => cases read

theorem laterItems_eq_error (parses : d.Parses form) {ts : List Token} {e : DecodeError}
    (failed : laterItems d ts = .error e) : e = .malformed := by
  fun_induction laterItems d ts with
  | case1 => cases failed
  | case2 ts e found =>
    cases failed
    exact parses.plain found
  | case3 ts a rest found shorter e' later ih =>
    cases failed
    exact ih later
  | case4 => cases failed
  | case5 =>
    cases failed
    rfl

protected theorem Parses.list (parses : d.Parses form) (values : ∀ v a, form v a → IsValue v) :
    d.list.Parses fun v as => ∃ items, v = listTokens items ∧ List.Forall₂ form items as where
  reads := by
    rintro v as ⟨items, rfl, each⟩ rest
    have items_values : ∀ item ∈ items, IsValue item :=
      ((List.forall₂_and_left _ _).1 (each.imp fun v a formed => ⟨values v a formed, formed⟩)).1
    exact run_list (each.imp fun _ _ => parses.reads)
      (fun _ inside => (items_values _ inside).opens) rest
  front {ts as rest} read := by
    unfold list at read
    simp only at read
    split at read
    next =>
      cases read
      exact ⟨_, rfl, [], rfl, .nil⟩
    next =>
      split at read
      next => cases read
      next found =>
        obtain ⟨v, rfl, formed⟩ := parses.front found
        split at read
        next => cases read
        next later =>
          cases read
          obtain ⟨items, rfl, others⟩ := exists_items_of_laterItems parses later
          refine ⟨listTokens (v :: items), ?_, _, rfl, .cons formed others⟩
          simp [listTokens, commas_cons]
    next => cases read
  plain {ts e} failed := by
    unfold list at failed
    simp only at failed
    split at failed
    next => cases failed
    next =>
      split at failed
      next e found =>
        cases failed
        exact parses.plain found
      next =>
        split at failed
        next e later =>
          cases failed
          exact laterItems_eq_error parses later
        next => cases failed
    next =>
      cases failed
      rfl

end Lists

section Objects

variable {field : σ → String → Decoder σ} {s t : σ} {ts rest : List Token}

theorem exists_fields_of_laterFields (regular : ∀ s key, (field s key).Regular)
    (read : laterFields field s ts = .ok (t, rest)) : ∃ fields : List Field,
      ts = (fields.map fieldTokens).flatMap (.comma :: ·) ++ .closeBrace :: rest ∧
        Feeds field s fields t := by
  fun_induction laterFields field s ts with
  | case1 =>
    cases read
    exact ⟨[], rfl, .nil _⟩
  | case2 => cases read
  | case3 s key ts s' rest' found shorter ih =>
    obtain ⟨v, rfl, reads⟩ := (regular s key).front found
    obtain ⟨fields, rfl, others⟩ := ih read
    exact ⟨(key, v) :: fields, by simp [fieldTokens], .cons reads others⟩
  | case4 => cases read

theorem laterFields_eq_error (regular : ∀ s key, (field s key).Regular) {e : DecodeError}
    (failed : laterFields field s ts = .error e) : e = .malformed := by
  fun_induction laterFields field s ts with
  | case1 => cases failed
  | case2 s key ts e found =>
    cases failed
    exact (regular s key).plain found
  | case3 s key ts s' rest' found shorter ih => exact ih failed
  | case4 =>
    cases failed
    rfl

protected theorem Parses.object (regular : ∀ s key, (field s key).Regular) (start : σ) :
    (object field start).Parses fun v t =>
      ∃ fields, v = objectTokens fields ∧ Feeds field start fields t where
  reads := by
    rintro v t ⟨fields, rfl, feeds⟩ rest
    exact feeds.run_object rest
  front {ts t rest} read := by
    unfold object at read
    simp only at read
    split at read
    next =>
      cases read
      exact ⟨_, rfl, [], rfl, .nil _⟩
    next key ts =>
      split at read
      next => cases read
      next found =>
        obtain ⟨v, rfl, first⟩ := (regular start key).front found
        obtain ⟨fields, rfl, others⟩ := exists_fields_of_laterFields regular read
        refine ⟨objectTokens ((key, v) :: fields), ?_, _, rfl, .cons first others⟩
        simp [objectTokens, commas_cons, fieldTokens]
    next => cases read
  plain {ts e} failed := by
    unfold object at failed
    simp only at failed
    split at failed
    next => cases failed
    next key ts =>
      split at failed
      next e found =>
        cases failed
        exact (regular start key).plain found
      next => exact laterFields_eq_error regular failed
    next =>
      cases failed
      rfl

end Objects

end Decoder

namespace Codec

open Std

variable {α β κ : Type} {c : Codec α} {d : Codec β} {v : List Token}

/-- The tokens are read as the value, whatever stands behind them. -/
abbrev Reads (c : Codec α) (v : List Token) (a : α) : Prop := c.decode.Reads v a

/-- What the codec reads are values of JSON, and it does not go by what stands behind them. -/
structure Regular (c : Codec α) : Prop where
  decode : c.decode.Regular
  value : ∀ {v a}, c.Reads v a → IsValue v

theorem Regular.ofText_eq_ok_iff (regular : c.Regular) {text : String} {a : α} :
    c.ofText text = .ok a ↔ c.Reads (tokens text) a := regular.decode.runText_eq_ok_iff

theorem Regular.ofText_eq_error (regular : c.Regular) {text : String} {e : DecodeError}
    (failed : c.ofText text = .error e) : e = .malformed := regular.decode.runText_eq_error failed

/-- Texts that are read as the same values give the same result, also where they are malformed. -/
theorem Regular.ofText_congr (regular : c.Regular) {text text' : String}
    (same : ∀ a, c.ofText text = .ok a ↔ c.ofText text' = .ok a) :
    c.ofText text = c.ofText text' := by
  cases read : c.ofText text with
  | ok a => exact ((same a).1 read).symm
  | error e =>
    cases read' : c.ofText text' with
    | ok a => cases read.symm.trans ((same a).2 read')
    | error e' => rw [regular.ofText_eq_error read, regular.ofText_eq_error read']

namespace Regular

theorem of_form {form : List Token → α → Prop} (parses : c.decode.Parses form)
    (value : ∀ v a, form v a → IsValue v) : c.Regular where
  decode := parses.regular
  value reads := value _ _ (parses.reads_iff.1 reads)

theorem of_token {test : Token → Option α} {encode : α → List Token}
    (scalar : ∀ t a, test t = some a → t.isScalar) :
    Regular { encode, decode := Decoder.token test } := by
  refine .of_form (.token test) ?_
  rintro v a ⟨t, rfl, known⟩
  exact .scalar (scalar t a known)

theorem bool : Codec.bool.Regular := of_token fun t a known => by
  cases t with
  | bool b => rfl
  | _ => cases known

theorem string : Codec.string.Regular := of_token fun t a known => by
  cases t with
  | string s => rfl
  | _ => cases known

theorem uint64 : Codec.uint64.Regular := of_token fun t a known => by
  cases t with
  | integer i => rfl
  | _ => cases known

theorem int64 : Codec.int64.Regular := of_token fun t a known => by
  cases t with
  | integer i => rfl
  | _ => cases known

end Regular

section Via

variable {pack : α → β} {unpack : β → α}

theorem reads_via_iff (regular : c.Regular) {b : β} :
    (c.via pack unpack).Reads v b ↔ ∃ a, c.Reads v a ∧ b = pack a :=
  (regular.decode.map pack).reads_iff

theorem Regular.via (regular : c.Regular) : (c.via pack unpack).Regular :=
  .of_form (regular.decode.map pack) fun _ _ ⟨_, reads, _⟩ => regular.value reads

end Via

section Refine

variable {pack : α → Except String β} {unpack : β → α} {text : String}

theorem run_refine (ts : List Token) :
    (c.refine pack unpack).decode.run ts = match c.decode.run ts with
      | .error e => .error e
      | .ok (a, rest) => match pack a with
        | .ok b => .ok (b, rest)
        | .error reason => .error (.refused reason) := by
  simp only [refine, Decoder.run_bind]
  rcases c.decode.run ts with e | ⟨a, rest⟩
  · rfl
  · cases packed : pack a <;> simp [packed]

theorem ofText_refine_eq_ok_iff {b : β} :
    (c.refine pack unpack).ofText text = .ok b ↔ ∃ a, c.ofText text = .ok a ∧ pack a = .ok b := by
  unfold ofText Decoder.runText
  rw [run_refine]
  rcases c.decode.run (tokens text) with e | ⟨a, _ | ⟨t, rest⟩⟩
  · simp
  · cases packed : pack a <;> simp [packed]
  · cases packed : pack a <;> simp [packed]

/-- A value is refused as soon as it has been read, whatever stands behind it. -/
theorem ofText_refine_eq_refused_iff (regular : c.Regular) {reason : String} :
    (c.refine pack unpack).ofText text = .error (.refused reason) ↔
      ∃ v rest a, tokens text = v ++ rest ∧ c.Reads v a ∧ pack a = .error reason := by
  have refused : (c.refine pack unpack).ofText text = .error (.refused reason) ↔
      ∃ a rest, c.decode.run (tokens text) = .ok (a, rest) ∧ pack a = .error reason := by
    unfold ofText Decoder.runText
    rw [run_refine]
    rcases found : c.decode.run (tokens text) with e | ⟨a, _ | ⟨t, rest⟩⟩
    · cases regular.decode.plain found
      simp
    · cases packed : pack a <;> simp [packed]
    · cases packed : pack a <;> simp [packed]
  rw [refused]
  constructor
  · rintro ⟨a, rest, found, packed⟩
    obtain ⟨v, split, reads⟩ := regular.decode.front found
    exact ⟨v, rest, a, split, reads, packed⟩
  · rintro ⟨v, rest, a, split, reads, packed⟩
    exact ⟨a, rest, split ▸ reads rest, packed⟩

theorem ofText_refine_eq_error (regular : c.Regular) {e : DecodeError}
    (failed : (c.refine pack unpack).ofText text = .error e) :
    e = .malformed ∨ ∃ a reason, pack a = .error reason ∧ e = .refused reason := by
  unfold ofText Decoder.runText at failed
  rw [run_refine] at failed
  rcases found : c.decode.run (tokens text) with e' | ⟨a, rest⟩
  · rw [found] at failed
    cases failed
    exact .inl (regular.decode.plain found)
  · rw [found] at failed
    cases packed : pack a with
    | error reason =>
      simp only [packed] at failed
      cases failed
      exact .inr ⟨a, reason, packed, rfl⟩
    | ok b =>
      simp only [packed] at failed
      cases rest <;> cases failed
      exact .inl rfl

end Refine

theorem Regular.parses_list (regular : c.Regular) : c.list.decode.Parses fun v as =>
    ∃ items, v = listTokens items ∧ List.Forall₂ c.Reads items as :=
  .list regular.decode fun _ _ => regular.value

theorem reads_list_iff (regular : c.Regular) {as : List α} : c.list.Reads v as ↔
    ∃ items, v = listTokens items ∧ List.Forall₂ c.Reads items as :=
  regular.parses_list.reads_iff

/-- The items of a list are values. -/
theorem Regular.values (regular : c.Regular) {items : List (List Token)} {as : List α}
    (each : List.Forall₂ c.Reads items as) : ∀ item ∈ items, IsValue item :=
  ((List.forall₂_and_left _ _).1 (each.imp fun _ _ reads => ⟨regular.value reads, reads⟩)).1

theorem Regular.list (regular : c.Regular) : c.list.Regular := by
  refine .of_form regular.parses_list ?_
  rintro v as ⟨items, rfl, each⟩
  exact .list (regular.values each)

theorem Regular.parses_pair (first : c.Regular) (second : d.Regular) :
    (c.pair d).decode.Parses fun v p =>
      ∃ x y, v = listTokens [x, y] ∧ c.Reads x p.1 ∧ d.Reads y p.2 := by
  refine ((Decoder.Parses.exactly _).bind fun _ => first.decode.bind fun a =>
    (Decoder.Parses.exactly _).bind fun _ => second.decode.bind fun b =>
      (Decoder.Parses.exactly _).bind fun _ => .pure (a, b)).congr fun v p => ?_
  constructor
  · rintro ⟨-, _, _, rfl, rfl, a, x, _, rfl, reads, -, _, _, rfl, rfl, b, y, _, rfl, reads', -, _,
      _, rfl, rfl, rfl, rfl⟩
    exact ⟨x, y, by simp [listTokens, commas_cons], reads, reads'⟩
  · rintro ⟨x, y, rfl, reads, reads'⟩
    exact ⟨(), _, _, by simp [listTokens, commas_cons], rfl, p.1, x, _, rfl, reads, (), _, _,
      rfl, rfl, p.2, y, _, rfl, reads', (), _, _, rfl, rfl, rfl, rfl⟩

theorem reads_pair_iff (first : c.Regular) (second : d.Regular) {p : α × β} :
    (c.pair d).Reads v p ↔ ∃ x y, v = listTokens [x, y] ∧ c.Reads x p.1 ∧ d.Reads y p.2 :=
  (first.parses_pair second).reads_iff

theorem Regular.pair (first : c.Regular) (second : d.Regular) : (c.pair d).Regular := by
  refine .of_form (first.parses_pair second) ?_
  rintro v p ⟨x, y, rfl, reads, reads'⟩
  exact .list (List.forall_mem_cons.2 ⟨first.value reads,
    List.forall_mem_singleton.2 (second.value reads')⟩)

section Ordered

variable [Ord α] [TransOrd α] [LawfulEqOrd α] [Ord κ] [TransOrd κ] [LawfulEqOrd κ]

theorem Regular.set (regular : c.Regular) : c.set.Regular := regular.list.via

theorem reads_set_iff (regular : c.Regular) {s : AscSet α} : c.set.Reads v s ↔
    ∃ items as, v = listTokens items ∧ List.Forall₂ c.Reads items as ∧ s = .ofList as := by
  refine (reads_via_iff regular.list).trans ?_
  simp only [reads_list_iff regular]
  constructor
  · rintro ⟨as, ⟨items, rfl, each⟩, rfl⟩
    exact ⟨items, as, rfl, each, rfl⟩
  · rintro ⟨items, as, rfl, each, rfl⟩
    exact ⟨as, ⟨items, rfl, each⟩, rfl⟩

theorem Regular.entries {k : Codec κ} (keys : k.Regular) (values : d.Regular) :
    (k.entries d).Regular := (keys.pair values).list.via

theorem reads_entries_iff {k : Codec κ} (keys : k.Regular) (values : d.Regular)
    {m : AscMap κ β} : (k.entries d).Reads v m ↔ ∃ items l, v = listTokens items ∧
      List.Forall₂ (k.pair d).Reads items l ∧ m = .ofList l := by
  refine (reads_via_iff (keys.pair values).list).trans ?_
  simp only [reads_list_iff (keys.pair values)]
  constructor
  · rintro ⟨l, ⟨items, rfl, each⟩, rfl⟩
    exact ⟨items, l, rfl, each, rfl⟩
  · rintro ⟨items, l, rfl, each, rfl⟩
    exact ⟨l, ⟨items, rfl, each⟩, rfl⟩

/-- A field of an object is read as an entry of a map. -/
def ReadsEntry (read : String → κ) (d : Codec β) (f : Field) (e : κ × β) : Prop :=
  e.1 = read f.1 ∧ d.Reads f.2 e.2

section Keyed

variable {spell : κ → String} {read : String → κ}

theorem feeds_keyed_iff (regular : d.Regular) {fields : List Field} {m m' : AscMap κ β} :
    Decoder.Feeds (fun m key => do return m.insert (read key) (← d.decode)) m fields m' ↔
      ∃ l, List.Forall₂ (ReadsEntry read d) fields l ∧
        m' = l.foldl (fun m e => m.insert e.1 e.2) m := by
  constructor
  · intro feeds
    induction feeds with
    | nil => exact ⟨[], .nil, rfl⟩
    | @cons m t u key value later first others ih =>
      obtain ⟨b, reads, rfl⟩ :=
        (regular.decode.map fun b => m.insert (read key) b).reads_iff.1 first
      obtain ⟨l, each, rfl⟩ := ih
      exact ⟨(read key, b) :: l, .cons ⟨rfl, reads⟩ each, rfl⟩
  · rintro ⟨l, each, rfl⟩
    induction each generalizing m with
    | nil => exact .nil m
    | @cons f e fields l first others ih =>
      obtain ⟨key, value⟩ := f
      obtain ⟨k, b⟩ := e
      obtain ⟨rfl, reads⟩ : k = read key ∧ d.Reads value b := first
      exact .cons ((regular.decode.map fun b => m.insert (read key) b).reads ⟨b, reads, rfl⟩) ih

theorem Regular.parses_keyed (regular : d.Regular) :
    (Codec.keyed spell read d).decode.Parses fun v m => ∃ fields l, v = objectTokens fields ∧
      List.Forall₂ (ReadsEntry read d) fields l ∧ m = .ofList l := by
  have each (m : AscMap κ β) (key : String) : Decoder.Regular
      (do return m.insert (read key) (← d.decode) : Decoder (AscMap κ β)) :=
    (regular.decode.map fun b => m.insert (read key) b).regular
  refine (Decoder.Parses.object each ∅).congr fun v m => ?_
  simp only [feeds_keyed_iff regular]
  constructor
  · rintro ⟨fields, rfl, l, reads, rfl⟩
    exact ⟨fields, l, rfl, reads, rfl⟩
  · rintro ⟨fields, l, rfl, reads, rfl⟩
    exact ⟨fields, rfl, l, reads, rfl⟩

theorem reads_keyed_iff (regular : d.Regular) {m : AscMap κ β} :
    (Codec.keyed spell read d).Reads v m ↔ ∃ fields l, v = objectTokens fields ∧
      List.Forall₂ (ReadsEntry read d) fields l ∧ m = .ofList l :=
  regular.parses_keyed.reads_iff

theorem Regular.keyed (regular : d.Regular) : (Codec.keyed spell read d).Regular := by
  refine .of_form regular.parses_keyed ?_
  rintro v m ⟨fields, l, rfl, each, -⟩
  exact .object_fields
    ((List.forall₂_and_left _ _).1 (each.imp fun f e reads => ⟨regular.value reads.2, reads⟩)).1

end Keyed

end Ordered

end Codec

end AbstractStore.Json
