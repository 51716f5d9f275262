import AbstractStore.Proofs.Json.Forms
import AbstractStore.Proofs.Json.Views
import Mathlib.Tactic.Tauto

/-! The forms of structures.
A structure is read from the list of its values, or from an object that has each of its fields once,
in any order and among others (`Arranges`). Which of the two it is, and where the other fields
stand, does not matter to what is read (`Fields.Parses.record`). -/

namespace AbstractStore.Json

/-- A structure whose fields have these names is given by these values, one for each field. -/
inductive Arranges (names : List String) (values : List (List Token)) : List Token → Prop where
  | listing : Arranges names values (listTokens values)
  | object {fields : List Field} (whole : values.length = names.length)
      (known : (fields.filter (·.1 ∈ names)).Perm (names.zip values))
      (others : ∀ x ∈ fields, x.1 ∉ names → IsValue x.2) :
      Arranges names values (objectTokens fields)

/-- A text is a structure whose only field, of this name, is the list of these items. -/
def ListsUnder (name text : String) (items : List (List Token)) : Prop :=
  Arranges [name] [listTokens items] (tokens text)

section Arranges

variable {names : List String} {values : List (List Token)} {fields : List Field}

theorem isValue_of_known (known : (fields.filter (·.1 ∈ names)).Perm (names.zip values))
    (others : ∀ x ∈ fields, x.1 ∉ names → IsValue x.2) (each : ∀ w ∈ values, IsValue w) :
    ∀ x ∈ fields, IsValue x.2 := by
  intro x inside
  by_cases named : x.1 ∈ names
  · have kept : x ∈ fields.filter (·.1 ∈ names) := List.mem_filter.2 ⟨inside, by simpa using named⟩
    exact each x.2 (List.of_mem_zip (known.mem_iff.1 kept)).2
  · exact others x inside named

theorem Arranges.isValue {v : List Token} (arranges : Arranges names values v)
    (each : ∀ w ∈ values, IsValue w) : IsValue v := by
  cases arranges with
  | listing => exact .list each
  | object whole known others => exact .object_fields (isValue_of_known known others each)

/-- The value of a structure's only field can be told from the tokens. -/
theorem Arranges.singleton_inj {name : String} {v w w' : List Token}
    (arranges : Arranges [name] [w] v) (again : Arranges [name] [w'] v) (value : IsValue w)
    (value' : IsValue w') : w = w' := by
  have each : ∀ u ∈ [w], IsValue u := List.forall_mem_singleton.2 value
  have each' : ∀ u ∈ [w'], IsValue u := List.forall_mem_singleton.2 value'
  generalize same : v = v' at again
  cases arranges with
  | listing =>
    cases again with
    | listing => exact (List.cons.inj (listTokens_inj each each' same)).1
    | object => cases (List.cons.inj same).1
  | object _ known others =>
    cases again with
    | listing => cases (List.cons.inj same).1
    | object _ known' others' =>
      obtain rfl := objectTokens_inj (isValue_of_known known others each)
        (isValue_of_known known' others' each') same
      have both : [(name, w)] = [(name, w')] := List.perm_singleton.1 (known.symm.trans known')
      exact (Prod.mk.inj (List.cons.inj both).1).2

end Arranges

theorem commas_append {parts more : List (List Token)} (begun : parts ≠ [])
    (continued : more ≠ []) : commas (parts ++ more) = commas parts ++ .comma :: commas more := by
  obtain ⟨part, parts, rfl⟩ := List.exists_cons_of_ne_nil begun
  obtain ⟨next, more, rfl⟩ := List.exists_cons_of_ne_nil continued
  simp [commas_cons]

namespace Fields

variable {α β : Type} {f : Fields α} {g : Fields β}

theorem takes_nil_iff {s t : f.Slots} : f.Takes s [] t ↔ s = t := by
  constructor
  · rintro ⟨⟩
    rfl
  · rintro rfl
    exact .nil s

theorem takes_cons_iff {s u : f.Slots} {key : String} {v : List Token} {later : List Field} :
    f.Takes s ((key, v) :: later) u ↔
      ∃ d t, f.fill s key = some d ∧ d.Reads v t ∧ f.Takes t later u := by
  constructor
  · rintro ⟨⟩
    next t d known first others => exact ⟨d, t, known, first, others⟩
  · rintro ⟨d, t, known, first, others⟩
    exact .cons known first others

/-- The fields of a structure with the given names: which values stand for them, in order, and that
they are found whatever the order they come in. -/
structure Parses (f : Fields α) (names : List String) (form : List (List Token) → α → Prop) :
    Prop where
  nonempty : names ≠ []
  length : ∀ {values a}, form values a → values.length = names.length
  value : ∀ {values a}, form values a → ∀ v ∈ values, IsValue v
  inOrder : f.inOrder.Parses fun v a => ∃ values, v = commas values ∧ form values a
  known : ∀ slots, ∀ key ∈ names, ∃ d, f.fill slots key = some d ∧ d.Regular
  unknown : ∀ slots, ∀ key ∉ names, f.fill slots key = none
  takes : ∀ {fields a}, (∃ slots, f.Takes f.blank fields slots ∧ f.finish slots = some a) ↔
    ∃ values, fields.Perm (names.zip values) ∧ form values a

namespace Parses

variable {names more : List String} {form : List (List Token) → α → Prop}
  {form' : List (List Token) → β → Prop}

theorem ne_nil (parses : f.Parses names form) {values : List (List Token)} {a : α}
    (formed : form values a) : values ≠ [] := by
  rintro rfl
  exact parses.nonempty (List.length_eq_zero_iff.1 (parses.length formed).symm)

protected theorem congr (parses : f.Parses names form) {other : List (List Token) → α → Prop}
    (same : ∀ values a, form values a ↔ other values a) : f.Parses names other := by
  have forms : form = other := funext₂ fun values a => propext (same values a)
  rwa [← forms]

theorem takes_one_iff {name : String} {c : Codec α} (regular : c.Regular) {fields : List Field}
    {a : α} : (Fields.one name c).Takes none fields (some a) ↔
      ∃ v, fields = [(name, v)] ∧ c.Reads v a := by
  have fill_none : (Fields.one name c).fill none name = some do return some (← c.decode) :=
    if_pos rfl
  have fill_some (b : α) : (Fields.one name c).fill (some b) name =
    some (Decoder.fail .malformed) := if_pos rfl
  constructor
  · intro takes
    cases fields with
    | nil => cases takes_nil_iff.1 takes
    | cons x later =>
      obtain ⟨d, t, filled, first, others⟩ := takes_cons_iff.1 takes
      obtain ⟨rfl, -⟩ := Option.ite_none_right_eq_some.1 filled
      cases fill_none.symm.trans filled
      obtain ⟨b, reads, rfl⟩ := (regular.decode.map some).reads_iff.1 first
      -- A second field of the name cannot be read.
      cases later with
      | nil =>
        cases takes_nil_iff.1 others
        exact ⟨x.2, rfl, reads⟩
      | cons y later =>
        obtain ⟨e, u, filled, first, -⟩ := takes_cons_iff.1 others
        obtain ⟨same, -⟩ := Option.ite_none_right_eq_some.1 filled
        rw [same] at filled
        cases (fill_some b).symm.trans filled
        cases first []
  · rintro ⟨v, rfl, reads⟩
    exact takes_cons_iff.2 ⟨_, some a, fill_none,
      (regular.decode.map some).reads ⟨a, reads, rfl⟩, takes_nil_iff.2 rfl⟩

protected theorem one (name : String) {c : Codec α} (regular : c.Regular) :
    (Fields.one name c).Parses [name] fun values a => ∃ v, values = [v] ∧ c.Reads v a where
  nonempty := List.cons_ne_nil name []
  length := by
    rintro values a ⟨v, rfl, -⟩
    rfl
  value := by
    rintro values a ⟨v, rfl, reads⟩
    exact List.forall_mem_singleton.2 (regular.value reads)
  inOrder := regular.decode.congr fun v a => by
    constructor
    · intro reads
      exact ⟨[v], by simp [commas_cons], v, rfl, reads⟩
    · rintro ⟨_, rfl, v, rfl, reads⟩
      simpa [commas_cons] using reads
  known slots key named := by
    cases List.mem_singleton.1 named
    refine ⟨_, if_pos rfl, ?_⟩
    cases slots with
    | none => exact (regular.decode.map some).regular
    | some => exact Decoder.Parses.fail.regular
  unknown slots key foreign := if_neg fun same => foreign (List.mem_singleton.2 same)
  takes {fields a} := by
    constructor
    · rintro ⟨slots, takes, rfl⟩
      obtain ⟨v, rfl, reads⟩ := (takes_one_iff regular).1 takes
      exact ⟨[v], .refl _, v, rfl, reads⟩
    · rintro ⟨_, same, v, rfl, reads⟩
      cases List.perm_singleton.1 same
      exact ⟨some a, (takes_one_iff regular).2 ⟨v, rfl, reads⟩, rfl⟩

section And

variable {s t : f.Slots} {s' t' : g.Slots} {key : String} {v : List Token} {fields : List Field}

theorem takes_and_left_iff (first : f.Parses names form) (named : key ∈ names) :
    (f.and g).Takes (s, s') ((key, v) :: fields) (t, t') ↔ ∃ d u, f.fill s key = some d ∧
      d.Reads v u ∧ (f.and g).Takes (u, s') fields (t, t') := by
  obtain ⟨d, filled, regular⟩ := first.known s key named
  have both := fill_and_left (g := g) filled s'
  refine takes_cons_iff.trans ?_
  constructor
  · rintro ⟨e, u, found, reads, others⟩
    cases both.symm.trans found
    obtain ⟨u, inner, rfl⟩ := (regular.map fun u => (u, s')).reads_iff.1 reads
    exact ⟨d, u, filled, inner, others⟩
  · rintro ⟨e, u, found, reads, others⟩
    cases filled.symm.trans found
    exact ⟨_, (u, s'), both, (regular.map fun u => (u, s')).reads ⟨u, reads, rfl⟩, others⟩

theorem takes_and_right_iff (first : f.Parses names form) (second : g.Parses more form')
    (foreign : key ∉ names) (named : key ∈ more) :
    (f.and g).Takes (s, s') ((key, v) :: fields) (t, t') ↔ ∃ d u, g.fill s' key = some d ∧
      d.Reads v u ∧ (f.and g).Takes (s, u) fields (t, t') := by
  obtain ⟨d, filled, regular⟩ := second.known s' key named
  have both := fill_and_right (g := g) (first.unknown s key foreign) s'
  rw [filled] at both
  refine takes_cons_iff.trans ?_
  constructor
  · rintro ⟨e, u, found, reads, others⟩
    cases both.symm.trans found
    obtain ⟨u, inner, rfl⟩ := (regular.map fun u => (s, u)).reads_iff.1 reads
    exact ⟨d, u, filled, inner, others⟩
  · rintro ⟨e, u, found, reads, others⟩
    cases filled.symm.trans found
    exact ⟨_, (s, u), both, (regular.map fun u => (s, u)).reads ⟨u, reads, rfl⟩, others⟩

theorem fill_and_eq_none (first : f.Parses names form) (second : g.Parses more form')
    (foreign : key ∉ names) (also : key ∉ more) : (f.and g).fill (s, s') key = none := by
  rw [fill_and_right (first.unknown s key foreign), second.unknown s' key also]
  rfl

/-- Of two groups of fields each finds its own among those of both. -/
theorem takes_and_iff (first : f.Parses names form) (second : g.Parses more form')
    (apart : ∀ name ∈ more, name ∉ names) : (f.and g).Takes (s, s') fields (t, t') ↔
      f.Takes s (fields.filter (·.1 ∈ names)) t ∧ g.Takes s' (fields.filter (·.1 ∈ more)) t' ∧
        ∀ x ∈ fields, x.1 ∈ names ∨ x.1 ∈ more := by
  induction fields generalizing s s' with
  | nil =>
    refine takes_nil_iff.trans (Prod.mk.injEq ..).to_iff |>.trans ?_
    rw [List.filter_nil, List.filter_nil, takes_nil_iff, takes_nil_iff]
    exact and_congr_right fun _ => (and_iff_left nofun).symm
  | cons x fields ih =>
    obtain ⟨key, v⟩ := x
    rw [List.forall_mem_cons]
    by_cases named : key ∈ names
    · have foreign : key ∉ more := fun also => apart key also named
      rw [takes_and_left_iff first named, List.filter_cons_of_pos (by simpa using named),
        List.filter_cons_of_neg (by simpa using foreign), takes_cons_iff]
      simp only [ih, named]
      tauto
    by_cases mine : key ∈ more
    · rw [takes_and_right_iff first second named mine,
        List.filter_cons_of_neg (by simpa using named),
        List.filter_cons_of_pos (by simpa using mine), takes_cons_iff]
      simp only [ih, mine]
      tauto
    · refine iff_of_false (fun takes => ?_) fun ⟨_, _, here, _⟩ => here.elim named mine
      obtain ⟨d, u, filled, -⟩ := takes_cons_iff.1 takes
      cases (fill_and_eq_none first second named mine).symm.trans filled

/-- What belongs to one of two groups of names can be told from what belongs to the other. -/
theorem filter_zip_append {values : List (List Token)} (others : List (List Token))
    (whole : values.length = names.length) (apart : ∀ name ∈ more, name ∉ names) :
    ((names ++ more).zip (values ++ others)).filter (·.1 ∈ names) = names.zip values ∧
    ((names ++ more).zip (values ++ others)).filter (·.1 ∈ more) = more.zip others := by
  have inNames : ∀ x ∈ names.zip values, x.1 ∈ names := fun x inside => (List.of_mem_zip inside).1
  have inMore : ∀ x ∈ more.zip others, x.1 ∈ more := fun x inside => (List.of_mem_zip inside).1
  rw [List.zip_append whole.symm, List.filter_append, List.filter_append]
  constructor
  · rw [List.filter_eq_self.2 fun x inside => by simpa using inNames x inside,
      List.filter_eq_nil_iff.2 fun x inside => by simpa using apart _ (inMore x inside),
      List.append_nil]
  · rw [List.filter_eq_nil_iff.2 fun x inside => by
        simpa using fun also => apart _ also (inNames x inside),
      List.filter_eq_self.2 fun x inside => by simpa using inMore x inside, List.nil_append]

theorem perm_of_filters {values others : List (List Token)} (whole : values.length = names.length)
    (apart : ∀ name ∈ more, name ∉ names) (covered : ∀ x ∈ fields, x.1 ∈ names ∨ x.1 ∈ more)
    (left : (fields.filter (·.1 ∈ names)).Perm (names.zip values))
    (right : (fields.filter (·.1 ∈ more)).Perm (more.zip others)) :
    fields.Perm ((names ++ more).zip (values ++ others)) := by
  have rest : fields.filter (fun x => !decide (x.1 ∈ names)) = fields.filter (·.1 ∈ more) := by
    refine List.filter_congr fun x inside => ?_
    have foreign : x.1 ∈ more → x.1 ∉ names := apart x.1
    have either := covered x inside
    by_cases mine : x.1 ∈ more
    · simp [mine, foreign mine]
    · simp [mine, either.resolve_right mine]
  have parts := List.filter_append_perm (fun x : Field => decide (x.1 ∈ names)) fields
  rw [rest] at parts
  rw [List.zip_append whole.symm]
  exact parts.symm.trans (left.append right)

end And

protected theorem and (first : f.Parses names form) (second : g.Parses more form')
    (apart : ∀ name ∈ more, name ∉ names) : (f.and g).Parses (names ++ more) fun values p =>
      ∃ vs ws, values = vs ++ ws ∧ form vs p.1 ∧ form' ws p.2 where
  nonempty := List.append_ne_nil_of_left_ne_nil first.nonempty more
  length := by
    rintro values p ⟨vs, ws, rfl, left, right⟩
    rw [List.length_append, List.length_append, first.length left, second.length right]
  value := by
    rintro values p ⟨vs, ws, rfl, left, right⟩
    exact List.forall_mem_append.2 ⟨first.value left, second.value right⟩
  inOrder := by
    refine (first.inOrder.bind fun a => (Decoder.Parses.exactly _).bind fun _ =>
      second.inOrder.bind fun b => .pure (a, b)).congr fun v p => ?_
    constructor
    · rintro ⟨a, _, _, rfl, ⟨vs, rfl, left⟩, -, _, _, rfl, rfl, b, _, _, rfl, ⟨ws, rfl, right⟩,
        rfl, rfl⟩
      refine ⟨vs ++ ws, ?_, vs, ws, rfl, left, right⟩
      rw [commas_append (first.ne_nil left) (second.ne_nil right), List.append_nil]
      rfl
    · rintro ⟨_, rfl, vs, ws, rfl, left, right⟩
      refine ⟨p.1, commas vs, .comma :: commas ws, ?_, ⟨vs, rfl, left⟩, (), [.comma], commas ws,
        rfl, rfl, p.2, commas ws, [], (List.append_nil _).symm, ⟨ws, rfl, right⟩, rfl, rfl⟩
      rw [commas_append (first.ne_nil left) (second.ne_nil right)]
  known slots key named := by
    rcases List.mem_append.1 named with mine | others
    · obtain ⟨d, filled, regular⟩ := first.known slots.1 key mine
      exact ⟨_, fill_and_left filled slots.2, (regular.map fun s => (s, slots.2)).regular⟩
    · obtain ⟨d, filled, regular⟩ := second.known slots.2 key others
      have both := fill_and_right (g := g) (first.unknown slots.1 key (apart key others)) slots.2
      rw [filled] at both
      exact ⟨_, both, (regular.map fun s => (slots.1, s)).regular⟩
  unknown slots key foreign := by
    obtain ⟨left, right⟩ := not_or.1 fun named => foreign (List.mem_append.2 named)
    exact fill_and_eq_none first second left right
  takes {fields p} := by
    obtain ⟨a, b⟩ := p
    constructor
    · rintro ⟨⟨slots, slots'⟩, takes, finished⟩
      obtain ⟨left, right, covered⟩ := (takes_and_iff first second apart).1 takes
      obtain ⟨a', finished₁, finished⟩ := Option.bind_eq_some_iff.1 finished
      obtain ⟨b', finished₂, finished⟩ := Option.bind_eq_some_iff.1 finished
      cases finished
      obtain ⟨vs, perm₁, formed₁⟩ := first.takes.1 ⟨slots, left, finished₁⟩
      obtain ⟨ws, perm₂, formed₂⟩ := second.takes.1 ⟨slots', right, finished₂⟩
      exact ⟨vs ++ ws, perm_of_filters (first.length formed₁) apart covered perm₁ perm₂,
        vs, ws, rfl, formed₁, formed₂⟩
    · rintro ⟨_, perm, vs, ws, rfl, formed₁, formed₂⟩
      obtain ⟨own, rest⟩ := filter_zip_append ws (first.length formed₁) apart
      obtain ⟨slots, left, finished₁⟩ := first.takes.2 ⟨vs, own ▸ perm.filter _, formed₁⟩
      obtain ⟨slots', right, finished₂⟩ := second.takes.2 ⟨ws, rest ▸ perm.filter _, formed₂⟩
      have covered : ∀ x ∈ fields, x.1 ∈ names ∨ x.1 ∈ more := fun x inside =>
        List.mem_append.1 (List.of_mem_zip (perm.mem_iff.1 inside)).1
      refine ⟨(slots, slots'), (takes_and_iff first second apart).2 ⟨left, right, covered⟩, ?_⟩
      simp [Fields.and, finished₁, finished₂]

/-- Three fields, by their values. -/
theorem three {γ : Type} {x y z : String} {c : Codec α} {d : Codec β} {e : Codec γ}
    (first : c.Regular) (second : d.Regular) (third : e.Regular) (distinct : [x, y, z].Nodup) :
    ((Fields.one x c).and ((Fields.one y d).and (.one z e))).Parses [x, y, z] fun values p =>
      ∃ u v w, values = [u, v, w] ∧ c.Reads u p.1 ∧ d.Reads v p.2.1 ∧ e.Reads w p.2.2 := by
  have apart : y ≠ x ∧ z ≠ x ∧ z ≠ y := by
    simp only [List.nodup_cons, List.mem_cons, List.not_mem_nil] at distinct
    grind
  refine ((Fields.Parses.one x first).and ((Fields.Parses.one y second).and (.one z third)
    (by simp [apart])) (by simp [apart])).congr fun values p => ?_
  constructor
  · rintro ⟨_, _, rfl, ⟨u, rfl, reads₁⟩, _, _, rfl, ⟨v, rfl, reads₂⟩, w, rfl, reads₃⟩
    exact ⟨u, v, w, rfl, reads₁, reads₂, reads₃⟩
  · rintro ⟨u, v, w, rfl, reads₁, reads₂, reads₃⟩
    exact ⟨[u], [v, w], rfl, ⟨u, rfl, reads₁⟩, [v], [w], rfl, ⟨v, rfl, reads₂⟩, w, rfl, reads₃⟩

/-- The fields of an object are read where its known fields are, and the other ones are values. -/
theorem feeds_readField_iff (parses : f.Parses names form) {s t : f.Slots} {fields : List Field} :
    Decoder.Feeds f.readField s fields t ↔
      f.Takes s (fields.filter (·.1 ∈ names)) t ∧ ∀ x ∈ fields, x.1 ∉ names → IsValue x.2 := by
  have passes (s : f.Slots) : (Decoder.skip >>= fun _ => pure s).Parses fun v u =>
      IsValue v ∧ u = s :=
    (Decoder.Parses.skip.map fun _ => s).congr fun v u =>
      ⟨fun ⟨_, value, same⟩ => ⟨value, same⟩, fun ⟨value, same⟩ => ⟨(), value, same⟩⟩
  induction fields generalizing s with
  | nil =>
    rw [List.filter_nil, takes_nil_iff]
    constructor
    · rintro ⟨⟩
      exact ⟨rfl, nofun⟩
    · rintro ⟨rfl, -⟩
      exact .nil s
  | cons x fields ih =>
    obtain ⟨key, v⟩ := x
    have step : Decoder.Feeds f.readField s ((key, v) :: fields) t ↔
        ∃ u, (f.readField s key).Reads v u ∧ Decoder.Feeds f.readField u fields t := by
      constructor
      · rintro ⟨⟩
        next u first others => exact ⟨u, first, others⟩
      · rintro ⟨u, first, others⟩
        exact .cons first others
    rw [step, List.forall_mem_cons]
    by_cases named : key ∈ names
    · obtain ⟨d, filled, -⟩ := parses.known s key named
      have reader : f.readField s key = d := by rw [readField, filled]
      rw [List.filter_cons_of_pos (by simpa using named), takes_cons_iff, reader]
      constructor
      · rintro ⟨u, first, others⟩
        obtain ⟨takes, values⟩ := ih.1 others
        exact ⟨⟨d, u, filled, first, takes⟩, absurd named, values⟩
      · rintro ⟨⟨e, u, found, first, takes⟩, -, values⟩
        cases filled.symm.trans found
        exact ⟨u, first, ih.2 ⟨takes, values⟩⟩
    · have reader : f.readField s key = Decoder.skip >>= fun _ => pure s := by
        rw [readField, parses.unknown s key named]
      rw [List.filter_cons_of_neg (by simpa using named), reader]
      simp only [(passes s).reads_iff]
      constructor
      · rintro ⟨u, ⟨value, rfl⟩, others⟩
        obtain ⟨takes, values⟩ := ih.1 others
        exact ⟨takes, fun _ => value, values⟩
      · rintro ⟨takes, value, values⟩
        exact ⟨s, ⟨value named, rfl⟩, ih.2 ⟨takes, values⟩⟩

theorem regular_readField (parses : f.Parses names form) (slots : f.Slots) (key : String) :
    (f.readField slots key).Regular := by
  unfold readField
  by_cases named : key ∈ names
  · obtain ⟨d, filled, regular⟩ := parses.known slots key named
    rw [filled]
    exact regular
  · rw [parses.unknown slots key named]
    exact (Decoder.Parses.skip.map fun _ => slots).regular

theorem ofListing (parses : f.Parses names form) : f.ofListing.Parses fun v a =>
    ∃ values, v = listTokens values ∧ form values a := by
  refine ((Decoder.Parses.exactly _).bind fun _ => parses.inOrder.bind fun a =>
    (Decoder.Parses.exactly _).bind fun _ => .pure a).congr fun v a => ?_
  constructor
  · rintro ⟨-, _, _, rfl, rfl, b, _, _, rfl, ⟨values, rfl, formed⟩, -, _, _, rfl, rfl, rfl, rfl⟩
    exact ⟨values, by simp [listTokens], formed⟩
  · rintro ⟨values, rfl, formed⟩
    exact ⟨(), [.openBracket], commas values ++ [.closeBracket], rfl, rfl, a, commas values,
      [.closeBracket], rfl, ⟨values, rfl, formed⟩, (), [.closeBracket], [], rfl, rfl, rfl, rfl⟩

theorem parses_finish (slots : f.Slots) : Decoder.Parses
    (match f.finish slots with
      | some a => pure a
      | none => Decoder.fail .malformed) fun v a => v = [] ∧ f.finish slots = some a := by
  cases finished : f.finish slots with
  | none => exact Decoder.Parses.fail.congr fun v a =>
      ⟨False.elim, fun h => Option.some_ne_none a h.2.symm⟩
  | some b => exact (Decoder.Parses.pure b).congr fun v a =>
      and_congr_right fun _ => ⟨fun same => same ▸ rfl, fun same => (Option.some.inj same).symm⟩

theorem ofObject (parses : f.Parses names form) : f.ofObject.Parses fun v a =>
    ∃ fields values, v = objectTokens fields ∧
      (fields.filter (·.1 ∈ names)).Perm (names.zip values) ∧
      (∀ x ∈ fields, x.1 ∉ names → IsValue x.2) ∧ form values a := by
  rw [ofObject_eq]
  refine ((Decoder.Parses.object parses.regular_readField f.blank).bind parses_finish).congr
    fun v a => ?_
  constructor
  · rintro ⟨slots, _, _, rfl, ⟨fields, rfl, feeds⟩, rfl, finished⟩
    obtain ⟨takes, others⟩ := parses.feeds_readField_iff.1 feeds
    obtain ⟨values, perm, formed⟩ := parses.takes.1 ⟨slots, takes, finished⟩
    exact ⟨fields, values, List.append_nil _, perm, others, formed⟩
  · rintro ⟨fields, values, rfl, perm, others, formed⟩
    obtain ⟨slots, takes, finished⟩ := parses.takes.2 ⟨values, perm, formed⟩
    exact ⟨slots, _, [], (List.append_nil _).symm,
      ⟨fields, rfl, parses.feeds_readField_iff.2 ⟨takes, others⟩⟩, rfl, finished⟩

theorem decode (parses : f.Parses names form) : f.decode.Parses fun v a =>
    ∃ values, Arranges names values v ∧ form values a where
  reads := by
    rintro v a ⟨values, arranged, formed⟩ rest
    cases arranged with
    | listing => exact parses.ofListing.reads ⟨values, rfl, formed⟩ rest
    | object whole known others =>
      exact parses.ofObject.reads ⟨_, values, rfl, known, others, formed⟩ rest
  front {ts a rest} read := by
    unfold Fields.decode at read
    simp only at read
    split at read
    next =>
      obtain ⟨v, split, values, rfl, formed⟩ := parses.ofListing.front read
      exact ⟨_, split, values, .listing, formed⟩
    next =>
      obtain ⟨v, split, fields, values, rfl, known, others, formed⟩ := parses.ofObject.front read
      exact ⟨_, split, values, .object (parses.length formed) known others, formed⟩
  plain {ts e} failed := by
    unfold Fields.decode at failed
    simp only at failed
    split at failed
    next => exact parses.ofListing.plain failed
    next => exact parses.ofObject.plain failed

end Parses

end Fields

namespace Codec

variable {α β : Type} {f : Fields α} {names : List String} {form : List (List Token) → α → Prop}

theorem reads_record_iff (parses : f.Parses names form) {v : List Token} {a : α} :
    (Codec.record f).Reads v a ↔ ∃ values, Arranges names values v ∧ form values a :=
  parses.decode.reads_iff

theorem Regular.record (parses : f.Parses names form) : (Codec.record f).Regular := by
  refine .of_form parses.decode ?_
  rintro v a ⟨values, arranged, formed⟩
  exact arranged.isValue (parses.value formed)

/-- A value that is written as the only field of a structure. -/
theorem reads_field_iff {name : String} {c : Codec α} {pack : α → β} {unpack : β → α}
    (regular : c.Regular) {v : List Token} {b : β} :
    ((Codec.record (.one name c)).via pack unpack).Reads v b ↔
      ∃ w a, Arranges [name] [w] v ∧ c.Reads w a ∧ b = pack a := by
  have parses := Fields.Parses.one name regular
  refine (reads_via_iff (.record parses)).trans ?_
  simp only [reads_record_iff parses]
  constructor
  · rintro ⟨a, ⟨_, arranged, w, rfl, reads⟩, rfl⟩
    exact ⟨w, a, arranged, reads, rfl⟩
  · rintro ⟨w, a, arranged, reads, rfl⟩
    exact ⟨a, ⟨[w], arranged, w, rfl, reads⟩, rfl⟩

end Codec

namespace Shape

variable {α : Type} {shapes : String → Option (Shape α)}

/-- The tokens that are read as one of the shapes. A bare name may hold a null. -/
inductive Form (shapes : String → Option (Shape α)) (a : α) : List Token → Prop where
  | bare {name : String} (known : shapes name = some (.bare a)) : Form shapes a (bareTokens name)
  | null {name : String} (known : shapes name = some (.bare a)) :
      Form shapes a (holdingTokens name [.null])
  | holding {name : String} {contents : Decoder α} {v : List Token}
      (known : shapes name = some (.holding contents)) (reads : contents.Reads v a) :
      Form shapes a (holdingTokens name v)

theorem run_holdingTokens (name : String) (v rest : List Token) :
    (decode shapes).run (holdingTokens name v ++ rest) = match shapes name with
      | some (.bare a) => Decoder.run (do
          Decoder.exactly .null
          Decoder.exactly .closeBrace
          return a) (v ++ .closeBrace :: rest)
      | some (.holding contents) => Decoder.run (do
          let a ← contents
          Decoder.exactly .closeBrace
          return a) (v ++ .closeBrace :: rest)
      | none => .error .malformed := by
  have split : holdingTokens name v ++ rest =
      .openBrace :: .string name :: .colon :: (v ++ .closeBrace :: rest) := by
    simp [holdingTokens, objectTokens, commas_cons, fieldTokens]
  rw [split]
  rfl

theorem parses_decode (regular : ∀ name contents, shapes name = some (.holding contents) →
    contents.Regular) : (decode shapes).Parses fun v a => Form shapes a v where
  reads := by
    rintro v a form rest
    cases form with
    | bare known => simp [decode, bareTokens, known]
    | null known => simp [run_holdingTokens, known]
    | holding known reads =>
      have read := reads (.closeBrace :: rest)
      simp [run_holdingTokens, known, read]
  front {ts a rest} read := by
    unfold decode at read
    simp only at read
    split at read
    next name ts =>
      split at read
      next known =>
        cases read
        exact ⟨bareTokens name, rfl, .bare known⟩
      next => cases read
    next name ts =>
      have closes (b : α) : Decoder.Parses (do
          Decoder.exactly .closeBrace
          return b) fun v a => v = [.closeBrace] ∧ a = b :=
        ((Decoder.Parses.exactly _).map fun _ => b).congr fun v a =>
          ⟨fun read => read.elim fun _ same => same, fun same => ⟨(), same⟩⟩
      split at read
      next b known =>
        obtain ⟨_, rfl, -, _, _, rfl, rfl, rfl, rfl⟩ :=
          ((Decoder.Parses.exactly _).bind fun _ => closes b).front read
        exact ⟨holdingTokens name [.null], rfl, .null known⟩
      next contents known =>
        obtain ⟨_, rfl, b, v, _, rfl, reads, rfl, rfl⟩ :=
          ((regular name contents known).bind closes).front read
        refine ⟨holdingTokens name v, ?_, .holding known reads⟩
        simp [holdingTokens, objectTokens, commas_cons, fieldTokens]
      next => cases read
    next => cases read
  plain {ts e} failed := by
    unfold decode at failed
    simp only at failed
    split at failed
    next =>
      split at failed
      next => cases failed
      next =>
        cases failed
        rfl
    next name ts =>
      have closes (b : α) : Decoder.Regular (do
          Decoder.exactly .closeBrace
          return b) := ((Decoder.Parses.exactly _).map fun _ => b).regular
      split at failed
      next b known => exact ((Decoder.Parses.exactly _).bind fun _ => closes b).plain failed
      next contents known => exact ((regular name contents known).bind closes).plain failed
      next =>
        cases failed
        rfl
    next =>
      cases failed
      rfl

theorem Form.isValue {a : α} {v : List Token} (form : Form shapes a v)
    (value : ∀ name contents, shapes name = some (.holding contents) →
      ∀ v a, contents.Reads v a → IsValue v) : IsValue v := by
  cases form with
  | bare => exact .scalar rfl
  | null => exact .object_fields (List.forall_mem_singleton.2 (.scalar rfl))
  | holding known reads =>
    exact .object_fields (List.forall_mem_singleton.2 (value _ _ known _ _ reads))

end Shape

end AbstractStore.Json
