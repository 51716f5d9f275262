import AbstractStore.Proofs.LiveRoots
import AbstractStore.Proofs.Moments

/-! Definitions, whatever their bodies do.
A definition is given an address before its body is begun. The body may allocate, bind, assign and
collect as it likes: as long as its scopes are those of constructs, what it comes to is stored at
that address, and the bindings are as before (`KeepsEnclosing.stored_define`). A new address cannot
be read before something is assigned to it, and the error tells whether a collection has dropped it
(`Program.unread_until_assigned`). -/

namespace AbstractStore

open Machine

section Definitions

variable {P A V : Type} [Address A] [AllocationPolicy P A] [Value V A]

/-- The address of a definition, and the machine that its body is begun with: the innermost binding
of the name is taken, or an address is allocated, and it is what the name means to the body. -/
structure Machine.Placed (m : Machine P A V) (name : Name) (opened : A × Machine P A V) :
    Prop where
  bound : ∀ inner frame outer b, m.environment.frames = inner ++ frame :: outer →
    (∀ f ∈ inner, f.get? name = none) → frame.get? name = some b →
      opened.1 = b ∧ opened.2.memory = m.memory
  unbound : (∀ f ∈ m.environment.frames, f.get? name = none) →
    opened.1 = (alloc name m).1 ∧ opened.2.memory = (alloc name m).2.memory
  visible : outcome (resolve name) opened.2 = (.ok opened.1, opened.2)

/-- What comes of a definition at an address, by what its body has come to. -/
structure Machine.Stored (m : Machine P A V) (a : A) (left : Except (Error A) V × Machine P A V)
    (ended : Except (Error A) (V × A) × Machine P A V) : Prop where
  environment : ended.2.environment = m.environment
  ok : ∀ v, left.1 = .ok v → ended.1 = .ok (v, a) ∧
    (∀ b, b ≠ a → ended.2.heap.lookup b = left.2.heap.lookup b) ∧
    ended.2.heap.lookup a = some (match left.2.storeMode a with
      | .strong => .singleton v
      | .weak => (left.2.heap.valuesAt a).insert v)
  error : ∀ e, left.1 = .error e → ended.1 = .error e ∧ ended.2.heap = left.2.heap

namespace Machine

variable {m : Machine P A V} {name : Name} {a : A}

theorem opened_eq (announce : Name → A → Event A V) (name : Name) (m : Machine P A V) :
    (m.opened announce name).1 = (lookupOrAlloc name m).1 ∧
      (m.opened announce name).2.memory = (lookupOrAlloc name m).2.memory := ⟨rfl, rfl⟩

theorem lookup_opened (announce : Name → A → Event A V) (name : Name) (m : Machine P A V) :
    (m.opened announce name).2.lookup name = some (m.opened announce name).1 := by
  let a := (lookupOrAlloc name m).1
  have bound : (m.opened announce name).2.lookup name =
    ((lookupOrAlloc name m).2.environment.push.bind name a).lookup name := rfl
  rw [bound, Environment.lookup_bind, if_pos rfl]
  rfl

theorem lookupOrAlloc_of_bound (bound : m.lookup name = some a) :
    lookupOrAlloc name m = (a, m) := by
  rw [lookupOrAlloc, bound]

theorem lookupOrAlloc_of_unbound (unbound : m.lookup name = none) :
    lookupOrAlloc name m = alloc name m := by
  rw [lookupOrAlloc, unbound]

theorem placed_opened (announce : Name → A → Event A V) (name : Name) (m : Machine P A V) :
    m.Placed name (m.opened announce name) where
  bound inner frame outer b split hides binds := by
    have found : m.lookup name = some b := List.findSome?_eq_some_iff.2
      ⟨inner, frame, outer, split, binds, hides⟩
    have opened := m.opened_eq announce name
    rwa [lookupOrAlloc_of_bound found] at opened
  unbound free := by
    have opened := m.opened_eq announce name
    rwa [lookupOrAlloc_of_unbound (List.findSome?_eq_none_iff.2 free)] at opened
  visible := by rw [outcome_resolve, lookup_opened]

theorem stored_store (m : Machine P A V) (a : A) (left : Except (Error A) V × Machine P A V) :
    m.Stored a left (m.store a left) where
  environment := m.environment_store a left
  ok v done := by
    obtain ⟨result, after⟩ := left
    obtain rfl : result = .ok v := done
    have stored : (m.store a (.ok v, after)).2.heap =
      after.heap.assign a v (after.storeMode a) := rfl
    refine ⟨rfl, fun b other => ?_, ?_⟩
    · rw [stored, Heap.lookup_assign, if_neg other.symm]
    · rw [stored, Heap.lookup_assign]
      exact if_pos rfl
  error e failed := by
    obtain ⟨result, after⟩ := left
    obtain rfl : result = .error e := failed
    exact ⟨rfl, rfl⟩

end Machine

theorem KeepsEnclosing.stored_define {body : Eval P A V V} (keeps : KeepsEnclosing body)
    (name : Name) (m : Machine P A V) :
    let opened := m.opened .defining name
    m.Stored opened.1 (outcome body opened.2) (outcome (define name body) m) := by
  intro opened
  rw [keeps.outcome_define]
  exact m.stored_store opened.1 (outcome body opened.2)

end Definitions

section Unassigned

variable {P A V : Type} [Address A] [Value V A]
variable {moments : List (Moment P A V)} {t : Moment P A V} {a : A}

theorem Moment.collection_of_drops (drops : t.drops a = true) :
    (∃ roots, t.deed = .act (.gc roots)) ∨
      t.deed = .act .collect ∧ ¬ t.before.heap.Reaches t.before.liveRoots a := by
  obtain ⟨m, deed⟩ := t
  cases deed with
  | alloc => cases drops
  | act step =>
    cases step with
    | gc roots => exact .inl ⟨roots, rfl⟩
    | collect => exact .inr ⟨rfl, by simpa [Moment.drops, roots?] using drops⟩
    | _ => cases drops

/-- No moment is that something is assigned to the address. -/
def Unassigned (a : A) (moments : List (Moment P A V)) : Prop :=
  ∀ t ∈ moments, ∀ v, t.deed ≠ .act (.assign a v)

variable [AllocationPolicy P A]

theorem Unassigned.assignments_life (unassigned : Unassigned a moments) :
    Mark.assignments (life a moments) = [] := by
  refine List.eq_nil_iff_forall_not_mem.2 fun s assigned => ?_
  obtain ⟨t, recent, assignment, -⟩ := exists_of_mem_assignments assigned
  exact unassigned t (mem_of_mem_window recent) s.1 assignment

end Unassigned

/-- A scope in those of a machine does not tell an address by a name any more. -/
def Machine.Rebound {P A V : Type} [Ord A] [Ord V] (outer : Machine P A V) (name : Name) (a : A)
    (m : Machine P A V) : Prop :=
  ∃ further scope, m.environment.frames = further ++ scope :: outer.environment.frames ∧
    scope.get? name ≠ some a

section Scopes

variable {P A V α : Type} [Address A] [Value V A]

/-- An address that the scope of a definition tells is kept by `collect`. -/
theorem Machine.rebound_of_unreached {outer m : Machine P A V} {name : Name} {a : A}
    (inside : ∃ further scope, m.environment.frames = further ++ scope :: outer.environment.frames)
    (unreached : ¬ m.heap.Reaches m.liveRoots a) : outer.Rebound name a m := by
  obtain ⟨further, scope, split⟩ := inside
  refine ⟨further, scope, split, fun tells => unreached ⟨a, ?_, .refl⟩⟩
  have frame : scope ∈ m.environment.frames := by simp [split]
  exact AscSet.mem_union.2
    (.inl (Environment.mem_roots.2 ⟨scope, frame, AscMap.mem_values_of_get? tells⟩))

/-- An address is read after some moments in a definition, and there is no value: it has no cell
because a collection from given roots has dropped it, or because `collect` has when the scope of the
definition did not tell it, or else the cell is empty. -/
def Machine.ReadsNothing (outer : Machine P A V) (name : Name) (a : A)
    (earlier : List (Moment P A V)) (answer : Except (Error A) (Cell V)) : Prop :=
  answer = .error (.address (.uninitialized a)) ∨
    answer = .error (.address (.unallocated a)) ∧
      ∃ s ∈ earlier, s.before.heap.contains a = true ∧ s.drops a = true ∧
        ((∃ roots, s.deed = .act (.gc roots)) ∨
          s.deed = .act .collect ∧ outer.Rebound name a s.before)

variable [AllocationPolicy P A]

/-- What there is when something is asked has been made by what was asked before. -/
theorem Program.spans_until {program : Program P A V α} {m : Machine P A V}
    {earlier later : List (Moment P A V)} {t : Moment P A V}
    (split : program.moments m = earlier ++ t :: later) :
    Spans m.memory t.before.memory earlier := by
  have whole := program.spans_run m
  rw [split, spans_append_iff] at whole
  obtain ⟨middle, before, found, -⟩ := whole
  rw [found]
  exact before

/-- In the body of a definition there is always the scope of the definition. -/
theorem Program.frames_in_definition {body : Program P A V α} (structured : body.Structured)
    {announce : Name → A → Event A V} {name : Name} {m : Machine P A V} {t : Moment P A V}
    (moment : t ∈ body.moments (m.opened announce name).2) :
    ∃ further scope, t.before.environment.frames = further ++ scope :: m.environment.frames := by
  have around := enclosing_of_mem_moments structured moment
  rw [enclosing_opened] at around
  obtain ⟨inside, same⟩ := around
  obtain ⟨further, scope, last⟩ : ∃ further scope,
      t.before.environment.innermost :: inside = further ++ [scope] :=
    ⟨_, _, (List.dropLast_append_getLast (List.cons_ne_nil _ _)).symm⟩
  refine ⟨further, scope, ?_⟩
  rw [List.append_cons, ← last, Environment.frames, ← same]
  rfl

end Scopes

section Fresh

variable {V α : Type} [Value V Precise]

theorem Machine.lookup_next {m : Machine FreshPolicy Precise V}
    (known : ∀ b, m.heap.contains b = true → b.index < m.policy.next) :
    m.heap.lookup ⟨m.policy.next⟩ = none := by
  refine Option.eq_none_iff_forall_ne_some.2 fun c found => ?_
  have below := known ⟨m.policy.next⟩ (Heap.contains_iff.2 ⟨c, found⟩)
  exact absurd below (UInt64.lt_irrefl _)

/-- What is read at the address of a definition before anything is assigned to it. -/
theorem Program.unread_until_assigned {m : Machine FreshPolicy Precise V} {name : Name}
    {body : Program FreshPolicy Precise V α} (structured : body.Structured)
    (unbound : m.lookup name = none)
    (known : ∀ b, m.heap.contains b = true → b.index < m.policy.next)
    {earlier later : List (Moment FreshPolicy Precise V)} {t : Moment FreshPolicy Precise V} :
    let opened := m.opened .defining name
    let a := opened.1
    body.moments opened.2 = earlier ++ t :: later → t.before.recovery.address = none →
      Unassigned a earlier →
        m.ReadsNothing name a earlier (outcome (deref a) t.before).1 := by
  intro opened a split strict unassigned
  obtain ⟨new, placed⟩ : a = ⟨m.policy.next⟩ ∧ opened.2.memory = (alloc name m).2.memory :=
    (m.placed_opened .defining name).unbound (List.findSome?_eq_none_iff.1 unbound)
  have within := spans_until split
  rw [placed] at within
  -- The allocation of the address is the first of the moments that tell what there is at it.
  let since : List (Moment FreshPolicy Precise V) := ⟨m, .alloc name⟩ :: earlier
  have spans : Spans m.memory t.before.memory since := ⟨rfl, within⟩
  have absent : m.memory.heap.lookup a = none := new ▸ lookup_next known
  have unassignedSince : Unassigned a since :=
    List.forall_mem_cons.2 ⟨fun v same => (by cases same), unassigned⟩
  have stored : t.before.heap.lookup a = Mark.content (life a since) := lookup_of_spans absent spans
  have read : (outcome (deref a) t.before).1 = _ :=
    (t.before.answer_deref a).trans (reading_of_marks strict stored)
  rw [if_pos unassignedSince.assignments_life] at read
  by_cases bare : life a since = []
  · have there : (alloc name m).2.heap.contains a = true :=
      new ▸ Heap.contains_reserve.2 (.inl rfl)
    rw [bare] at stored
    obtain ⟨s, moment, had, drops⟩ := exists_drops_of_gone within there stored
    refine .inr ⟨read.trans (if_pos bare), s, moment, had, drops,
      (Moment.collection_of_drops drops).imp_right ?_⟩
    rintro ⟨collects, unreached⟩
    have inBody : s ∈ body.moments opened.2 := split ▸ List.mem_append_left _ moment
    exact ⟨collects, rebound_of_unreached (frames_in_definition structured inBody) unreached⟩
  · exact .inl (read.trans (if_neg bare))

end Fresh

/-- A definition, for every body whose scopes are those of constructs. Its address is that of the
innermost binding of the name, or else a new one, and is what the name means to the body. The value
that the body comes to is stored there, and no other cell is touched; where the body fails nothing
is stored. The bindings are as before. An address that is new to a machine which hands out no
address twice is not read before it is assigned to: that there is no cell then is the doing of a
collection from given roots, or of a `collect` after the body had bound the name anew. -/
theorem definition_placed_stored_unread :
    (∀ {P A V : Type} [Address A] [AllocationPolicy P A] [Value V A] (name : Name)
      (body : Program P A V V), body.Structured → ∀ m : Machine P A V,
        let opened := m.opened .defining name
        m.Placed name opened ∧
          m.Stored opened.1 (outcome body.run opened.2) (outcome (define name body.run) m)) ∧
    ∀ {V : Type} [Value V Precise] (name : Name) (body : Program FreshPolicy Precise V V),
      body.Structured → ∀ m : Machine FreshPolicy Precise V, m.lookup name = none →
        (∀ b, m.heap.contains b = true → b.index < m.policy.next) →
          let opened := m.opened .defining name
          let a := opened.1
          ∀ earlier t later, body.moments opened.2 = earlier ++ t :: later →
            t.deed = .act (.deref a) → t.before.recovery.address = none → Unassigned a earlier →
              m.ReadsNothing name a earlier (outcome (deref a) t.before).1 := by
  refine ⟨fun name body structured m => ?_,
    fun name body structured m unbound known earlier t later split _ => ?_⟩
  · exact ⟨m.placed_opened .defining name,
      (Program.keepsEnclosing_run structured).stored_define name m⟩
  · exact Program.unread_until_assigned structured unbound known split

/-- A body that reads the name that it defines, from a scope further in. -/
def readsOwnName : Program FreshPolicy Precise (Object Precise) (Object Precise) :=
  .within .locally
    (.act (.resolve (.user "x")) (.orEnd fun a =>
      .act (.deref a) (.orEnd fun _ => .done (.ok .unit)))) .done

theorem definition_placed_stored_unread_readsOwnName :
    let m : Machine FreshPolicy Precise (Object Precise) := fresh {} {}
    let opened := m.opened .defining (.user "x")
    readsOwnName.Structured ∧ m.lookup (.user "x") = none ∧
    (∀ b, m.heap.contains b = true → b.index < m.policy.next) ∧
    m.Stored ⟨0⟩ (outcome readsOwnName.run opened.2)
      (outcome (define (.user "x") readsOwnName.run) m) ∧
    ∃ earlier t later, readsOwnName.moments opened.2 = earlier ++ t :: later ∧
      t.deed = .act (.deref ⟨0⟩) ∧ t.before.recovery.address = none ∧ Unassigned ⟨0⟩ earlier ∧
      (outcome (deref ⟨0⟩) t.before).1 = .error (.address (.uninitialized ⟨0⟩)) := by
  intro m opened
  have structured : readsOwnName.Structured :=
    ⟨⟨trivial, Program.structured_orEnd fun _ =>
      ⟨trivial, Program.structured_orEnd fun _ => trivial⟩⟩, fun _ => trivial⟩
  have unbound : m.lookup (.user "x") = none := rfl
  have known : ∀ b, m.heap.contains b = true → b.index < m.policy.next := fun b there => by
    cases there
  let inner := (pushScope opened.2).2
  have told : inner.lookup (.user "x") = some ⟨0⟩ := m.lookup_opened .defining _
  have resolved : outcome (resolve (.user "x")) inner = (.ok ⟨0⟩, inner) := by
    rw [outcome_resolve, told]
  obtain ⟨later, split⟩ : ∃ later,
      readsOwnName.moments opened.2 = [] ++ ⟨inner, .act (.deref ⟨0⟩)⟩ :: later := by
    simp only [readsOwnName, Program.moments, Setting.enter, Op.moments, Op.perform]
    rw [momentsOfResolve, told, resolved]
    exact ⟨_, rfl⟩
  have unassigned : Unassigned (⟨0⟩ : Precise)
      ([] : List (Moment FreshPolicy Precise (Object Precise))) := List.forall_mem_nil _
  obtain ⟨stored, unread⟩ := definition_placed_stored_unread
  refine ⟨structured, unbound, known, (stored _ _ structured m).2, [], ⟨inner, _⟩, later, split,
    rfl, rfl, unassigned, ?_⟩
  obtain read | ⟨-, s, moment, -⟩ :=
    unread _ _ structured m unbound known [] _ later split rfl rfl unassigned
  · exact read
  · exact absurd moment List.not_mem_nil

/-- A body that binds its own name to another address, collects and reads its own. -/
def rebindsItself : Program FreshPolicy Precise (Object Precise) (Object Precise) :=
  .act (.alloc (.user "y")) (.orEnd fun b =>
    .act (.bind (.user "x") b) (.orEnd fun _ =>
      .act .collect (.orEnd fun _ =>
        .act (.deref ⟨0⟩) (.orEnd fun _ => .done (.ok .unit)))))

/-- No collection from given roots is needed for the address of a definition to be dropped. -/
theorem unallocated_by_collect_rebindsItself :
    let m : Machine FreshPolicy Precise (Object Precise) := fresh {} {}
    let opened := m.opened .defining (.user "x")
    rebindsItself.Structured ∧ m.lookup (.user "x") = none ∧
    (∀ b, m.heap.contains b = true → b.index < m.policy.next) ∧ opened.1 = ⟨0⟩ ∧
    ∃ earlier t later, rebindsItself.moments opened.2 = earlier ++ t :: later ∧
      t.deed = .act (.deref ⟨0⟩) ∧ t.before.recovery.address = none ∧ Unassigned ⟨0⟩ earlier ∧
      (∀ s ∈ earlier, ∀ roots, s.deed ≠ .act (.gc roots)) ∧
      (outcome (deref ⟨0⟩) t.before).1 = .error (.address (.unallocated ⟨0⟩)) := by
  intro m opened
  have structured : rebindsItself.Structured :=
    ⟨trivial, Program.structured_orEnd fun _ => ⟨trivial, Program.structured_orEnd fun _ =>
      ⟨trivial, Program.structured_orEnd fun _ =>
        ⟨trivial, Program.structured_orEnd fun _ => trivial⟩⟩⟩⟩
  have known : ∀ b, m.heap.contains b = true → b.index < m.policy.next := fun b there => by
    cases there
  let rebound := (bind (.user "x") ⟨1⟩ (alloc (.user "y") opened.2).2).2
  let collected := (collect rebound).2
  have dropped : collected.heap.lookup ⟨0⟩ = none := by cbv
  refine ⟨structured, rfl, known, rfl, [⟨opened.2, .alloc (.user "y")⟩, ⟨rebound, .act .collect⟩],
    ⟨collected, .act (.deref ⟨0⟩)⟩, _, rfl, rfl, rfl, ?_, ?_, ?_⟩
  · simp [Unassigned]
  · simp
  · have read : (outcome (deref ⟨0⟩) collected).1 = _ := collected.answer_deref ⟨0⟩
    rw [read, reading_of_strict rfl, dropped]

end AbstractStore
