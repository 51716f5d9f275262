import AbstractStore.Object
import AbstractStore.Proofs.Reachability
import AbstractStore.Proofs.Requests
import Mathlib

/-! The life of an address.
A run leaves marks on an address: its allocations and what is assigned to it. A collection that
does not reach the address wipes them out. What is read at the address is told by the marks that
are left, whatever is done to other addresses. -/

namespace AbstractStore

open Machine

/-- What an assignment makes of a cell. -/
def Cell.store {V A : Type} [Value V A] (c : Cell V) : V × StoreMode → Cell V
  | (v, .strong) => .singleton v
  | (v, .weak) => c.insert v

namespace Cell

variable {V A : Type} [Value V A] {stored : List (V × StoreMode)} {v : V}

/-- The values that are left by assignments one after the other. -/
def ofAssignments (stored : List (V × StoreMode)) : Cell V := stored.foldl store ∅

theorem ofAssignments_concat (stored : List (V × StoreMode)) (s : V × StoreMode) :
    ofAssignments (stored ++ [s]) = (ofAssignments stored).store s := by
  simp [ofAssignments]

theorem isEmpty_ofAssignments : (ofAssignments stored).isEmpty = true ↔ stored = [] := by
  induction stored using List.reverseRecOn with
  | nil => exact iff_of_true rfl rfl
  | append_singleton stored s _ =>
    refine iff_of_false (Bool.eq_false_iff.1 (AscSet.isEmpty_eq_false_iff.2 ⟨s.1, ?_⟩)) (by simp)
    rw [ofAssignments_concat]
    rcases s with ⟨v, mode⟩
    cases mode <;> simp [store]

theorem mem_ofAssignments_of_weak (weak : ∀ s ∈ stored, s.2 = .weak) :
    v ∈ ofAssignments stored ↔ ∃ s ∈ stored, s.1 = v := by
  induction stored using List.reverseRecOn with
  | nil => simp [ofAssignments]
  | append_singleton stored s ih =>
    obtain ⟨before, last⟩ : (∀ s ∈ stored, s.2 = .weak) ∧ s.2 = .weak := by
      simpa [or_imp, forall_and] using weak
    rcases s with ⟨w, mode⟩
    obtain rfl : mode = .weak := last
    have added : v ∈ (ofAssignments stored).store (w, .weak) ↔ v = w ∨ v ∈ ofAssignments stored :=
      AscSet.mem_insert
    rw [ofAssignments_concat, added, ih before]
    simp only [List.mem_append, List.mem_singleton, or_and_right, exists_or, exists_eq_left]
    exact or_comm.trans (or_congr_right eq_comm)

theorem ofAssignments_of_strong (last : stored.getLast? = some (v, .strong)) :
    ofAssignments stored = .singleton v := by
  obtain ⟨before, rfl⟩ := List.getLast?_eq_some_iff.1 last
  exact ofAssignments_concat ..

end Cell

/-- What is done to an address. -/
inductive Mark (V : Type) where
  | allocated
  | assigned (v : V) (mode : StoreMode)
  deriving DecidableEq

namespace Mark

variable {V A : Type} [Value V A] {marks : List (Mark V)} {mark : Mark V}

def assignment? : Mark V → Option (V × StoreMode)
  | .allocated => none
  | .assigned v mode => some (v, mode)

/-- The assignments among marks, in order. -/
def assignments (marks : List (Mark V)) : List (V × StoreMode) := marks.filterMap assignment?

/-- What there is at an address after one more mark. -/
def leave (content : Option (Cell V)) : Mark V → Option (Cell V)
  | .allocated => some (content.getD ∅)
  | .assigned v mode => some ((content.getD ∅).store (v, mode))

/-- What there is at an address that bears the marks. -/
def content (marks : List (Mark V)) : Option (Cell V) :=
  if marks = [] then none else some (.ofAssignments (assignments marks))

theorem allocated_mem_of_no_assignment (borne : marks ≠ [])
    (none_assigned : assignments marks = []) : .allocated ∈ marks := by
  obtain ⟨mark, later, rfl⟩ := List.exists_cons_of_ne_nil borne
  cases mark with
  | allocated => exact List.mem_cons_self ..
  | assigned v mode => simp [assignments, assignment?] at none_assigned

theorem assignments_concat :
    assignments (marks ++ [mark]) = assignments marks ++ mark.assignment?.toList := by
  cases mark <;> simp [assignments, List.filterMap_cons, assignment?]

theorem content_concat : content (marks ++ [mark]) = leave (content marks) mark := by
  have values : (content marks).getD ∅ = .ofAssignments (assignments marks) := by
    unfold content
    split
    next bare => subst bare; rfl
    next => rfl
  rw [content, if_neg (List.concat_ne_nil mark marks), assignments_concat]
  cases mark with
  | allocated => simp [leave, values, assignment?]
  | assigned v mode => simp [leave, values, assignment?, Cell.ofAssignments_concat]

end Mark

/-- What a client that allocates does next. -/
inductive Deed (A V : Type) [Ord A] where
  | alloc (name : Name)
  | act (step : Step A V)

section Runs

variable {P A V : Type} [Address A] [Value V A]

/-- A deed and the machine that it is done to. -/
structure Moment (P A V : Type) [Ord A] [Ord V] where
  before : Machine P A V
  deed : Deed A V

instance {h : Heap A V} {roots : LiveSet A} {a : A} : Decidable (h.Reaches roots a) :=
  decidable_of_iff _ Heap.mem_reachable

namespace Moment

/-- The roots of a collection. -/
def roots? : Moment P A V → Option (LiveSet A)
  | ⟨_, .act (.gc roots)⟩ => some roots
  | ⟨m, .act .collect⟩ => some m.liveRoots
  | _ => none

/-- Whether this is a collection to which no path leads from its roots to the address. -/
def drops (a : A) (t : Moment P A V) : Bool :=
  t.roots?.any fun roots => ¬ t.before.heap.Reaches roots a

variable [AllocationPolicy P A]

def mark? (a : A) : Moment P A V → Option (Mark V)
  | ⟨m, .alloc name⟩ => if (alloc name m).1 = a then some .allocated else none
  | ⟨m, .act (.assign b v)⟩ => if b = a then some (.assigned v (m.storeMode a)) else none
  | _ => none

theorem assigned_of_mark {t : Moment P A V} {a : A} {mark : Mark V} {s : V × StoreMode}
    (marked : t.mark? a = some mark) (assigns : mark.assignment? = some s) :
    t.deed = .act (.assign a s.1) ∧ s.2 = t.before.storeMode a := by
  obtain ⟨m, deed⟩ := t
  cases deed with
  | alloc name =>
    obtain ⟨-, same⟩ := Option.ite_none_right_eq_some.1 marked
    cases same
    cases assigns
  | act step =>
    cases step with
    | assign b v =>
      obtain ⟨rfl, same⟩ := Option.ite_none_right_eq_some.1 marked
      cases same
      cases assigns
      exact ⟨rfl, rfl⟩
    | _ => cases marked

end Moment

/-- The moments after the last one that drops the address. -/
def window (a : A) (moments : List (Moment P A V)) : List (Moment P A V) :=
  moments.rtakeWhile fun t => !t.drops a

theorem mem_of_mem_window {moments : List (Moment P A V)} {a : A} {t : Moment P A V}
    (recent : t ∈ window a moments) : t ∈ moments :=
  (List.rtakeWhile_suffix _ _).mem recent

/-- What is read at an address is told by the marks that it bears. -/
theorem Machine.reading_of_marks {m : Machine P A V} {a : A} {marks : List (Mark V)}
    (strict : m.recovery.address = none) (stored : m.heap.lookup a = Mark.content marks) :
    m.reading a =
      if marks = [] then .error (.address (.unallocated a))
      else if Mark.assignments marks = [] then .error (.address (.uninitialized a))
      else .ok (.ofAssignments (Mark.assignments marks)) := by
  rw [reading_of_strict strict, stored, Mark.content]
  by_cases bare : marks = []
  · simp [bare]
  by_cases unassigned : Mark.assignments marks = []
  · simp [bare, unassigned, Cell.isEmpty_ofAssignments.2]
  · have full := mt Cell.isEmpty_ofAssignments.1 unassigned
    simp [bare, unassigned, full]

variable [AllocationPolicy P A]

namespace Deed

def perform : Deed A V → Action P A V Unit
  | .alloc name => do let _ ← Machine.alloc name
  | .act step => do let _ ← step.perform

/-- The machine after deeds done in order. -/
def run (m : Machine P A V) (deeds : List (Deed A V)) : Machine P A V :=
  deeds.foldl (fun m deed => (deed.perform m).2) m

/-- The moments of a run, the first one first. -/
def moments (m : Machine P A V) : List (Deed A V) → List (Moment P A V)
  | [] => []
  | deed :: later => ⟨m, deed⟩ :: moments (deed.perform m).2 later

theorem run_concat (m : Machine P A V) (deeds : List (Deed A V)) (deed : Deed A V) :
    run m (deeds ++ [deed]) = (deed.perform (run m deeds)).2 := by
  simp [run]

theorem moments_concat (m : Machine P A V) (deeds : List (Deed A V)) (deed : Deed A V) :
    moments m (deeds ++ [deed]) = moments m deeds ++ [⟨run m deeds, deed⟩] := by
  induction deeds generalizing m with
  | nil => rfl
  | cons first later ih => exact congrArg (⟨m, first⟩ :: ·) (ih _)

end Deed

/-- The marks that an address bears after the moments of a run. -/
def life (a : A) (moments : List (Moment P A V)) : List (Mark V) :=
  (window a moments).filterMap (·.mark? a)

/-- An assignment that is left was made in the window. -/
theorem exists_of_mem_assignments {moments : List (Moment P A V)} {a : A} {s : V × StoreMode}
    (assigned : s ∈ Mark.assignments (life a moments)) :
    ∃ t ∈ window a moments, t.deed = .act (.assign a s.1) ∧ s.2 = t.before.storeMode a := by
  obtain ⟨mark, borne, assigns⟩ := List.mem_filterMap.1 assigned
  obtain ⟨t, recent, marked⟩ := List.mem_filterMap.1 borne
  exact ⟨t, recent, Moment.assigned_of_mark marked assigns⟩

/-- A deed leaves its mark on an address, unless it drops the address. -/
theorem Deed.lookup_perform (deed : Deed A V) (m : Machine P A V) (a : A) :
    (deed.perform m).2.heap.lookup a =
      if Moment.drops a ⟨m, deed⟩ then none
      else (Moment.mark? a ⟨m, deed⟩).elim (m.heap.lookup a) (Mark.leave (m.heap.lookup a)) := by
  cases deed with
  | alloc name =>
    let handed := (Machine.alloc name m).1
    change (m.heap.reserve handed).lookup a =
      (if handed = a then some Mark.allocated else none).elim _ _
    rw [Heap.lookup_reserve]
    split
    next same => rw [same]; rfl
    next => rfl
  | act step =>
    obtain ⟨trace, journal, same⟩ := step.perform_eq m
    have heap_after : ((act step).perform m).2.heap = step.heap m :=
      congrArg (·.2.heap) same
    rw [heap_after]
    have collected (roots : LiveSet A) : (m.heap.collect roots).lookup a =
        if decide (¬ m.heap.Reaches roots a) = true then none else m.heap.lookup a := by
      rw [Heap.lookup_collect]
      by_cases reached : m.heap.Reaches roots a
      · simp [reached, Heap.mem_reachable]
      · simp [reached, Heap.mem_reachable]
    cases step with
    | assign b v =>
      change (m.heap.assign b v _).lookup a =
        (if b = a then some (Mark.assigned v (m.storeMode a)) else none).elim _ _
      rw [Heap.lookup_assign]
      split
      next same =>
        subst same
        simp only [Option.elim, Mark.leave]
        cases m.storeMode b <;> rfl
      next => rfl
    | gc roots => exact collected roots
    | collect => exact collected m.liveRoots
    | deref | lookup | bind | remove | overwrite | pushScope | popScope | addRoot | removeRoot =>
      rfl

theorem life_concat (a : A) (moments : List (Moment P A V)) (t : Moment P A V) :
    life a (moments ++ [t]) = if t.drops a then [] else life a moments ++ (t.mark? a).toList := by
  unfold life window
  rw [List.rtakeWhile_concat]
  by_cases dropped : t.drops a = true
  · simp [dropped]
  · cases mark : t.mark? a <;> simp [dropped, mark]

/-- What requests work on, and where they are recorded. -/
structure Memory (P A V : Type) [Ord A] [Ord V] where
  policy : P
  heap : Heap A V
  options : Options
  trace : List (Request A V)

def Machine.memory (m : Machine P A V) : Memory P A V := ⟨m.policy, m.heap, m.options, m.trace⟩

/-- The moments lead from one memory to the other: each finds the one that those before it have
left. -/
def Spans (start finish : Memory P A V) : List (Moment P A V) → Prop
  | [] => finish = start
  | t :: later => t.before.memory = start ∧ Spans (t.deed.perform t.before).2.memory finish later

theorem spans_append_iff {start finish : Memory P A V} {moments later : List (Moment P A V)} :
    Spans start finish (moments ++ later) ↔
      ∃ middle, Spans start middle moments ∧ Spans middle finish later := by
  induction moments generalizing start with
  | nil => simp [Spans]
  | cons t moments ih =>
    rw [List.cons_append, Spans, ih]
    constructor
    · rintro ⟨found, middle, first, second⟩
      exact ⟨middle, ⟨found, first⟩, second⟩
    · rintro ⟨middle, ⟨found, first⟩, second⟩
      exact ⟨found, middle, first, second⟩

theorem Deed.spans_moments (m : Machine P A V) (deeds : List (Deed A V)) :
    Spans m.memory (run m deeds).memory (moments m deeds) := by
  induction deeds generalizing m with
  | nil => rfl
  | cons deed later ih => exact ⟨rfl, ih (deed.perform m).2⟩

/-- What there is at an address after some moments is told by the marks that it bears. -/
theorem lookup_of_spans {start finish : Memory P A V} {moments : List (Moment P A V)} {a : A}
    (absent : start.heap.lookup a = none) (spans : Spans start finish moments) :
    finish.heap.lookup a = Mark.content (life a moments) := by
  induction moments using List.reverseRecOn generalizing finish with
  | nil =>
    rw [show finish = start from spans]
    exact absent
  | append_singleton moments t ih =>
    obtain ⟨middle, before, rfl, rfl⟩ := spans_append_iff.1 spans
    have after : (t.deed.perform t.before).2.memory.heap.lookup a = _ :=
      t.deed.lookup_perform t.before a
    have found : t.before.heap.lookup a = Mark.content (life a moments) := ih before
    rw [after, found, life_concat]
    split
    next => rfl
    next =>
      cases t.mark? a with
      | none => simp
      | some mark => exact Mark.content_concat.symm

/-- A deed that does not drop an address leaves a cell where there was one. -/
theorem Deed.contains_perform {deed : Deed A V} {m : Machine P A V} {a : A}
    (kept : Moment.drops a ⟨m, deed⟩ = false) (there : m.heap.contains a = true) :
    (deed.perform m).2.heap.contains a = true := by
  obtain ⟨c, found⟩ := Heap.contains_iff.1 there
  rw [Heap.contains_iff, lookup_perform, kept, found]
  cases Moment.mark? a ⟨m, deed⟩ with
  | none => exact ⟨c, rfl⟩
  | some mark => cases mark <;> exact ⟨_, rfl⟩

/-- A cell that is gone has been dropped at one of the moments. -/
theorem exists_drops_of_gone {start finish : Memory P A V} {moments : List (Moment P A V)} {a : A}
    (spans : Spans start finish moments) (there : start.heap.contains a = true)
    (gone : finish.heap.lookup a = none) :
    ∃ t ∈ moments, t.before.heap.contains a = true ∧ t.drops a = true := by
  induction moments generalizing start with
  | nil =>
    obtain ⟨c, found⟩ := Heap.contains_iff.1 there
    rw [show finish = start from spans, found] at gone
    cases gone
  | cons t later ih =>
    obtain ⟨rfl, rest⟩ := spans
    by_cases dropped : t.drops a = true
    · exact ⟨t, List.mem_cons_self .., there, dropped⟩
    · obtain ⟨s, moment, dropping⟩ :=
        ih rest (Deed.contains_perform (Bool.eq_false_iff.2 dropped) there)
      exact ⟨s, List.mem_cons_of_mem t moment, dropping⟩

theorem lookup_run {m : Machine P A V} {a : A} (absent : m.heap.lookup a = none)
    (deeds : List (Deed A V)) :
    (Deed.run m deeds).heap.lookup a = Mark.content (life a (Deed.moments m deeds)) :=
  lookup_of_spans absent (Deed.spans_moments m deeds)

theorem Deed.run_same (m : Machine P A V) (deeds : List (Deed A V)) :
    (run m deeds).recovery = m.recovery ∧ (run m deeds).options = m.options := by
  induction deeds using List.reverseRecOn with
  | nil => exact ⟨rfl, rfl⟩
  | append_singleton deeds deed ih =>
    rw [run_concat, ← ih.1, ← ih.2]
    cases deed with
    | alloc name => exact ⟨rfl, rfl⟩
    | act step =>
      obtain ⟨trace, journal, same⟩ := step.perform_eq (run m deeds)
      exact ⟨congrArg (·.2.recovery) same, congrArg (·.2.options) same⟩

theorem Deed.options_of_mem_moments {m : Machine P A V} {deeds : List (Deed A V)}
    {t : Moment P A V} (moment : t ∈ moments m deeds) : t.before.options = m.options := by
  induction deeds generalizing m with
  | nil => cases moment
  | cons deed later ih =>
    rcases List.mem_cons.1 moment with rfl | moment
    · rfl
    · exact (ih moment).trans (run_same m [deed]).2

/-- How an assignment that is left was stored the options say, or else the policy as it was then. -/
theorem mode_of_assigned {m : Machine P A V} {a : A} {deeds : List (Deed A V)} {s : V × StoreMode}
    (assigned : s ∈ Mark.assignments (life a (Deed.moments m deeds))) :
    ∃ t ∈ window a (Deed.moments m deeds), t.deed = .act (.assign a s.1) ∧
      s.2 = m.options.storeMode.getD (AllocationPolicy.storeMode t.before.policy a) := by
  obtain ⟨t, recent, assignment, mode⟩ := exists_of_mem_assignments assigned
  refine ⟨t, recent, assignment, ?_⟩
  rw [mode, storeMode, Deed.options_of_mem_moments (mem_of_mem_window recent)]

theorem Machine.lookup_alloc_of_some (m : Machine P A V) (name : Name) (b : A) (c : Cell V)
    (found : m.heap.lookup b = some c) : (alloc name m).2.heap.lookup b = some c := by
  change (m.heap.reserve _).lookup b = some c
  rw [Heap.lookup_reserve]
  split
  next same => rw [same, Heap.valuesAt, found]; rfl
  next => exact found

theorem deref_run (policy : P) (options : Options) (deeds : List (Deed A V)) (a : A) :
    let start : Machine P A V := fresh policy options
    let marks := life a (Deed.moments start deeds)
    (Id.run (deref a (Deed.run start deeds))).1 =
      if marks = [] then .error (.address (.unallocated a))
      else if Mark.assignments marks = [] then .error (.address (.uninitialized a))
      else .ok (.ofAssignments (Mark.assignments marks)) := by
  intro start marks
  have strict : (Deed.run start deeds).recovery.address = none := by
    rw [(Deed.run_same start deeds).1]
    rfl
  rw [answer_deref]
  exact reading_of_marks strict (lookup_run rfl deeds)

/-- What is read at an address after a run from a new machine without handlers: that there is no
cell where the address bears no marks, that there is no value where it was allocated and nothing
was assigned to it, and else what the assignments have left. Where they join it is all that was
assigned, where the last one replaces it is that one; which it is, the options say, or else the
policy at the moment of the assignment. A new allocation changes no cell. -/
theorem deref_of_life (policy : P) (options : Options) (deeds : List (Deed A V)) (a : A) :
    let start : Machine P A V := fresh policy options
    let marks := life a (Deed.moments start deeds)
    let answer := (Id.run (deref a (Deed.run start deeds))).1
    (answer = .error (.address (.unallocated a)) ↔ marks = []) ∧
    (answer = .error (.address (.uninitialized a)) ↔
      .allocated ∈ marks ∧ Mark.assignments marks = []) ∧
    (Mark.assignments marks ≠ [] → ∃ c, answer = .ok c ∧
      ((∀ s ∈ Mark.assignments marks, s.2 = .weak) →
        ∀ v, v ∈ c ↔ ∃ s ∈ Mark.assignments marks, s.1 = v) ∧
      ∀ v, (Mark.assignments marks).getLast? = some (v, .strong) → c = .singleton v) ∧
    (∀ s ∈ Mark.assignments marks, ∃ t ∈ window a (Deed.moments start deeds),
      t.deed = .act (.assign a s.1) ∧
        s.2 = options.storeMode.getD (AllocationPolicy.storeMode t.before.policy a)) ∧
    ∀ (m : Machine P A V) (name : Name) (b : A) (c : Cell V),
      m.heap.lookup b = some c → (alloc name m).2.heap.lookup b = some c := by
  intro start marks answer
  have read : answer = _ := deref_run policy options deeds a
  have modes : ∀ s ∈ Mark.assignments marks, _ :=
    fun s assigned => mode_of_assigned assigned
  by_cases bare : marks = []
  · rw [if_pos bare] at read
    exact ⟨by simp [read, bare], by simp [read, bare],
      fun some_assigned => absurd (by rw [bare]; rfl) some_assigned, modes, lookup_alloc_of_some⟩
  rw [if_neg bare] at read
  by_cases unassigned : Mark.assignments marks = []
  · rw [if_pos unassigned] at read
    have allocated := Mark.allocated_mem_of_no_assignment bare unassigned
    exact ⟨by simp [read, bare], by simp [read, unassigned, allocated],
      fun some_assigned => absurd unassigned some_assigned, modes, lookup_alloc_of_some⟩
  rw [if_neg unassigned] at read
  refine ⟨by simp [read, bare], by simp [read, unassigned], fun _ => ⟨_, read, ?_, ?_⟩, modes,
    lookup_alloc_of_some⟩
  · exact fun weak v => Cell.mem_ofAssignments_of_weak weak
  · exact fun v last => Cell.ofAssignments_of_strong last

/-- An address is assigned to and dropped, and another lets it be assigned to anew. -/
def droppedAndAnew : List (Deed Monovariant (Object Monovariant)) :=
  [.alloc (.user "x"), .act (.assign ⟨.user "x"⟩ .unit), .alloc (.user "y"),
    .act (.gc (.singleton ⟨.user "y"⟩)), .act (.assign ⟨.user "x"⟩ (.integer 1)),
    .act (.assign ⟨.user "y"⟩ (.reference ⟨.user "x"⟩)),
    .act (.gc (.singleton ⟨.user "y"⟩)), .act (.assign ⟨.user "x"⟩ (.integer 2)),
    .alloc (.user "x")]

/-- What is left of the run where assignments join, and where the last one replaces. -/
theorem deref_of_life_droppedAndAnew :
    let joining : Machine PerNamePolicy Monovariant (Object Monovariant) := fresh {} {}
    let replacing : Machine PerNamePolicy Monovariant (Object Monovariant) :=
      fresh {} { storeMode := some .strong }
    let x : Monovariant := ⟨.user "x"⟩
    Mark.assignments (life x (Deed.moments joining droppedAndAnew)) =
      [(.integer 1, .weak), (.integer 2, .weak)] ∧
    (∃ c, (Id.run (deref x (Deed.run joining droppedAndAnew))).1 = .ok c ∧
      ∀ v, v ∈ c ↔ v = .integer 1 ∨ v = .integer 2) ∧
    (Mark.assignments (life x (Deed.moments replacing droppedAndAnew))).getLast? =
      some (.integer 2, .strong) ∧
    (Id.run (deref x (Deed.run replacing droppedAndAnew))).1 = .ok (.singleton (.integer 2)) ∧
    (Deed.run replacing droppedAndAnew).heap.lookup x = some (.singleton (.integer 2)) ∧
    (alloc (.user "x") (Deed.run replacing droppedAndAnew)).2.heap.lookup x =
      some (.singleton (.integer 2)) := by
  intro joining replacing x
  have joined : Mark.assignments (life x (Deed.moments joining droppedAndAnew)) =
      [(.integer 1, .weak), (.integer 2, .weak)] := by cbv
  have replaced : Mark.assignments (life x (Deed.moments replacing droppedAndAnew)) =
      [(.integer 1, .strong), (.integer 2, .strong)] := by cbv
  have stored : (Deed.run replacing droppedAndAnew).heap.lookup x =
      some (.singleton (.integer 2)) := by cbv
  obtain ⟨-, -, readJoined, -, -⟩ := deref_of_life ({} : PerNamePolicy) {} droppedAndAnew x
  obtain ⟨-, -, readReplaced, -, kept⟩ :=
    deref_of_life ({} : PerNamePolicy) { storeMode := some .strong } droppedAndAnew x
  obtain ⟨c, read, members, -⟩ := readJoined fun none_assigned => by
    cases joined.symm.trans none_assigned
  obtain ⟨d, readLast, -, last⟩ := readReplaced fun none_assigned => by
    cases replaced.symm.trans none_assigned
  have final : (Mark.assignments (life x (Deed.moments replacing droppedAndAnew))).getLast? =
      some (.integer 2, .strong) := by
    rw [replaced]
    rfl
  refine ⟨joined, ⟨c, read, fun v => ?_⟩, final, ?_, stored, kept _ _ x _ stored⟩
  · have weak : ∀ s ∈ Mark.assignments (life x (Deed.moments joining droppedAndAnew)),
        s.2 = .weak := by
      rw [joined]
      decide
    exact (members weak v).trans (by rw [joined]; simp [eq_comm])
  · rw [← last _ final]
    exact readLast

end Runs

end AbstractStore
