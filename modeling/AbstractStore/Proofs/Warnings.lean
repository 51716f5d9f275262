import AbstractStore.Proofs.Occasions
import AbstractStore.Proofs.Surroundings

/-! What a machine tells of the faults that were recovered.
Each operation recovers at most one fault, which can be told from the machine that it is asked of
(`Op.recovered?`), and warns of that one alone (`Op.warnings_perform`). So the warnings of a program
are those of the faults that were recovered in it, in order, under whatever handlers
(`Program.warnings_run`). -/

namespace AbstractStore

open Machine

/-- A fault with the value that a handler gave to go on with. -/
inductive Recovered (A V : Type) where
  | address (fault : AddressFault A) (v : V)
  | freeVariable (fault : FreeVariable) (v : V)
  deriving DecidableEq

namespace Recovered

variable {A V : Type}

/-- What the machine notes of a recovered fault. -/
def event : Recovered A V → Event A V
  | .address fault v => .resumedFault fault v
  | .freeVariable fault v => .resumedVariable fault v

variable [Address A] [Value V A]

/-- What is told of a recovered fault. -/
def line : Recovered A V → String
  | .address fault v => "WARN resuming from " ++ fault.label ++ " with " ++ Value.literal v
  | .freeVariable fault v => "WARN resuming from free variable " ++ fault.name.label ++ " in " ++
      fault.module.label ++ " with " ++ Value.literal v

theorem line_event (r : Recovered A V) : r.event.line = r.line := by
  have atAddress : "WARN" ++ " " ++ "resuming from " = "WARN resuming from " := by decide +kernel
  have ofVariable : "WARN" ++ " " ++ "resuming from free variable " =
    "WARN resuming from free variable " := by decide +kernel
  -- Only these parts of the lines are spelled differently; to compare whole lines would unfold them.
  unfold Event.line Event.message Event.level Level.label line
  cases r with
  | address fault v =>
    rw [← atAddress]
    simp only [event, String.append_assoc]
  | freeVariable fault v =>
    rw [← ofVariable]
    simp only [event, String.append_assoc]

end Recovered

section Faults

variable {P A V : Type} [Address A] [Value V A] {m : Machine P A V}

namespace Machine

/-- The lines that a machine has told at the level of warnings. -/
def warnings (m : Machine P A V) : List String :=
  (m.journal.filter fun e => e.level = .warn).map Event.line

/-- The fault that is recovered when an address is read. -/
def recoveredAt (m : Machine P A V) (a : A) : Option (Recovered A V) :=
  (m.heap.fault? a).bind fun fault => (m.recovery.answerAddress fault).map (.address fault)

/-- The fault that is recovered when a name turns out to be free. -/
def recoveredVariable (m : Machine P A V) (name : Name) : Option (Recovered A V) :=
  (m.recovery.answerVariable ⟨name, m.module, m.span⟩).map (.freeVariable ⟨name, m.module, m.span⟩)

theorem warnings_recovered (m : Machine P A V) (r : Recovered A V) :
    (m.note r.event).warnings = m.warnings ++ [r.line] := by
  rw [← r.line_event]
  cases r <;> simp [warnings, note, Recovered.event, Event.level]

/-- What is told at lower levels is no warning. -/
theorem warnings_of_quiet {m n : Machine P A V} (told : List (Event A V))
    (journal : n.journal = m.journal ++ told) (quiet : ∀ e ∈ told, e.level ≠ .warn) :
    n.warnings = m.warnings := by
  have silent : told.filter (fun e => e.level = .warn) = [] :=
    List.filter_eq_nil_iff.2 fun e among => by simpa using quiet e among
  rw [warnings, journal, List.filter_append, silent, List.append_nil]
  rfl

theorem warnings_resume (m : Machine P A V) (fault : AddressFault A) :
    (outcome (resume fault) m).2.warnings = m.warnings ++
      ((m.recovery.answerAddress fault).map (Recovered.address fault)).toList.map
        Recovered.line := by
  rw [outcome_resume]
  cases m.recovery.answerAddress fault with
  | none => exact (List.append_nil _).symm
  | some v => exact m.warnings_recovered (.address fault v)

theorem warnings_deref (m : Machine P A V) (a : A) : (outcome (deref a) m).2.warnings =
    m.warnings ++ (m.recoveredAt a).toList.map Recovered.line := by
  let asked := (m.record (.deref a)).note (.dereferenced a)
  have quiet : asked.warnings = m.warnings :=
    warnings_of_quiet [.dereferenced a] rfl (by simp [Event.level])
  rw [outcome_deref, recoveredAt, Heap.fault?, ← quiet]
  cases m.heap.lookup a with
  | none => exact asked.warnings_resume (.unallocated a)
  | some c =>
    by_cases empty : c.isEmpty = true
    · simp only [empty, if_true]
      exact asked.warnings_resume (.uninitialized a)
    · simp only [empty]
      exact (List.append_nil _).symm

theorem warnings_gc (roots : LiveSet A) (m : Machine P A V) :
    (gc roots m).2.warnings = m.warnings := by
  let live := m.heap.reachable roots
  exact warnings_of_quiet [.reached roots.size live.size,
      .collected roots.size (m.heap.restrict live).size m.heap.size]
    (List.append_assoc ..) (by simp [Event.level])

theorem warnings_popScope (m : Machine P A V) : (outcome popScope m).2.warnings = m.warnings := by
  obtain ⟨environment, left⟩ := m.left_popScope
  rw [left]
  rfl

theorem warnings_enclose {α : Type} {setting : Setting A V} {body : Eval P A V α}
    {told : List String}
    (inner : (outcome body (setting.enter m)).2.warnings = (setting.enter m).warnings ++ told) :
    (outcome (setting.enclose body) m).2.warnings = m.warnings ++ told := by
  have entered : (setting.enter m).warnings = m.warnings := by cases setting <;> rfl
  obtain ⟨environment, module, recovery, left⟩ := setting.left_enclose body m
  rw [left, ← entered]
  exact inner

/-- What comes of reading an address, with what is warned of. -/
inductive Reads (m : Machine P A V) (a : A) : Except (Error A) (Cell V) → List String → Prop where
  | stored {c : Cell V} (there : m.heap.lookup a = some c) (filled : c ≠ ∅) : m.Reads a (.ok c) []
  | recovered {fault : AddressFault A} {v : V} (met : m.heap.fault? a = some fault)
      (answered : m.recovery.answerAddress fault = some v) :
      m.Reads a (.ok (.singleton v))
        ["WARN resuming from " ++ fault.label ++ " with " ++ Value.literal v]
  | propagated {fault : AddressFault A} (met : m.heap.fault? a = some fault)
      (unanswered : m.recovery.answerAddress fault = none) :
      m.Reads a (.error (.address fault)) []

theorem reads_deref (m : Machine P A V) (a : A) :
    m.Reads a (outcome (deref a) m).1 ((m.recoveredAt a).toList.map Recovered.line) := by
  have read : (outcome (deref a) m).1 = m.reading a := m.answer_deref a
  rw [read, reading_eq, Surroundings.read, recoveredAt]
  cases met : m.heap.fault? a with
  | none =>
    obtain ⟨c, there, filled⟩ := Heap.fault?_eq_none_iff.1 met
    have value : m.heap.valuesAt a = c := by rw [Heap.valuesAt, there, Option.getD_some]
    rw [value]
    exact .stored there filled
  | some fault =>
    have offered : m.surroundings.onFault fault = m.onFault fault := rfl
    simp only [offered, onFault, Option.bind_some]
    cases answer : m.recovery.answerAddress fault with
    | none => exact .propagated met answer
    | some v => exact .recovered met answer

theorem unchanged_deref (m : Machine P A V) (a : A) :
    (outcome (deref a) m).2.heap = m.heap ∧ (outcome (deref a) m).2.environment = m.environment ∧
      (outcome (deref a) m).2.policy = m.policy := by
  obtain ⟨trace, journal, same⟩ := deref_eq a m
  have left : (outcome (deref a) m).2 = { m with trace, journal } := congrArg Prod.snd same
  simp [left]

end Machine

/-- The fault that an operation recovers, if it recovers one. -/
def Op.recovered? {β : Type} (m : Machine P A V) : Op P A V β → Option (Recovered A V)
  | .deref a => m.recoveredAt a
  | .freeVariable name => m.recoveredVariable name
  | .resolve name => if (m.lookup name).isSome then none else m.recoveredVariable name
  | _ => none

namespace Occasion

def recovered? (o : Occasion P A V) : Option (Recovered A V) := o.op.recovered? o.before

/-- What is to be warned of: the faults that are recovered, in order. -/
def warned (occasions : List (Occasion P A V)) : List String :=
  (occasions.filterMap recovered?).map Recovered.line

theorem warned_append (occasions later : List (Occasion P A V)) :
    warned (occasions ++ later) = warned occasions ++ warned later := by
  simp only [warned, List.filterMap_append, List.map_append]

theorem warned_cons (o : Occasion P A V) (later : List (Occasion P A V)) :
    warned (o :: later) = o.recovered?.toList.map Recovered.line ++ warned later := by
  unfold warned
  cases recovers : o.recovered? with
  | none => rw [List.filterMap_cons_none recovers]; rfl
  | some r => rw [List.filterMap_cons_some recovers]; rfl

end Occasion

end Faults

section Operations

variable {P A V : Type} [Address A] [Value V A] [AllocationPolicy P A]

namespace Machine

theorem warnings_box (v : V) (m : Machine P A V) : (box v m).2.warnings = m.warnings := by
  let name := (gensym m).1
  let a := (alloc name (gensym m).2).1
  exact warnings_of_quiet [.allocated name a, .assigned a v] (List.append_assoc ..)
    (by simp [Event.level])

theorem warnings_lookupOrAlloc (name : Name) (m : Machine P A V) :
    (lookupOrAlloc name m).2.warnings = m.warnings := by
  unfold lookupOrAlloc
  cases m.lookup name with
  | some a => rfl
  | none => exact warnings_of_quiet [.allocated name _] rfl (by simp [Event.level])

theorem warnings_assign (a : A) (v : V) (m : Machine P A V) :
    (assign a v m).2.warnings = m.warnings :=
  warnings_of_quiet [.assigned a v] rfl (by simp [Event.level])

theorem warnings_freeVariable (name : Name) (m : Machine P A V) :
    (outcome (freeVariable name) m).2.warnings =
      m.warnings ++ (m.recoveredVariable name).toList.map Recovered.line := by
  simp only [outcome_freeVariable, recoveredVariable]
  generalize FreeVariable.mk name m.module m.span = fault
  cases m.recovery.answerVariable fault with
  | none => exact (List.append_nil _).symm
  | some v => exact (warnings_box v _).trans (m.warnings_recovered (.freeVariable fault v))

end Machine

/-- An operation warns of the fault that it recovers, and of nothing else. -/
theorem Op.warnings_perform {β : Type} (op : Op P A V β) (m : Machine P A V) :
    (outcome op.perform m).2.warnings =
      m.warnings ++ (op.recovered? m).toList.map Recovered.line := by
  have silent {n : Machine P A V} (same : n.warnings = m.warnings) :
      n.warnings = m.warnings ++ (none : Option (Recovered A V)).toList.map Recovered.line :=
    same.trans (List.append_nil _).symm
  cases op with
  | deref a => exact m.warnings_deref a
  | freeVariable name => exact m.warnings_freeVariable name
  | resolve name =>
    have performed : (Op.resolve name : Op P A V A).perform = Machine.resolve name := rfl
    rw [performed, outcome_resolve, Op.recovered?]
    cases m.lookup name with
    | some a => exact silent rfl
    | none => exact m.warnings_freeVariable name
  | alloc name =>
    exact silent (warnings_of_quiet [.allocated name _] rfl (by simp [Event.level]))
  | bind name a =>
    exact silent (warnings_of_quiet [.bound name a] rfl (by simp [Event.level]))
  | gc roots => exact silent (m.warnings_gc roots)
  | collect => exact silent (m.warnings_gc _)
  | assign a v => exact silent (warnings_assign a v m)
  | box v => exact silent (warnings_box v m)
  | lookupOrAlloc name => exact silent (warnings_lookupOrAlloc name m)
  | popScope => exact silent m.warnings_popScope
  | lookup | pushScope | gensym | addRoot | removeRoot | setModule | setSpan | setRecovery | rebind
  | inspect => exact silent rfl

namespace Machine

/-- What comes of a name that is free, with what is warned of. -/
inductive Resumes (m : Machine P A V) (name : Name) : Except (Error A) A → List String → Prop where
  | recovered {v : V} (a : A)
      (answered : m.recovery.answerVariable ⟨name, m.module, m.span⟩ = some v) :
      m.Resumes name (.ok a) ["WARN resuming from free variable " ++ name.label ++ " in " ++
        m.module.label ++ " with " ++ Value.literal v]
  | propagated (unanswered : m.recovery.answerVariable ⟨name, m.module, m.span⟩ = none) :
      m.Resumes name (.error (.freeVariable ⟨name, m.module, m.span⟩)) []

theorem resumes_freeVariable (m : Machine P A V) (name : Name) :
    m.Resumes name (outcome (freeVariable name) m).1
      ((m.recoveredVariable name).toList.map Recovered.line) := by
  simp only [outcome_freeVariable, recoveredVariable]
  cases answer : m.recovery.answerVariable ⟨name, m.module, m.span⟩ with
  | none => exact .propagated answer
  | some v => exact .recovered _ answer

theorem warnings_opened (announce : Name → A → Event A V) (name : Name) (m : Machine P A V)
    (quiet : ∀ a, (announce name a).level ≠ .warn) :
    (m.opened announce name).2.warnings = m.warnings := by
  let a := (lookupOrAlloc name m).1
  rw [← warnings_lookupOrAlloc name m]
  exact warnings_of_quiet [announce name a, .bound name a] (List.append_assoc ..)
    (List.forall_mem_cons.2 ⟨quiet a, by simp [Event.level]⟩)

theorem warned_occasionsOfStore (a : A) (ended : Except (Error A) V × Machine P A V) :
    Occasion.warned (occasionsOfStore a ended) = [] := by
  rcases ended with ⟨e | v, left⟩ <;> rfl

section Definitions

variable {α : Type} {told : List String} (m : Machine P A V) (name : Name)

theorem warnings_define (body : Eval P A V V)
    (inner : (outcome body (m.opened .defining name).2).2.warnings =
      (m.opened .defining name).2.warnings ++ told) :
    (outcome (define name body) m).2.warnings = m.warnings ++ told := by
  have opened := m.warnings_opened .defining name fun a => by simp [Event.level]
  obtain ⟨environment, left⟩ := m.left_evaluated name body
  have evaluated : (m.evaluated name body).2.warnings = m.warnings ++ told := by
    rw [left, ← opened]
    exact inner
  rw [outcome_define_eq, ← evaluated]
  rcases m.evaluated name body with ⟨e | v, left⟩
  · rfl
  · exact warnings_assign _ v left

theorem warnings_delegate (body : A → Eval P A V α)
    (inner : (outcome (body (m.opened .delegating name).1)
      (m.opened .delegating name).2).2.warnings = (m.opened .delegating name).2.warnings ++ told) :
    (outcome (delegate name body) m).2.warnings = m.warnings ++ told := by
  have opened := m.warnings_opened .delegating name fun a => by simp [Event.level]
  obtain ⟨environment, left⟩ := m.left_delegate name body
  rw [left, ← opened]
  exact inner

end Definitions

end Machine

/-- The warnings of a program are those of the faults that are recovered in it, in order. -/
theorem Program.warnings_run {α : Type} (program : Program P A V α) (m : Machine P A V) :
    (outcome program.run m).2.warnings =
      m.warnings ++ Occasion.warned (program.occasions m) := by
  induction program generalizing m with
  | done result => exact (List.append_nil _).symm
  | act op next ih =>
    have first := op.warnings_perform m
    have later := ih (outcome op.perform m).1 (outcome op.perform m).2
    rw [first, List.append_assoc] at later
    simp only [occasions, Occasion.warned_cons]
    exact later
  | within setting body next ih_body ih_next =>
    have first := warnings_enclose (ih_body (setting.enter m))
    have later := ih_next (outcome (setting.enclose body.run) m).1
      (outcome (setting.enclose body.run) m).2
    rw [first, List.append_assoc] at later
    simp only [occasions, Occasion.warned_append]
    exact later
  | define name body next ih_body ih_next =>
    have first := m.warnings_define name body.run (ih_body _)
    have later := ih_next (outcome (Machine.define name body.run) m).1
      (outcome (Machine.define name body.run) m).2
    rw [first, List.append_assoc] at later
    simp only [occasions, List.cons_append, Occasion.warned_cons, Occasion.warned_append,
      warned_occasionsOfStore, List.append_nil]
    exact later
  | delegate name body next ih_body ih_next =>
    have first := m.warnings_delegate name (fun a => (body a).run) (ih_body _ _)
    have later := ih_next (outcome (Machine.delegate name fun a => (body a).run) m).1
      (outcome (Machine.delegate name fun a => (body a).run) m).2
    rw [first, List.append_assoc] at later
    simp only [occasions, List.cons_append, Occasion.warned_cons, Occasion.warned_append]
    exact later

end Operations

/-- No fault is recovered in silence. Whatever constructs put handlers in force, the warnings of a
program are those of the faults that were recovered in it, one for each and in order, and each
operation warns of what it recovers itself. A reading gives the cell that is stored and warns of
nothing, goes on with the value of the handler and warns of that fault and value alone, or ends in
the error and warns of nothing; the heap, the bindings and the policy stay as they are. Likewise for
a name that is free. The search for a member is a program too, and so is any that ends, however
little a handler declares (`Machine.Hunts.run_search`). -/
theorem no_silent_recovery {P A V : Type} [Address A] [Value V A] [AllocationPolicy P A] :
    (∀ {α : Type} (program : Program P A V α) (m : Machine P A V),
      (outcome program.run m).2.warnings = m.warnings ++
        ((program.occasions m).filterMap Occasion.recovered?).map Recovered.line) ∧
    (∀ {β : Type} (op : Op P A V β) (m : Machine P A V),
      (outcome op.perform m).2.warnings =
        m.warnings ++ (op.recovered? m).toList.map Recovered.line) ∧
    (∀ (m : Machine P A V) (a : A),
      let (answer, after) := outcome (deref a) m
      let told := ((Op.deref a).recovered? m).toList.map Recovered.line
      m.Reads a answer told ∧ after.warnings = m.warnings ++ told ∧
      after.heap = m.heap ∧ after.environment = m.environment ∧ after.policy = m.policy ∧
      ∀ fault, m.heap.fault? a = some fault ↔
        m.heap.lookup a = none ∧ fault = .unallocated a ∨
          m.heap.lookup a = some ∅ ∧ fault = .uninitialized a) ∧
    (∀ (m : Machine P A V) (name : Name),
      let (answer, after) := outcome (freeVariable name) m
      let told := ((Op.freeVariable name).recovered? m).toList.map Recovered.line
      m.Resumes name answer told ∧ after.warnings = m.warnings ++ told) ∧
    ∀ (a : A) (member : Name), (Program.lookupMember a member : Program P A (Object A) _).run =
      Machine.lookupMember a member := by
  refine ⟨fun program m => program.warnings_run m, fun op m => op.warnings_perform m,
    fun m a => ?_, fun m name => ?_, Program.run_lookupMember⟩
  · obtain ⟨heap, environment, policy⟩ := m.unchanged_deref a
    exact ⟨m.reads_deref a, m.warnings_deref a, heap, environment, policy,
      fun _ => Heap.fault?_eq_some_iff⟩
  · exact ⟨m.resumes_freeVariable name, m.warnings_freeVariable name⟩

/-- A fault ends a part of an evaluation, is resumed in the next, and so is a free variable. -/
def resumesTwice : Program FreshPolicy Precise (Object Precise) Precise :=
  .within (.recovering resuming)
    (.within .strictly (.act (.deref ⟨7⟩) .done) fun _ => .act (.deref ⟨7⟩) fun _ =>
      .within (.recoveringVariables fun _ => some (.integer 1))
        (.act (.resolve (.user "x")) .done) .done)
    .done

example : (resumesTwice.occasions (fresh {} {})).filterMap Occasion.recovered? =
    [.address (.unallocated ⟨7⟩) .unit, .freeVariable ⟨.user "x", {}, {}⟩ (.integer 1)] := by
  decide +kernel

end AbstractStore
