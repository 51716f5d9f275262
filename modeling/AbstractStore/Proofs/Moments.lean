import AbstractStore.Proofs.Lifetime
import AbstractStore.Proofs.Replay
import AbstractStore.Proofs.Scoping

/-! A program moment by moment.
Whatever a program does to the policy, the heap and the trace it does by allocations, collections,
readings and assignments. Here they are listed with the machines that they are asked of
(`Program.moments`): each finds the memory that the one before it has left, and the last one leaves
that of the program (`Program.spans_run`). -/

namespace AbstractStore

open Machine

section Order

variable {P A V : Type} [Ord A] [Ord V]

/-- The machine that a part of a program is evaluated from. -/
def Setting.enter (m : Machine P A V) : Setting A V → Machine P A V
  | .plain => m
  | .locally => (pushScope m).2
  | .inModule module => { m with module }
  | .strictly => { m with recovery := { m.recovery with address := none } }
  | .recovering handler => { m with recovery := { m.recovery with address := some handler } }
  | .recoveringVariables handler =>
      { m with recovery := { m.recovery with freeVariable := some handler } }

theorem Setting.enclosing_enter (setting : Setting A V) (m : Machine P A V) :
    m.environment.enclosing <:+ (setting.enter m).environment.enclosing := by
  cases setting with
  | locally => exact List.suffix_cons ..
  | plain | inModule | strictly | recovering | recoveringVariables => exact List.suffix_rfl

end Order

section Memories

variable {P A V α : Type} [Address A] [Value V A]

/-- Leaving a scope changes the bindings at most. -/
theorem Machine.left_popScope (m : Machine P A V) : ∃ environment,
    (outcome popScope m).2 = { m with environment } := by
  rw [outcome_popScope]
  cases m.environment.pop? with
  | none => exact ⟨m.environment, rfl⟩
  | some popped => exact ⟨popped.2, rfl⟩

theorem Machine.left_locally (body : Eval P A V α) (m : Machine P A V) : ∃ environment,
    (outcome (locally body) m).2 = { (outcome body (pushScope m).2).2 with environment } := by
  obtain ⟨environment, left⟩ := left_popScope (outcome body (pushScope m).2).2
  refine ⟨environment, ?_⟩
  rw [outcome_locally, ← left]
  simp only
  generalize outcome popScope (outcome body (pushScope m).2).2 = left
  rcases left with ⟨_ | _, left⟩ <;> rfl

/-- What was in force before an evaluation is put back after it, and nothing else is touched. -/
theorem Setting.left_enclose (setting : Setting A V) (body : Eval P A V α) (m : Machine P A V) :
    ∃ environment module recovery, (outcome (setting.enclose body) m).2 =
      { (outcome body (setting.enter m)).2 with environment, module, recovery } := by
  cases setting with
  | locally =>
    obtain ⟨environment, left⟩ := m.left_locally body
    exact ⟨environment, _, _, left⟩
  | plain | inModule | strictly | recovering | recoveringVariables => exact ⟨_, _, _, rfl⟩

theorem Setting.memory_enter (setting : Setting A V) (m : Machine P A V) :
    (setting.enter m).memory = m.memory := by
  cases setting <;> rfl

/-- What is asked to have an address for a name. -/
def Machine.momentsOfLookupOrAlloc (name : Name) (m : Machine P A V) : List (Moment P A V) :=
  match m.lookup name with
  | some _ => []
  | none => [⟨m, .alloc name⟩]

theorem Machine.environment_of_mem_lookupOrAlloc {name : Name} {m : Machine P A V}
    {t : Moment P A V} (moment : t ∈ momentsOfLookupOrAlloc name m) :
    t.before.environment = m.environment := by
  unfold momentsOfLookupOrAlloc at moment
  cases found : m.lookup name with
  | some a => simp [found] at moment
  | none =>
    rw [found] at moment
    rw [List.mem_singleton.1 moment]

/-- What the body of a definition has come to is stored, if it has come to a value. -/
def Machine.momentsOfStore (a : A) (ended : Except (Error A) V × Machine P A V) :
    List (Moment P A V) :=
  match ended with
  | (.ok v, left) => [⟨left, .act (.assign a v)⟩]
  | (.error _, _) => []

theorem Machine.environment_of_mem_store {a : A} {ended : Except (Error A) V × Machine P A V}
    {t : Moment P A V} (moment : t ∈ momentsOfStore a ended) :
    t.before.environment = ended.2.environment := by
  rcases ended with ⟨e | v, left⟩
  · exact absurd moment List.not_mem_nil
  · rw [List.mem_singleton.1 moment]

end Memories

section Policy

variable {P A V : Type} [Address A] [Value V A] [AllocationPolicy P A]

namespace Machine

/-- A value is put at an address of its own. -/
def momentsOfBox (v : V) (m : Machine P A V) : List (Moment P A V) :=
  let (name, m) := gensym m
  Deed.moments m [.alloc name, .act (.assign (alloc name m).1 v)]

def momentsOfFreeVariable (name : Name) (m : Machine P A V) : List (Moment P A V) :=
  let fault : FreeVariable := ⟨name, m.module, m.span⟩
  match m.recovery.answerVariable fault with
  | some v => momentsOfBox v (m.note (.resumedVariable fault v))
  | none => []

def momentsOfResolve (name : Name) (m : Machine P A V) : List (Moment P A V) :=
  match m.lookup name with
  | some _ => []
  | none => momentsOfFreeVariable name m

end Machine

/-- The moments of an operation. The operations that are left out work on no memory. -/
def Op.moments {β : Type} (m : Machine P A V) : Op P A V β → List (Moment P A V)
  | .alloc name => [⟨m, .alloc name⟩]
  | .gc roots => [⟨m, .act (.gc roots)⟩]
  | .collect => [⟨m, .act .collect⟩]
  | .deref a => [⟨m, .act (.deref a)⟩]
  | .assign a v => [⟨m, .act (.assign a v)⟩]
  | .box v => momentsOfBox v m
  | .lookupOrAlloc name => momentsOfLookupOrAlloc name m
  | .freeVariable name => momentsOfFreeVariable name m
  | .resolve name => momentsOfResolve name m
  | _ => []

/-- What the body of a definition has come to when its scope has been left. -/
def Machine.evaluated (name : Name) (body : Eval P A V V) (m : Machine P A V) :
    Except (Error A) V × Machine P A V :=
  let (a, placed) := lookupOrAlloc name m
  outcome (locally (perform (bind name a) >>= fun _ => body)) (placed.note (.defining name a))

/-- The moments of a program that is run from a machine, in order. -/
def Program.moments {α : Type} : Program P A V α → Machine P A V → List (Moment P A V)
  | .done _, _ => []
  | .act op next, m =>
      let (answer, after) := outcome op.perform m
      op.moments m ++ (next answer).moments after
  | .within setting body next, m =>
      let (answer, after) := outcome (setting.enclose body.run) m
      body.moments (setting.enter m) ++ (next answer).moments after
  | .define name body next, m =>
      let (a, opened) := m.opened .defining name
      let ended := m.evaluated name body.run
      let (answer, after) := outcome (Machine.define name body.run) m
      momentsOfLookupOrAlloc name m ++ body.moments opened ++ momentsOfStore a ended ++
        (next answer).moments after
  | .delegate name body next, m =>
      let (a, opened) := m.opened .delegating name
      let (answer, after) := outcome (Machine.delegate name fun a => (body a).run) m
      momentsOfLookupOrAlloc name m ++ (body a).moments opened ++ (next answer).moments after

namespace Machine

theorem left_evaluated (name : Name) (body : Eval P A V V) (m : Machine P A V) : ∃ environment,
    (m.evaluated name body).2 =
      { (outcome body (m.opened .defining name).2).2 with environment } :=
  left_locally ..

theorem left_delegate {α : Type} (name : Name) (body : A → Eval P A V α) (m : Machine P A V) :
    ∃ environment, (outcome (delegate name body) m).2 =
      { (outcome (body (m.opened .delegating name).1) (m.opened .delegating name).2).2 with
        environment } := by
  let a := (lookupOrAlloc name m).1
  let announced := (lookupOrAlloc name m).2.note (.delegating name a)
  exact left_locally (perform (Machine.bind name a) >>= fun _ => body a) announced

theorem outcome_define_eq (name : Name) (body : Eval P A V V) (m : Machine P A V) :
    outcome (define name body) m = match m.evaluated name body with
      | (.ok v, left) =>
        (.ok (v, (m.opened .defining name).1), (assign (m.opened .defining name).1 v left).2)
      | (.error e, left) => (.error e, left) := by
  let a := (lookupOrAlloc name m).1
  let announced := (lookupOrAlloc name m).2.note (.defining name a)
  have defined : outcome (define name body) m =
    outcome (locally (perform (Machine.bind name a) >>= fun _ => body) >>= fun v =>
      perform (Machine.assign a v) >>= fun _ => pure (v, a)) announced := rfl
  have evaluated : outcome (locally (perform (Machine.bind name a) >>= fun _ => body)) announced =
    m.evaluated name body := rfl
  rw [defined, outcome_bind, evaluated]
  rcases m.evaluated name body with ⟨e | v, left⟩ <;> rfl

variable (m : Machine P A V)

theorem spans_lookupOrAlloc (name : Name) :
    Spans m.memory (lookupOrAlloc name m).2.memory (momentsOfLookupOrAlloc name m) := by
  unfold lookupOrAlloc momentsOfLookupOrAlloc
  cases m.lookup name with
  | some a => rfl
  | none => exact ⟨rfl, rfl⟩

theorem spans_box (v : V) : Spans m.memory (box v m).2.memory (momentsOfBox v m) :=
  ⟨rfl, rfl, rfl⟩

theorem spans_freeVariable (name : Name) :
    Spans m.memory (outcome (freeVariable name) m).2.memory (momentsOfFreeVariable name m) := by
  rw [outcome_freeVariable, momentsOfFreeVariable]
  simp only
  cases m.recovery.answerVariable ⟨name, m.module, m.span⟩ with
  | some v => exact spans_box (m.note (.resumedVariable ⟨name, m.module, m.span⟩ v)) v
  | none => rfl

theorem spans_resolve (name : Name) :
    Spans m.memory (outcome (resolve name) m).2.memory (momentsOfResolve name m) := by
  rw [outcome_resolve, momentsOfResolve]
  cases m.lookup name with
  | some a => rfl
  | none => exact m.spans_freeVariable name

/-- A definition allocates if it has to, does what its body does and stores what the body comes
to. -/
theorem spans_define (name : Name) (body : Eval P A V V) {inner : List (Moment P A V)}
    (spans : Spans (m.opened .defining name).2.memory
      (outcome body (m.opened .defining name).2).2.memory inner) :
    Spans m.memory (outcome (define name body) m).2.memory
      (momentsOfLookupOrAlloc name m ++ inner ++
        momentsOfStore (m.opened .defining name).1 (m.evaluated name body)) := by
  obtain ⟨environment, left⟩ := m.left_evaluated name body
  have same : (m.evaluated name body).2.memory =
      (outcome body (m.opened .defining name).2).2.memory := by
    rw [left]
    rfl
  rw [← same] at spans
  refine spans_append_iff.2 ⟨_, spans_append_iff.2 ⟨_, m.spans_lookupOrAlloc name, spans⟩, ?_⟩
  rw [outcome_define_eq]
  rcases m.evaluated name body with ⟨e | v, left⟩
  · rfl
  · exact ⟨rfl, rfl⟩

theorem spans_delegate {α : Type} (name : Name) (body : A → Eval P A V α)
    {inner : List (Moment P A V)}
    (spans : Spans (m.opened .delegating name).2.memory
      (outcome (body (m.opened .delegating name).1) (m.opened .delegating name).2).2.memory inner) :
    Spans m.memory (outcome (delegate name body) m).2.memory
      (momentsOfLookupOrAlloc name m ++ inner) := by
  obtain ⟨environment, left⟩ := m.left_delegate name body
  refine spans_append_iff.2 ⟨_, m.spans_lookupOrAlloc name, ?_⟩
  rw [left]
  exact spans

end Machine

theorem Op.spans_perform {β : Type} (op : Op P A V β) (m : Machine P A V) :
    Spans m.memory (outcome op.perform m).2.memory (op.moments m) := by
  cases op with
  | alloc | gc | collect | deref | assign => exact ⟨rfl, rfl⟩
  | box v => exact m.spans_box v
  | lookupOrAlloc name => exact m.spans_lookupOrAlloc name
  | freeVariable name => exact m.spans_freeVariable name
  | resolve name => exact m.spans_resolve name
  | popScope =>
    obtain ⟨environment, left⟩ := m.left_popScope
    change (outcome Machine.popScope m).2.memory = m.memory
    rw [left]
    rfl
  | lookup | bind | pushScope | gensym | addRoot | removeRoot | setModule | setSpan | setRecovery
  | rebind | inspect => rfl

/-- The moments of a program lead from its start to its end. -/
theorem Program.spans_run {α : Type} (program : Program P A V α) (m : Machine P A V) :
    Spans m.memory (outcome program.run m).2.memory (program.moments m) := by
  induction program generalizing m with
  | done result => rfl
  | act op next ih => exact spans_append_iff.2 ⟨_, op.spans_perform m, ih _ _⟩
  | within setting body next ih_body ih_next =>
    obtain ⟨environment, module, recovery, left⟩ := setting.left_enclose body.run m
    have same : (outcome (setting.enclose body.run) m).2.memory =
        (outcome body.run (setting.enter m)).2.memory := by
      rw [left]
      rfl
    have inner := ih_body (setting.enter m)
    rw [setting.memory_enter, ← same] at inner
    exact spans_append_iff.2 ⟨_, inner, ih_next _ _⟩
  | define name body next ih_body ih_next =>
    exact spans_append_iff.2 ⟨_, m.spans_define name body.run (ih_body _), ih_next _ _⟩
  | delegate name body next ih_body ih_next =>
    exact spans_append_iff.2
      ⟨_, m.spans_delegate name (fun a => (body a).run) (ih_body _ _), ih_next _ _⟩

/-! ### The scopes that the moments are in -/

namespace Machine

variable {m : Machine P A V} {t : Moment P A V}

theorem environment_of_mem_box {v : V} (moment : t ∈ momentsOfBox v m) :
    t.before.environment = m.environment := by
  obtain rfl | moment := List.mem_cons.1 moment
  · rfl
  · rw [List.mem_singleton.1 moment]
    rfl

theorem environment_of_mem_freeVariable {name : Name}
    (moment : t ∈ momentsOfFreeVariable name m) : t.before.environment = m.environment := by
  unfold momentsOfFreeVariable at moment
  cases answer : m.recovery.answerVariable ⟨name, m.module, m.span⟩ with
  | some v =>
    simp only [answer] at moment
    have noted := environment_of_mem_box moment
    exact noted
  | none => simp [answer] at moment

theorem environment_of_mem_resolve {name : Name} (moment : t ∈ momentsOfResolve name m) :
    t.before.environment = m.environment := by
  unfold momentsOfResolve at moment
  cases found : m.lookup name with
  | some a => simp [found] at moment
  | none =>
    rw [found] at moment
    exact environment_of_mem_freeVariable moment

end Machine

/-- No operation asks anything in other scopes than those that it is begun in. -/
theorem Op.environment_of_mem_moments {β : Type} {op : Op P A V β} {m : Machine P A V}
    {t : Moment P A V} (moment : t ∈ op.moments m) : t.before.environment = m.environment := by
  cases op with
  | alloc | gc | collect | deref | assign => rw [List.mem_singleton.1 moment]
  | box v => exact environment_of_mem_box moment
  | lookupOrAlloc name => exact environment_of_mem_lookupOrAlloc moment
  | freeVariable name => exact environment_of_mem_freeVariable moment
  | resolve name => exact environment_of_mem_resolve moment
  | popScope | lookup | bind | pushScope | gensym | addRoot | removeRoot | setModule | setSpan
  | setRecovery | rebind | inspect => exact absurd moment List.not_mem_nil

theorem Machine.environment_evaluated {body : Eval P A V V} (keeps : KeepsEnclosing body)
    (name : Name) (m : Machine P A V) : (m.evaluated name body).2.environment = m.environment := by
  let a := (lookupOrAlloc name m).1
  let announced := (lookupOrAlloc name m).2.note (.defining name a)
  have evaluated : m.evaluated name body =
    outcome (locally (perform (Machine.bind name a) >>= fun _ => body)) announced := rfl
  rw [evaluated, (keeps.bound name a).outcome_locally]
  exact environment_lookupOrAlloc name m

theorem Machine.enclosing_opened (announce : Name → A → Event A V) (name : Name)
    (m : Machine P A V) :
    (m.opened announce name).2.environment.enclosing = m.environment.frames :=
  congrArg Environment.frames (environment_lookupOrAlloc name m)

/-- Whatever scopes a structured program enters, the scopes around the one it is begun in stay
around. -/
theorem Program.enclosing_of_mem_moments {α : Type} {program : Program P A V α}
    (structured : program.Structured) {m : Machine P A V} {t : Moment P A V}
    (moment : t ∈ program.moments m) :
    m.environment.enclosing <:+ t.before.environment.enclosing := by
  induction program generalizing m with
  | done result => exact absurd moment List.not_mem_nil
  | act op next ih =>
    obtain moment | moment := List.mem_append.1 moment
    · rw [op.environment_of_mem_moments moment]
    · rw [← (Op.confined_perform structured.1 m).enclosing]
      exact ih _ (structured.2 _) moment
  | within setting body next ih_body ih_next =>
    obtain moment | moment := List.mem_append.1 moment
    · exact (setting.enclosing_enter m).trans (ih_body structured.1 moment)
    · rw [← (keepsEnclosing_run structured.1).enclose setting m]
      exact ih_next _ (structured.2 _) moment
  | define name body next ih_body ih_next =>
    have keeps := keepsEnclosing_run structured.1
    obtain moment | moment := List.mem_append.1 moment
    · obtain moment | moment := List.mem_append.1 moment
      · obtain moment | moment := List.mem_append.1 moment
        · rw [environment_of_mem_lookupOrAlloc moment]
        · have inside := ih_body structured.1 (m := (m.opened .defining name).2) moment
          rw [enclosing_opened] at inside
          exact (List.suffix_cons ..).trans inside
      · rw [environment_of_mem_store moment, m.environment_evaluated keeps]
    · have same : (outcome (Machine.define name body.run) m).2.environment = m.environment := by
        rw [keeps.outcome_define, environment_store]
      rw [← same]
      exact ih_next _ (structured.2 _) moment
  | delegate name body next ih_body ih_next =>
    obtain moment | moment := List.mem_append.1 moment
    · obtain moment | moment := List.mem_append.1 moment
      · rw [environment_of_mem_lookupOrAlloc moment]
      · have inside := ih_body _ (structured.1 _) (m := (m.opened .delegating name).2) moment
        rw [enclosing_opened] at inside
        exact (List.suffix_cons ..).trans inside
    · have same : (outcome (Machine.delegate name fun a => (body a).run) m).2.environment =
          m.environment := by
        rw [KeepsEnclosing.outcome_delegate fun a => keepsEnclosing_run (structured.1 a)]
        rfl
      rw [← same]
      exact ih_next _ (structured.2 _) moment

end Policy

end AbstractStore
