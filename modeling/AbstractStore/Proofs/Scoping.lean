import AbstractStore.Object
import AbstractStore.Proofs.Programs
import AbstractStore.Proofs.Requests

/-! Scopes that are left as they are entered.
A program that enters scopes only through the constructs that leave them again binds names in its
innermost scope and touches no other, wherever it ends (`Program.confined_run`). So where a construct
leaves its own scope it comes upon the one it was entered from, and what came of its body goes on
unchanged. -/

namespace AbstractStore

open Machine

/-- Anything but the error that the root scope was to be left. -/
def Regular {A α : Type} (result : Except (Error A) α) : Prop := result ≠ .error .scopeUnderflow

theorem Regular.error {A α β : Type} {e : Error A}
    (regular : Regular (.error e : Except (Error A) α)) :
    Regular (.error e : Except (Error A) β) := by
  intro same
  cases same
  exact regular rfl

theorem regular_ok {A α : Type} (a : α) : Regular (.ok a : Except (Error A) α) := by
  intro same
  cases same

theorem regular_address {A α : Type} (fault : AddressFault A) :
    Regular (.error (.address fault) : Except (Error A) α) := by
  intro same
  cases same

theorem regular_freeVariable {A α : Type} (fault : FreeVariable) :
    Regular (.error (.freeVariable fault) : Except (Error A) α) := by
  intro same
  cases same

section Programs

variable {P A V α β : Type} [Ord A] [Ord V]

/-- An operation neither enters nor leaves a scope, nor touches the bindings of an enclosing one. -/
def Op.KeepsScopes : Op P A V β → Prop
  | .pushScope | .popScope => False
  | .rebind change => ∀ e, (change e).enclosing = e.enclosing
  | _ => True

/-- Scopes are entered and left by constructs alone, and the program does not itself end in the error
that the root scope was to be left. -/
def Program.Bracketed {α : Type} : Program P A V α → Prop
  | .done result => Regular result
  | .act op next => op.KeepsScopes ∧ ∀ answer, Regular answer → (next answer).Bracketed
  | .within _ body next => body.Bracketed ∧ ∀ answer, Regular answer → (next answer).Bracketed
  | .define _ body next => body.Bracketed ∧ ∀ answer, Regular answer → (next answer).Bracketed
  | .delegate _ body next =>
      (∀ a, (body a).Bracketed) ∧ ∀ answer, Regular answer → (next answer).Bracketed

/-- Scopes are entered and left by constructs alone, whatever the program ends in. -/
def Program.Structured {α : Type} : Program P A V α → Prop
  | .done _ => True
  | .act op next => op.KeepsScopes ∧ ∀ answer, (next answer).Structured
  | .within _ body next => body.Structured ∧ ∀ answer, (next answer).Structured
  | .define _ body next => body.Structured ∧ ∀ answer, (next answer).Structured
  | .delegate _ body next => (∀ a, (body a).Structured) ∧ ∀ answer, (next answer).Structured

/-- Go on with an answer, or end with the error in its stead. -/
def Program.orEnd (next : β → Program P A V α) : Except (Error A) β → Program P A V α
  | .ok b => next b
  | .error e => .done (.error e)

theorem Program.bracketed_orEnd {next : β → Program P A V α} (later : ∀ b, (next b).Bracketed)
    (answer : Except (Error A) β) (regular : Regular answer) : (orEnd next answer).Bracketed := by
  cases answer with
  | ok b => exact later b
  | error e => exact regular.error

theorem Program.structured_orEnd {next : β → Program P A V α}
    (later : ∀ b, (next b).Structured) (answer : Except (Error A) β) :
    (orEnd next answer).Structured := by
  cases answer with
  | ok b => exact later b
  | error e => trivial

/-- The end of an evaluation, with the bindings that there were before it. -/
def Machine.leave (m : Machine P A V) (ended : Except (Error A) α × Machine P A V) :
    Except (Error A) α × Machine P A V :=
  (ended.1, { ended.2 with environment := m.environment })

/-- What comes of an evaluation: the bindings of the enclosing scopes are as they were, and the root
scope was not to be left. -/
structure Machine.Confines (m : Machine P A V) (ended : Except (Error A) α × Machine P A V) :
    Prop where
  enclosing : ended.2.environment.enclosing = m.environment.enclosing
  regular : Regular ended.1

/-- What comes of a construct with a scope of its own: the bindings of all scopes are as they were,
and the result is that of its body. -/
structure Machine.Restores (m : Machine P A V) (ended : Except (Error A) α × Machine P A V)
    (result : Except (Error A) α) : Prop where
  environment : ended.2.environment = m.environment
  result : ended.1 = result
  regular : Regular ended.1

theorem Machine.restores_leave (m : Machine P A V) {ended : Except (Error A) α × Machine P A V}
    (regular : Regular ended.1) : m.Restores (m.leave ended) ended.1 := ⟨rfl, rfl, regular⟩

theorem Machine.Restores.confines {m : Machine P A V} {ended : Except (Error A) α × Machine P A V}
    {result : Except (Error A) α} (restores : m.Restores ended result) : m.Confines ended :=
  ⟨congrArg _ restores.environment, restores.regular⟩

/-- From every machine an evaluation leaves the bindings of the enclosing scopes as they were. -/
def KeepsEnclosing (eval : Eval P A V α) : Prop := ∀ m : Machine P A V,
  (outcome eval m).2.environment.enclosing = m.environment.enclosing

namespace KeepsEnclosing

theorem observe {eval : Eval P A V β} {next : Except (Error A) β → Eval P A V α}
    (first : KeepsEnclosing eval) (later : ∀ answer, KeepsEnclosing (next answer)) :
    KeepsEnclosing (Machine.observe eval >>= next) :=
  fun m => (later (outcome eval m).1 (outcome eval m).2).trans (first m)

/-- The body of a definition, in the scope where its name is bound. -/
theorem bound {eval : Eval P A V α} (keeps : KeepsEnclosing eval) (name : Name) (a : A) :
    KeepsEnclosing (perform (Machine.bind name a) >>= fun _ => eval) :=
  fun m => keeps (Machine.bind name a m).2

/-- A scope that is kept is left for the one that it was entered from. -/
theorem outcome_locally {eval : Eval P A V α} (keeps : KeepsEnclosing eval) (m : Machine P A V) :
    outcome (locally eval) m = m.leave (outcome eval (pushScope m).2) := by
  have kept := keeps (pushScope m).2
  rw [Machine.outcome_locally]
  generalize outcome eval (pushScope m).2 = inner at kept ⊢
  have left : inner.2.environment.pop? = some (inner.2.environment.innermost, m.environment) := by
    rw [Environment.pop?, kept]
    rfl
  simp only [outcome_popScope, left, leave]

theorem enclose {eval : Eval P A V α} (keeps : KeepsEnclosing eval) (setting : Setting A V) :
    KeepsEnclosing (setting.enclose eval) := by
  intro m
  cases setting with
  | plain => exact keeps m
  | locally => exact congrArg (·.2.environment.enclosing) (keeps.outcome_locally m)
  | inModule | strictly | recovering | recoveringVariables => exact keeps _

end KeepsEnclosing

/-- From every machine an evaluation keeps to the innermost scope, whatever comes of it. -/
def Confined (eval : Eval P A V α) : Prop := ∀ m : Machine P A V, m.Confines (outcome eval m)

namespace Confined

theorem keepsEnclosing {eval : Eval P A V α} (confined : Confined eval) : KeepsEnclosing eval :=
  fun m => (confined m).enclosing

/-- What follows an evaluation is given its answer, an error included. -/
theorem observe {eval : Eval P A V β} {next : Except (Error A) β → Eval P A V α}
    (first : Confined eval) (later : ∀ answer, Regular answer → Confined (next answer)) :
    Confined (Machine.observe eval >>= next) := by
  intro m
  have answered := first m
  have ended := later _ answered.regular (outcome eval m).2
  exact ⟨ended.enclosing.trans answered.enclosing, ended.regular⟩

theorem restores_locally {eval : Eval P A V α} (confined : Confined eval) (m : Machine P A V) :
    m.Restores (outcome (Machine.locally eval) m) (outcome eval (pushScope m).2).1 := by
  rw [confined.keepsEnclosing.outcome_locally]
  exact m.restores_leave (confined _).regular

theorem enclose {eval : Eval P A V α} (confined : Confined eval) (setting : Setting A V) :
    Confined (setting.enclose eval) := by
  intro m
  cases setting with
  | plain => exact confined m
  | locally => exact (confined.restores_locally m).confines
  | inModule | strictly | recovering | recoveringVariables =>
    exact ⟨(confined _).enclosing, (confined _).regular⟩

end Confined

end Programs

section Reading

variable {P A V : Type} [Address A] [Value V A]

namespace Machine

theorem regular_onFault (m : Machine P A V) (fault : AddressFault A) :
    Regular (m.onFault fault) := by
  unfold onFault
  cases m.recovery.answerAddress fault with
  | none => exact regular_address fault
  | some v => exact regular_ok _

theorem regular_reading (m : Machine P A V) (a : A) : Regular (m.reading a) := by
  unfold reading
  cases m.heap.lookup a with
  | none => exact regular_onFault m _
  | some c =>
    change Regular (if c.isEmpty then _ else _)
    split
    next => exact regular_onFault m _
    next => exact regular_ok c

theorem confined_deref (a : A) : Confined (deref a : Eval P A V (Cell V)) := by
  intro m
  obtain ⟨trace, journal, same⟩ := deref_eq a m
  have same : outcome (deref a) m = _ := same
  rw [same]
  exact ⟨rfl, regular_reading m a⟩

end Machine

end Reading

section Evaluations

variable {P A V α : Type} [Address A] [AllocationPolicy P A] [Value V A]

namespace Machine

theorem environment_lookupOrAlloc (name : Name) (m : Machine P A V) :
    (lookupOrAlloc name m).2.environment = m.environment := by
  unfold lookupOrAlloc
  split <;> rfl

theorem confined_freeVariable (name : Name) : Confined (freeVariable name : Eval P A V A) := by
  intro m
  simp only [outcome_freeVariable]
  generalize FreeVariable.mk name m.module m.span = fault
  cases m.recovery.answerVariable fault with
  | none => exact ⟨rfl, regular_freeVariable fault⟩
  | some v => exact ⟨rfl, regular_ok _⟩

theorem confined_resolve (name : Name) : Confined (resolve name : Eval P A V A) := by
  intro m
  rw [outcome_resolve]
  cases m.lookup name with
  | none => exact confined_freeVariable name m
  | some a => exact ⟨rfl, regular_ok a⟩

end Machine

theorem Op.confined_perform {β : Type} {op : Op P A V β} (keeps : op.KeepsScopes) :
    Confined op.perform := by
  cases op with
  | pushScope | popScope => cases keeps
  | deref a => exact confined_deref a
  | freeVariable name => exact confined_freeVariable name
  | resolve name => exact confined_resolve name
  | lookupOrAlloc name =>
    exact fun m => ⟨congrArg _ (environment_lookupOrAlloc name m), regular_ok _⟩
  | rebind change => exact fun m => ⟨keeps m.environment, regular_ok _⟩
  | alloc | gc | collect | assign | lookup | bind | gensym | box | addRoot | removeRoot | setModule
  | setSpan | setRecovery | inspect => exact fun m => ⟨rfl, regular_ok _⟩

/-- The machine as the body of a definition finds it, with the address of the definition. -/
def Machine.opened (announce : Name → A → Event A V) (name : Name) (m : Machine P A V) :
    A × Machine P A V :=
  let (a, m) := lookupOrAlloc name m
  (a, (bind name a (pushScope (m.note (announce name a))).2).2)

/-- The end of a definition: its value is stored, if its body has one. -/
def Machine.store (m : Machine P A V) (a : A) (ended : Except (Error A) V × Machine P A V) :
    Except (Error A) (V × A) × Machine P A V :=
  match m.leave ended with
  | (.ok v, left) => (.ok (v, a), (assign a v left).2)
  | (.error e, left) => (.error e, left)

theorem Machine.environment_store (m : Machine P A V) (a : A)
    (ended : Except (Error A) V × Machine P A V) :
    (m.store a ended).2.environment = m.environment := by
  rcases ended with ⟨e | v, after⟩ <;> rfl

theorem Machine.restores_store (m : Machine P A V) (a : A)
    {ended : Except (Error A) V × Machine P A V} (regular : Regular ended.1) :
    m.Restores (m.store a ended) (ended.1.map (·, a)) := by
  rcases ended with ⟨e | v, after⟩
  · exact ⟨rfl, rfl, regular.error⟩
  · exact ⟨rfl, rfl, regular_ok _⟩

namespace KeepsEnclosing

theorem outcome_delegate {body : A → Eval P A V α} (keeps : ∀ a, KeepsEnclosing (body a))
    (name : Name) (m : Machine P A V) :
    outcome (Machine.delegate name body) m =
      m.leave (outcome (body (m.opened .delegating name).1) (m.opened .delegating name).2) := by
  let a := (lookupOrAlloc name m).1
  let announced := (lookupOrAlloc name m).2.note (.delegating name a)
  have there : announced.environment = m.environment := environment_lookupOrAlloc name m
  have delegated : outcome (Machine.delegate name body) m =
    outcome (locally (perform (Machine.bind name a) >>= fun _ => body a)) announced := rfl
  rw [delegated, ((keeps a).bound name a).outcome_locally, leave, there]
  rfl

theorem outcome_define {body : Eval P A V V} (keeps : KeepsEnclosing body) (name : Name)
    (m : Machine P A V) :
    outcome (Machine.define name body) m =
      m.store (m.opened .defining name).1 (outcome body (m.opened .defining name).2) := by
  let a := (lookupOrAlloc name m).1
  let announced := (lookupOrAlloc name m).2.note (.defining name a)
  have there : announced.environment = m.environment := environment_lookupOrAlloc name m
  have defined : outcome (Machine.define name body) m =
    outcome (locally (perform (Machine.bind name a) >>= fun _ => body) >>= fun v =>
      perform (Machine.assign a v) >>= fun _ => pure (v, a)) announced := rfl
  have started : outcome (perform (Machine.bind name a) >>= fun _ => body)
    (pushScope announced).2 = outcome body (m.opened .defining name).2 := rfl
  rw [defined, outcome_bind, (keeps.bound name a).outcome_locally, started, leave, there]
  generalize outcome body (m.opened .defining name).2 = ended
  rcases ended with ⟨e | v, after⟩ <;> rfl

end KeepsEnclosing

namespace Confined

theorem restores_delegate {body : A → Eval P A V α} (confined : ∀ a, Confined (body a))
    (name : Name) (m : Machine P A V) :
    m.Restores (outcome (Machine.delegate name body) m)
      (outcome (body (m.opened .delegating name).1) (m.opened .delegating name).2).1 := by
  rw [KeepsEnclosing.outcome_delegate fun a => (confined a).keepsEnclosing]
  exact m.restores_leave (confined _ _).regular

theorem restores_define {body : Eval P A V V} (confined : Confined body) (name : Name)
    (m : Machine P A V) :
    m.Restores (outcome (Machine.define name body) m)
      ((outcome body (m.opened .defining name).2).1.map (·, (m.opened .defining name).1)) := by
  rw [confined.keepsEnclosing.outcome_define]
  exact m.restores_store _ (confined _).regular

end Confined

/-- A program whose scopes are those of constructs touches no enclosing one. -/
theorem Program.keepsEnclosing_run {program : Program P A V α} (structured : program.Structured) :
    KeepsEnclosing program.run := by
  induction program with
  | done result => exact fun m => rfl
  | act op next ih =>
    exact (Op.confined_perform structured.1).keepsEnclosing.observe fun answer =>
      ih answer (structured.2 answer)
  | within setting body next ih_body ih_next =>
    exact ((ih_body structured.1).enclose setting).observe fun answer =>
      ih_next answer (structured.2 answer)
  | define name body next ih_body ih_next =>
    have keeps : KeepsEnclosing (Machine.define name body.run) := fun m => by
      rw [(ih_body structured.1).outcome_define, environment_store]
    exact keeps.observe fun answer => ih_next answer (structured.2 answer)
  | delegate name body next ih_body ih_next =>
    have keeps : KeepsEnclosing (Machine.delegate name fun a => (body a).run) := fun m =>
      congrArg (·.2.environment.enclosing)
        (KeepsEnclosing.outcome_delegate (fun a => ih_body a (structured.1 a)) name m)
    exact keeps.observe fun answer => ih_next answer (structured.2 answer)

/-- A program keeps to the innermost scope, by induction on what it does next. -/
theorem Program.confined_run {program : Program P A V α} (bracketed : program.Bracketed) :
    Confined program.run := by
  induction program with
  | done result => exact fun m => ⟨rfl, bracketed⟩
  | act op next ih =>
    exact (Op.confined_perform bracketed.1).observe fun answer regular =>
      ih answer (bracketed.2 answer regular)
  | within setting body next ih_body ih_next =>
    exact ((ih_body bracketed.1).enclose setting).observe fun answer regular =>
      ih_next answer (bracketed.2 answer regular)
  | define name body next ih_body ih_next =>
    have confined : Confined (Machine.define name body.run) := fun m =>
      ((ih_body bracketed.1).restores_define name m).confines
    exact confined.observe fun answer regular => ih_next answer (bracketed.2 answer regular)
  | delegate name body next ih_body ih_next =>
    have confined : Confined (Machine.delegate name fun a => (body a).run) := fun m =>
      (Confined.restores_delegate (fun a => ih_body a (bracketed.1 a)) name m).confines
    exact confined.observe fun answer regular => ih_next answer (bracketed.2 answer regular)

end Evaluations

/-- Wherever a bracketed program ends, the scopes are as many as before and only the innermost may
have other bindings. A scope of its own and both kinds of definitions leave the bindings of all
scopes as they were, and end as their body does. None ends in the error that the root scope was to be
left. -/
theorem scopes_restored {P A V : Type} [Address A] [AllocationPolicy P A] [Value V A] :
    (∀ {α : Type} (program : Program P A V α), program.Bracketed → ∀ m : Machine P A V,
      (outcome program.run m).2.environment.depth = m.environment.depth ∧
        m.Confines (outcome program.run m)) ∧
    (∀ {α : Type} (body : Program P A V α), body.Bracketed → ∀ m : Machine P A V,
      m.Restores (outcome (locally body.run) m) (outcome body.run (pushScope m).2).1) ∧
    (∀ (name : Name) (body : Program P A V V), body.Bracketed → ∀ m : Machine P A V,
      let opened := m.opened .defining name
      m.Restores (outcome (define name body.run) m)
        ((outcome body.run opened.2).1.map (·, opened.1))) ∧
    ∀ {α : Type} (name : Name) (body : A → Program P A V α), (∀ a, (body a).Bracketed) →
      ∀ m : Machine P A V,
        let opened := m.opened .delegating name
        m.Restores (outcome (delegate name fun a => (body a).run) m)
          (outcome (body opened.1).run opened.2).1 := by
  refine ⟨fun program bracketed m => ?_, fun body bracketed m => ?_,
    fun name body bracketed m => ?_, fun name body bracketed m => ?_⟩
  · have confines := Program.confined_run bracketed m
    exact ⟨congrArg (·.length + 1) confines.enclosing, confines⟩
  · exact (Program.confined_run bracketed).restores_locally m
  · exact (Program.confined_run bracketed).restores_define name m
  · exact Confined.restores_delegate (fun a => Program.confined_run (bracketed a)) name m

/-- Read an address and be done. -/
def touches (a : Precise) : Program FreshPolicy Precise (Object Precise) Unit :=
  .act (.deref a) (.orEnd fun _ => .done (.ok ()))

theorem bracketed_touches (a : Precise) : (touches a).Bracketed :=
  ⟨trivial, Program.bracketed_orEnd fun _ => regular_ok ()⟩

theorem outcome_touches {a : Precise} {m : Machine FreshPolicy Precise (Object Precise)}
    (empty : m.heap.lookup a = some ∅) (strict : m.recovery.address = none) :
    (outcome (touches a).run m).1 = .error (.address (.uninitialized a)) := by
  have unread : m.reading a = .error (.address (.uninitialized a)) := by
    rw [reading_of_strict strict, empty]
    rfl
  obtain ⟨trace, journal, same⟩ := deref_eq a m
  have same : outcome (deref a) m = _ := same
  rw [touches, Program.outcome_act, Op.perform, same, unread]
  rfl

/-- The body of a class that reads itself, from a scope further in, before anything is stored. -/
def readsItself (a : Precise) : Program FreshPolicy Precise (Object Precise) Unit :=
  .act (.bind (.user "self") a) (.orEnd fun _ => .within .locally (touches a) .done)

theorem scopes_restored_readsItself :
    let m : Machine FreshPolicy Precise (Object Precise) := (bind (.user "x") ⟨7⟩ (fresh {} {})).2
    (∀ a, (readsItself a).Bracketed) ∧
    m.Restores (outcome (delegate (.user "C") fun a => (readsItself a).run) m)
      (.error (.address (.uninitialized ⟨0⟩))) := by
  intro m
  have bracketed (a : Precise) : (readsItself a).Bracketed :=
    ⟨trivial, Program.bracketed_orEnd fun _ => ⟨bracketed_touches a, fun _ regular => regular⟩⟩
  have restores := scopes_restored.2.2.2 (.user "C") readsItself bracketed m
  have place : (m.opened .delegating (.user "C")).1 = ⟨0⟩ := by decide
  let body := (bind (.user "self") ⟨0⟩ (m.opened .delegating (.user "C")).2).2
  have empty : (pushScope body).2.heap.lookup ⟨0⟩ = some ∅ := by decide
  have fails : (outcome (locally (touches ⟨0⟩).run) body).1 =
      .error (.address (.uninitialized ⟨0⟩)) :=
    (scopes_restored.2.1 (touches ⟨0⟩) (bracketed_touches ⟨0⟩) body).result.trans
      (outcome_touches empty rfl)
  simp only [place] at restores
  exact ⟨bracketed, fails ▸ restores⟩

end AbstractStore
