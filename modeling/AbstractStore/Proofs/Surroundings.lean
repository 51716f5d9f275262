import AbstractStore.Object
import AbstractStore.Proofs.Programs
import AbstractStore.Proofs.Steps

/-! Handlers and modules that are in force for a part of a program.
A machine keeps its module and its handlers in fields, which constructs change for their body and
put back. Here a program is evaluated with the three as arguments (`Surroundings`), on a state that
has none of them (`Workspace`), so nothing is ever put back. Both come to the same
(`Program.conforms_run`): a fault is offered to the handler of the innermost construct around it. -/

namespace AbstractStore

open Machine

/-- What is in force around a part of a program. -/
structure Surroundings (A V : Type) [Ord A] where
  module : ModuleId
  address : Option (AddressHandler A V)
  freeVariable : Option (VariableHandler V)

/-- What a program works on: a machine without its surroundings, and without what it tells of its
work. -/
structure Workspace (P A V : Type) [Ord A] [Ord V] where
  policy : P
  heap : Heap A V
  environment : Environment A
  names : NameSupply
  stackRoots : LiveSet A
  span : Span
  options : Options

section Settings

variable {A V : Type} [Ord A]

/-- The module that a construct puts in force, if it does. -/
def Setting.module? : Setting A V → Option ModuleId
  | .inModule module => some module
  | _ => none

/-- The handler that a construct puts in force for faults at addresses, or that it puts none in
force, if it does either. -/
def Setting.addressHandler? : Setting A V → Option (Option (AddressHandler A V))
  | .strictly => some none
  | .recovering handler => some (some handler)
  | _ => none

def Setting.variableHandler? : Setting A V → Option (VariableHandler V)
  | .recoveringVariables handler => some handler
  | _ => none

/-- The surroundings of what stands inside a construct. -/
def Surroundings.within (s : Surroundings A V) : Setting A V → Surroundings A V
  | .plain | .locally => s
  | .inModule module => { s with module }
  | .strictly => { s with address := none }
  | .recovering handler => { s with address := some handler }
  | .recoveringVariables handler => { s with freeVariable := some handler }

/-- What the innermost construct of its kind around a part of a program puts in force, or else what
is in force around all of them. Constructs are listed from the inside. -/
def Surroundings.inside (s : Surroundings A V) (settings : List (Setting A V)) :
    Surroundings A V where
  module := (settings.findSome? Setting.module?).getD s.module
  address := (settings.findSome? Setting.addressHandler?).getD s.address
  freeVariable := (settings.findSome? Setting.variableHandler?).or s.freeVariable

theorem Surroundings.inside_cons (s : Surroundings A V) (setting : Setting A V)
    (settings : List (Setting A V)) :
    s.inside (setting :: settings) = (s.inside settings).within setting := by
  cases setting <;> rfl

end Settings

section Order

variable {P A V α β : Type} [Ord A] [Ord V]

def Machine.surroundings (m : Machine P A V) : Surroundings A V :=
  ⟨m.module, m.recovery.address, m.recovery.freeVariable⟩

def Machine.workspace (m : Machine P A V) : Workspace P A V :=
  ⟨m.policy, m.heap, m.environment, m.names, m.stackRoots, m.span, m.options⟩

/-- A machine that has told nothing yet. -/
def Workspace.amid (w : Workspace P A V) (s : Surroundings A V) : Machine P A V where
  policy := w.policy
  heap := w.heap
  environment := w.environment
  names := w.names
  stackRoots := w.stackRoots
  module := s.module
  span := w.span
  recovery := ⟨s.address, s.freeVariable⟩
  options := w.options

/-- What a part of a program comes to in given surroundings. -/
abbrev Reference (P A V α : Type) [Ord A] [Ord V] :=
  Surroundings A V → Workspace P A V → Except (Error A) α × Workspace P A V

/-- Enter a scope. -/
def Workspace.push (w : Workspace P A V) : Workspace P A V :=
  { w with environment := w.environment.push }

namespace Reference

def popScope : Reference P A V Unit := fun _ w =>
  match w.environment.pop? with
  | some (_, environment) => (.ok (), { w with environment })
  | none => (.error .scopeUnderflow, w)

theorem popScope_push (s : Surroundings A V) (w : Workspace P A V) :
    popScope s w.push = (.ok (), w) := rfl

/-- Evaluate in a scope of its own, or end with the error that it cannot be left. -/
def inScope (body : Reference P A V α) : Reference P A V α := fun s w =>
  let (result, after) := body s w.push
  match popScope s after with
  | (.ok (), left) => (result, left)
  | (.error e, left) => (.error e, left)

def binding (name : Name) (a : A) (body : Reference P A V α) : Reference P A V α := fun s w =>
  body s { w with environment := w.environment.bind name a }

end Reference

def Setting.around (setting : Setting A V) (body : Reference P A V α) : Reference P A V α :=
  match setting with
  | .locally => Reference.inScope body
  | _ => fun s w => body (s.within setting) w

/-- A part of a program inside constructs, listed from the inside. -/
def Program.nested (settings : List (Setting A V)) (body : Program P A V α) : Program P A V α :=
  settings.foldl (fun inner setting => .within setting inner .done) body

/-- An operation leaves the module and the handlers alone, and does not look at what the machine has
told. -/
def Op.Steady : Op P A V β → Prop
  | .setModule _ | .setRecovery _ => False
  | .inspect view => ∀ m, view m = view (m.workspace.amid m.surroundings)
  | _ => True

/-- The module and the handlers are changed by constructs alone. -/
def Program.Steady {α : Type} : Program P A V α → Prop
  | .done _ => True
  | .act op next => op.Steady ∧ ∀ answer, (next answer).Steady
  | .within _ body next => body.Steady ∧ ∀ answer, (next answer).Steady
  | .define _ body next => body.Steady ∧ ∀ answer, (next answer).Steady
  | .delegate _ body next => (∀ a, (body a).Steady) ∧ ∀ answer, (next answer).Steady

theorem Program.steady_nested {body : Program P A V α} (steady : body.Steady)
    (settings : List (Setting A V)) : (nested settings body).Steady := by
  induction settings generalizing body with
  | nil => exact steady
  | cons setting settings ih => exact ih ⟨steady, fun _ => trivial⟩

/-- To an evaluation it is the same whether a scope without bindings is around it. -/
def Reference.Unscoped (reference : Reference P A V α) : Prop :=
  ∀ s w, reference s w.push = ((reference s w).1, (reference s w).2.push)

theorem Reference.Unscoped.around {reference : Reference P A V α} (unscoped : Unscoped reference)
    (setting : Setting A V) :
    setting.around reference = fun s w => reference (s.within setting) w := by
  cases setting with
  | locally =>
    funext s w
    simp only [Setting.around, inScope, unscoped s w, popScope_push, Surroundings.within]
  | plain | inModule | strictly | recovering | recoveringVariables => rfl

/-- What came of an evaluation is what the reference says, and the surroundings are those at its
start. -/
structure Machine.Follows (m : Machine P A V) (ended : Except (Error A) α × Machine P A V)
    (expected : Except (Error A) α × Workspace P A V) : Prop where
  result : ended.1 = expected.1
  workspace : ended.2.workspace = expected.2
  surroundings : ended.2.surroundings = m.surroundings

/-- An evaluation comes to what a reference says, whatever the machine. -/
def Conforms (eval : Eval P A V α) (reference : Reference P A V α) : Prop :=
  ∀ m : Machine P A V, m.Follows (outcome eval m) (reference m.surroundings m.workspace)

namespace Conforms

variable {eval : Eval P A V α} {reference : Reference P A V α}

/-- What follows an evaluation goes on from the workspace that the reference says. -/
theorem observe {first : Eval P A V β} {referenceFirst : Reference P A V β}
    {next : Except (Error A) β → Eval P A V α} {later : Except (Error A) β → Reference P A V α}
    (conforms : Conforms first referenceFirst)
    (then_ : ∀ answer, Conforms (next answer) (later answer)) :
    Conforms (Machine.observe first >>= next) fun s w =>
      let (answer, after) := referenceFirst s w
      later answer s after := by
  intro m
  have started := conforms m
  have ended := then_ (outcome first m).1 (outcome first m).2
  have continued : outcome (Machine.observe first >>= next) m =
    outcome (next (outcome first m).1) (outcome first m).2 := rfl
  rw [started.surroundings, started.workspace] at ended
  rw [continued]
  simp only [← started.result]
  exact ⟨ended.result, ended.workspace, ended.surroundings.trans started.surroundings⟩

theorem popScope : Conforms (Machine.popScope : Eval P A V Unit) Reference.popScope := by
  intro m
  have same : m.workspace.environment = m.environment := rfl
  simp only [outcome_popScope, Reference.popScope, same]
  cases m.environment.pop? with
  | none => exact ⟨rfl, rfl, rfl⟩
  | some popped => exact ⟨rfl, rfl, rfl⟩

theorem locally (conforms : Conforms eval reference) :
    Conforms (Machine.locally eval) (Reference.inScope reference) := by
  intro m
  have inner := conforms (pushScope m).2
  have expected : Reference.inScope reference m.surroundings m.workspace =
    let (result, after) := reference (pushScope m).2.surroundings (pushScope m).2.workspace
    match Reference.popScope m.surroundings after with
    | (.ok (), final) => (result, final)
    | (.error e, final) => (.error e, final) := rfl
  rw [outcome_locally, expected]
  generalize reference (pushScope m).2.surroundings (pushScope m).2.workspace = foreseen at inner ⊢
  generalize outcome eval (pushScope m).2 = ended at inner ⊢
  obtain ⟨⟨result, after⟩, ⟨_, _⟩⟩ := ended, foreseen
  obtain ⟨rfl, rfl, kept⟩ := inner
  have entry : after.surroundings = m.surroundings := kept
  have left := popScope after
  rw [entry] at left
  simp only
  generalize Reference.popScope m.surroundings after.workspace = foreseen at left ⊢
  generalize outcome Machine.popScope after = ended at left ⊢
  obtain ⟨⟨popped, final⟩, ⟨_, _⟩⟩ := ended, foreseen
  obtain ⟨rfl, rfl, left⟩ := left
  cases popped <;> exact ⟨rfl, rfl, left.trans entry⟩

theorem bindName (conforms : Conforms eval reference) (name : Name) (a : A) :
    Conforms (perform (Machine.bind name a) >>= fun _ => eval)
      (Reference.binding name a reference) := by
  intro m
  have inner := conforms (Machine.bind name a m).2
  exact ⟨inner.result, inner.workspace, inner.surroundings⟩

theorem enclose (conforms : Conforms eval reference) (setting : Setting A V) :
    Conforms (setting.enclose eval) (setting.around reference) := by
  intro m
  cases setting with
  | plain => exact conforms m
  | locally => exact conforms.locally m
  | inModule module =>
    have inner := conforms { m with module }
    exact ⟨inner.result, inner.workspace,
      congrArg ({ · with module := m.module }) inner.surroundings⟩
  | strictly =>
    have inner := conforms { m with recovery := { m.recovery with address := none } }
    exact ⟨inner.result, inner.workspace,
      congrArg ({ · with address := m.recovery.address }) inner.surroundings⟩
  | recovering handler =>
    have inner := conforms { m with recovery := { m.recovery with address := some handler } }
    exact ⟨inner.result, inner.workspace,
      congrArg ({ · with address := m.recovery.address }) inner.surroundings⟩
  | recoveringVariables handler =>
    have inner := conforms { m with recovery := { m.recovery with freeVariable := some handler } }
    exact ⟨inner.result, inner.workspace,
      congrArg ({ · with freeVariable := m.recovery.freeVariable }) inner.surroundings⟩

end Conforms

end Order

section Faults

variable {P A V : Type} [Address A] [Value V A]

/-- The fault that is met at an address, if one is. -/
def Heap.fault? (h : Heap A V) (a : A) : Option (AddressFault A) :=
  match h.lookup a with
  | none => some (.unallocated a)
  | some c => if c.isEmpty then some (.uninitialized a) else none

theorem Heap.fault?_eq_none_iff {h : Heap A V} {a : A} :
    h.fault? a = none ↔ ∃ c, h.lookup a = some c ∧ c ≠ ∅ := by
  unfold fault?
  cases h.lookup a with
  | none => simp
  | some c => simp [← AscSet.isEmpty_iff]

theorem Heap.fault?_eq_some_iff {h : Heap A V} {a : A} {fault : AddressFault A} :
    h.fault? a = some fault ↔
      h.lookup a = none ∧ fault = .unallocated a ∨
        h.lookup a = some ∅ ∧ fault = .uninitialized a := by
  unfold fault?
  cases h.lookup a with
  | none => simp [@eq_comm _ fault]
  | some c =>
    by_cases empty : c = ∅
    · subst empty
      have vacant : (∅ : Cell V).isEmpty = true := rfl
      simp [vacant, @eq_comm _ fault]
    · have filled : c.isEmpty = false := Bool.eq_false_iff.2 (empty ∘ AscSet.isEmpty_iff.1)
      simp [filled, empty]

/-- A fault is offered to the handler in force, and becomes an error where there is none or where it
has no value to go on with. -/
def Surroundings.onFault (s : Surroundings A V) (fault : AddressFault A) :
    Except (Error A) (Cell V) :=
  match s.address.bind (·.answer fault) with
  | some v => .ok (.singleton v)
  | none => .error (.address fault)

def Surroundings.read (s : Surroundings A V) (h : Heap A V) (a : A) : Except (Error A) (Cell V) :=
  match h.fault? a with
  | some fault => s.onFault fault
  | none => .ok (h.valuesAt a)

theorem Machine.reading_eq (m : Machine P A V) (a : A) :
    m.reading a = m.surroundings.read m.heap a := by
  unfold reading Surroundings.read Heap.fault? Heap.valuesAt
  cases m.heap.lookup a with
  | none => rfl
  | some c =>
    cases empty : c.isEmpty with
    | true =>
      simp only [empty, if_true]
      rfl
    | false => simp [empty]

theorem Conforms.deref (a : A) : Conforms (Machine.deref a : Eval P A V _) fun s w =>
    (s.read w.heap a, w) := by
  intro m
  obtain ⟨trace, journal, same⟩ := deref_eq a m
  have same : outcome (Machine.deref a) m = _ := same
  rw [same, reading_eq]
  exact ⟨rfl, rfl, rfl⟩

end Faults

section Evaluation

variable {P A V : Type} [Address A] [Value V A] [AllocationPolicy P A]

namespace Workspace

variable (w : Workspace P A V)

def store (a : A) (v : V) : Workspace P A V :=
  let mode := w.options.storeMode.getD (AllocationPolicy.storeMode w.policy a)
  { w with heap := w.heap.assign a v mode }

def allocate (name : Name) (module : ModuleId) : A × Workspace P A V :=
  let (a, policy) := AllocationPolicy.allocate w.policy name module
  (a, { w with policy, heap := w.heap.reserve a })

def box (v : V) (module : ModuleId) : A × Workspace P A V :=
  let (name, names) := w.names.fresh
  let (a, placed) := { w with names }.allocate name module
  (a, placed.store a v)

/-- The address that a name is bound to, or else a new one. -/
def place (name : Name) (module : ModuleId) : A × Workspace P A V :=
  match w.environment.lookup name with
  | some a => (a, w)
  | none => w.allocate name module

end Workspace

namespace Surroundings

/-- A free variable is told of with the module in force, and a value that the handler in force gives
for it is boxed as part of that module. -/
def recover (s : Surroundings A V) (w : Workspace P A V) (name : Name) :
    Except (Error A) A × Workspace P A V :=
  let fault : FreeVariable := ⟨name, s.module, w.span⟩
  match s.freeVariable.bind (· fault) with
  | some v =>
    let (a, boxed) := w.box v s.module
    (.ok a, boxed)
  | none => (.error (.freeVariable fault), w)

def resolve (s : Surroundings A V) (w : Workspace P A V) (name : Name) :
    Except (Error A) A × Workspace P A V :=
  match w.environment.lookup name with
  | some a => (.ok a, w)
  | none => s.recover w name

end Surroundings

theorem Surroundings.recover_eq (s : Surroundings A V) (w : Workspace P A V) (name : Name) :
    s.recover w name = match s.freeVariable.bind (· ⟨name, s.module, w.span⟩) with
      | some v =>
        let (a, boxed) := w.box v s.module
        (.ok a, boxed)
      | none => (.error (.freeVariable ⟨name, s.module, w.span⟩), w) := rfl

namespace Reference

def define (name : Name) (body : Reference P A V V) : Reference P A V (V × A) := fun s w =>
  let (a, placed) := w.place name s.module
  match inScope (binding name a body) s placed with
  | (.ok v, after) => (.ok (v, a), after.store a v)
  | (.error e, after) => (.error e, after)

def delegate {α : Type} (name : Name) (body : A → Reference P A V α) : Reference P A V α :=
  fun s w =>
    let (a, placed) := w.place name s.module
    inScope (binding name a (body a)) s placed

end Reference

/-- What a machine can be asked for. The two operations that change its surroundings are not meant
to be evaluated here, and do nothing. -/
def Op.evaluate {β : Type} : Op P A V β → Reference P A V β
  | .alloc name => fun s w =>
    let (a, placed) := w.allocate name s.module
    (.ok a, placed)
  | .gc roots => fun _ w => (.ok (), { w with heap := w.heap.collect roots })
  | .collect => fun _ w =>
    (.ok (), { w with heap := w.heap.collect (w.environment.roots ∪ w.stackRoots) })
  | .deref a => fun s w => (s.read w.heap a, w)
  | .assign a v => fun _ w => (.ok (), w.store a v)
  | .lookup name => fun _ w => (.ok (w.environment.lookup name), w)
  | .bind name a => fun _ w => (.ok (), { w with environment := w.environment.bind name a })
  | .pushScope => fun _ w => (.ok (), w.push)
  | .popScope => Reference.popScope
  | .gensym => fun _ w =>
    let (name, names) := w.names.fresh
    (.ok name, { w with names })
  | .box v => fun s w =>
    let (a, boxed) := w.box v s.module
    (.ok a, boxed)
  | .lookupOrAlloc name => fun s w =>
    let (a, placed) := w.place name s.module
    (.ok a, placed)
  | .freeVariable name => fun s w => s.recover w name
  | .resolve name => fun s w => s.resolve w name
  | .addRoot a => fun _ w => (.ok (), { w with stackRoots := w.stackRoots.insert a })
  | .removeRoot a => fun _ w => (.ok (), { w with stackRoots := w.stackRoots.erase a })
  | .setModule _ | .setRecovery _ => fun _ w => (.ok (), w)
  | .setSpan span => fun _ w => (.ok (), { w with span })
  | .rebind change => fun _ w => (.ok (), { w with environment := change w.environment })
  | .inspect view => fun s w => (.ok (view (w.amid s)), w)

/-- A program with its surroundings as arguments. -/
def Program.evaluate {α : Type} : Program P A V α → Reference P A V α
  | .done result => fun _ w => (result, w)
  | .act op next => fun s w =>
    let (answer, after) := op.evaluate s w
    (next answer).evaluate s after
  | .within setting body next => fun s w =>
    let (answer, after) := setting.around body.evaluate s w
    (next answer).evaluate s after
  | .define name body next => fun s w =>
    let (answer, after) := Reference.define name body.evaluate s w
    (next answer).evaluate s after
  | .delegate name body next => fun s w =>
    let (answer, after) := Reference.delegate name (fun a => (body a).evaluate) s w
    (next answer).evaluate s after

/-- The place for a definition, and the machine that is left, with its surroundings. -/
theorem Machine.place_eq (name : Name) (m : Machine P A V) :
    m.workspace.place name m.module =
      ((lookupOrAlloc name m).1, (lookupOrAlloc name m).2.workspace) ∧
    (lookupOrAlloc name m).2.surroundings = m.surroundings := by
  have looked : m.workspace.environment.lookup name = m.lookup name := rfl
  simp only [lookupOrAlloc, Workspace.place, looked]
  cases m.lookup name with
  | none => exact ⟨rfl, rfl⟩
  | some a => exact ⟨rfl, rfl⟩

namespace Conforms

theorem freeVariable (name : Name) :
    Conforms (Machine.freeVariable name : Eval P A V A) (·.recover · name) := by
  intro m
  have recovered : m.surroundings.recover m.workspace name =
    match m.recovery.answerVariable ⟨name, m.module, m.span⟩ with
    | some v =>
      let (a, boxed) := m.workspace.box v m.module
      (.ok a, boxed)
    | none => (.error (.freeVariable ⟨name, m.module, m.span⟩), m.workspace) := rfl
  simp only [outcome_freeVariable, recovered]
  cases m.recovery.answerVariable ⟨name, m.module, m.span⟩ with
  | none => exact ⟨rfl, rfl, rfl⟩
  | some v => exact ⟨rfl, rfl, rfl⟩

theorem resolve (name : Name) :
    Conforms (Machine.resolve name : Eval P A V A) (·.resolve · name) := by
  intro m
  have looked : m.workspace.environment.lookup name = m.lookup name := rfl
  simp only [outcome_resolve, Surroundings.resolve, looked]
  cases m.lookup name with
  | none => exact freeVariable name m
  | some a => exact ⟨rfl, rfl, rfl⟩

theorem lookupOrAlloc (name : Name) :
    Conforms (perform (Machine.lookupOrAlloc name) : Eval P A V A) fun s w =>
      let (a, placed) := w.place name s.module
      (.ok a, placed) := by
  intro m
  have looked : m.workspace.environment.lookup name = m.lookup name := rfl
  have asked : outcome (perform (Machine.lookupOrAlloc name)) m =
    (.ok (Machine.lookupOrAlloc name m).1, (Machine.lookupOrAlloc name m).2) := rfl
  simp only [asked, Machine.lookupOrAlloc, Workspace.place, looked]
  cases m.lookup name with
  | none => exact ⟨rfl, rfl, rfl⟩
  | some a => exact ⟨rfl, rfl, rfl⟩

theorem perform_op {β : Type} {op : Op P A V β} (steady : op.Steady) :
    Conforms op.perform op.evaluate := by
  cases op with
  | setModule | setRecovery => cases steady
  | deref a => exact deref a
  | freeVariable name => exact freeVariable name
  | resolve name => exact resolve name
  | lookupOrAlloc name => exact lookupOrAlloc name
  | popScope => exact popScope
  | inspect view => exact fun m => ⟨congrArg Except.ok (steady m), rfl, rfl⟩
  | alloc | gc | collect | assign | lookup | bind | pushScope | gensym | box | addRoot | removeRoot
  | setSpan | rebind => exact fun m => ⟨rfl, rfl, rfl⟩

variable {α : Type}

theorem delegate {body : A → Eval P A V α} {reference : A → Reference P A V α}
    (conforms : ∀ a, Conforms (body a) (reference a)) (name : Name) :
    Conforms (Machine.delegate name body) (Reference.delegate name reference) := by
  intro m
  obtain ⟨place, kept⟩ := place_eq name m
  let a := (Machine.lookupOrAlloc name m).1
  let announced := (Machine.lookupOrAlloc name m).2.note (.delegating name a)
  have there : announced.surroundings = m.surroundings := kept
  have inner := ((conforms a).bindName name a).locally announced
  have delegated : outcome (Machine.delegate name body) m =
    outcome (Machine.locally (perform (Machine.bind name a) >>= fun _ => body a)) announced := rfl
  have expected : Reference.delegate name reference m.surroundings m.workspace =
      Reference.inScope (Reference.binding name a (reference a)) m.surroundings
        announced.workspace := by
    have placed : m.workspace.place name m.surroundings.module = _ := place
    rw [Reference.delegate, placed]
    rfl
  rw [there] at inner
  rw [delegated, expected]
  exact ⟨inner.result, inner.workspace, inner.surroundings.trans there⟩

theorem define {body : Eval P A V V} {reference : Reference P A V V}
    (conforms : Conforms body reference) (name : Name) :
    Conforms (Machine.define name body) (Reference.define name reference) := by
  intro m
  obtain ⟨place, kept⟩ := place_eq name m
  let a := (Machine.lookupOrAlloc name m).1
  let announced := (Machine.lookupOrAlloc name m).2.note (.defining name a)
  have there : announced.surroundings = m.surroundings := kept
  have inner := (conforms.bindName name a).locally announced
  have defined : outcome (Machine.define name body) m =
    outcome (Machine.locally (perform (Machine.bind name a) >>= fun _ => body) >>= fun v =>
      perform (Machine.assign a v) >>= fun _ => pure (v, a)) announced := rfl
  have expected : Reference.define name reference m.surroundings m.workspace =
      match Reference.inScope (Reference.binding name a reference) m.surroundings
        announced.workspace with
      | (.ok v, after) => (.ok (v, a), after.store a v)
      | (.error e, after) => (.error e, after) := by
    have placed : m.workspace.place name m.surroundings.module = _ := place
    rw [Reference.define, placed]
    rfl
  rw [there] at inner
  rw [defined, outcome_bind, expected]
  generalize Reference.inScope (Reference.binding name a reference) m.surroundings
    announced.workspace = foreseen at inner ⊢
  generalize outcome (Machine.locally (perform (Machine.bind name a) >>= fun _ => body))
    announced = ended at inner ⊢
  obtain ⟨⟨result, after⟩, ⟨_, _⟩⟩ := ended, foreseen
  obtain ⟨rfl, rfl, left⟩ := inner
  cases result <;> exact ⟨rfl, rfl, left.trans there⟩

end Conforms

/-- By induction on what a program does next. -/
theorem Program.conforms_run {α : Type} {program : Program P A V α} (steady : program.Steady) :
    Conforms program.run program.evaluate := by
  induction program with
  | done result => exact fun m => ⟨rfl, rfl, rfl⟩
  | act op next ih =>
    exact (Conforms.perform_op steady.1).observe fun answer => ih answer (steady.2 answer)
  | within setting body next ih_body ih_next =>
    exact ((ih_body steady.1).enclose setting).observe fun answer =>
      ih_next answer (steady.2 answer)
  | define name body next ih_body ih_next =>
    exact ((ih_body steady.1).define name).observe fun answer => ih_next answer (steady.2 answer)
  | delegate name body next ih_body ih_next =>
    exact (Conforms.delegate (fun a => ih_body a (steady.1 a)) name).observe fun answer =>
      ih_next answer (steady.2 answer)

theorem Program.evaluate_nested {α : Type} {body : Program P A V α}
    (unscoped : Reference.Unscoped body.evaluate) (settings : List (Setting A V)) :
    (nested settings body).evaluate = fun s w => body.evaluate (s.inside settings) w := by
  induction settings generalizing body with
  | nil => rfl
  | cons setting settings ih =>
    have surrounded : (Program.within setting body .done).evaluate =
      fun s w => body.evaluate (s.within setting) w := unscoped.around setting
    have inner : (nested settings (.within setting body .done)).evaluate = _ :=
      ih (surrounded ▸ fun s => unscoped (s.within setting))
    simp only [Surroundings.inside_cons]
    exact inner.trans (by rw [surrounded])

theorem Program.unscoped_deref (a : A) :
    Reference.Unscoped (act (.deref a) .done : Program P A V _).evaluate := fun _ _ => rfl

theorem Program.unscoped_resolve (name : Name) :
    Reference.Unscoped (act (.resolve name) .done : Program P A V _).evaluate := by
  intro s w
  have same : w.push.environment.lookup name = w.environment.lookup name := rfl
  simp only [evaluate, Op.evaluate, Surroundings.resolve, same]
  cases w.environment.lookup name with
  | some a => rfl
  | none =>
    have pushed := s.recover_eq w.push name
    have bare := s.recover_eq w name
    have there : w.push.span = w.span := rfl
    rw [there] at pushed
    simp only [pushed, bare]
    cases s.freeVariable.bind (· ⟨name, s.module, w.span⟩) with
    | none => rfl
    | some v => rfl

/-- What comes of a part of a program inside constructs, told by the innermost of each kind. -/
theorem Program.result_nested {α : Type} {body : Program P A V α} (steady : body.Steady)
    (unscoped : Reference.Unscoped body.evaluate) (settings : List (Setting A V))
    (m : Machine P A V) :
    (outcome (nested settings body).run m).1 =
      (body.evaluate (m.surroundings.inside settings) m.workspace).1 := by
  have conforms := conforms_run (steady_nested steady settings) m
  rw [evaluate_nested unscoped settings] at conforms
  exact conforms.result

end Evaluation

/-- A program that changes its module and its handlers by constructs alone comes to what it comes to
with the three as arguments, and they are the same after it as before. So inside any constructs a
fault is offered to the handler that the innermost of them puts in force, with the innermost module,
and is an error if there is none or if it has no value to go on with. -/
theorem dynamically_scoped {P A V : Type} [Address A] [Value V A] [AllocationPolicy P A] :
    (∀ {α : Type} (program : Program P A V α), program.Steady → ∀ m : Machine P A V,
      m.Follows (outcome program.run m) (program.evaluate m.surroundings m.workspace)) ∧
    ∀ (settings : List (Setting A V)) (m : Machine P A V),
      let s := m.surroundings.inside settings
      (∀ a fault, m.heap.fault? a = some fault →
        (outcome (Program.nested settings (.act (.deref a) .done)).run m).1 =
          match s.address.bind (·.answer fault) with
          | some v => .ok (.singleton v)
          | none => .error (.address fault)) ∧
      ∀ name, m.lookup name = none →
        (outcome (Program.nested settings (.act (.resolve name) .done)).run m).1 =
          match s.freeVariable.bind (· ⟨name, s.module, m.span⟩) with
          | some v => .ok (Machine.box v { m with module := s.module }).1
          | none => .error (.freeVariable ⟨name, s.module, m.span⟩) := by
  refine ⟨fun program steady m => Program.conforms_run steady m, fun settings m => ⟨?_, ?_⟩⟩
  · intro a fault faulty
    have read : (Op.deref a).evaluate (m.surroundings.inside settings) m.workspace =
      ((m.surroundings.inside settings).read m.heap a, m.workspace) := rfl
    have steady : (Program.act (.deref a) .done : Program P A V _).Steady :=
      ⟨trivial, fun _ => trivial⟩
    rw [Program.result_nested steady (Program.unscoped_deref a)]
    simp only [Program.evaluate, read, Surroundings.read, faulty, Surroundings.onFault]
  · intro name unbound
    have steady : (Program.act (.resolve name) .done : Program P A V _).Steady :=
      ⟨trivial, fun _ => trivial⟩
    rw [Program.result_nested steady (Program.unscoped_resolve name)]
    have looked : m.workspace.environment.lookup name = none := unbound
    have there : m.workspace.span = m.span := rfl
    simp only [Program.evaluate, Op.evaluate, Surroundings.resolve, looked,
      Surroundings.recover_eq, there]
    cases (m.surroundings.inside settings).freeVariable.bind _ with
    | none => rfl
    | some v => rfl

/-- Resumes whatever fault it is offered. -/
def resuming : AddressHandler Precise (Object Precise) where answer _ := some .unit

/-- An address is read where no handler helps, and again where one does. -/
def readsTwice : Program FreshPolicy Precise (Object Precise) (Cell (Object Precise)) :=
  .within (.recovering resuming)
    (.within .strictly (.act (.deref ⟨7⟩) .done) fun _ => .act (.deref ⟨7⟩) .done) .done

theorem dynamically_scoped_readsTwice :
    let m : Machine FreshPolicy Precise (Object Precise) := fresh {} {}
    let settings : List (Setting Precise (Object Precise)) :=
      [.strictly, .inModule ⟨"m"⟩, .recovering resuming, .recoveringVariables fun _ => none]
    readsTwice.Steady ∧ m.Follows (outcome readsTwice.run m) (.ok (.singleton .unit), m.workspace) ∧
    m.heap.fault? ⟨7⟩ = some (.unallocated ⟨7⟩) ∧
    (outcome (Program.nested settings (.act (.deref ⟨7⟩) .done)).run m).1 =
      .error (.address (.unallocated ⟨7⟩)) ∧
    m.lookup (.user "x") = none ∧
    (outcome (Program.nested settings (.act (.resolve (.user "x")) .done)).run m).1 =
      .error (.freeVariable ⟨.user "x", ⟨"m"⟩, {}⟩) := by
  intro m settings
  have steady : readsTwice.Steady :=
    ⟨⟨⟨trivial, fun _ => trivial⟩, fun _ => ⟨trivial, fun _ => trivial⟩⟩, fun _ => trivial⟩
  have follows := dynamically_scoped.1 readsTwice steady m
  obtain ⟨faults, unbound⟩ := dynamically_scoped.2 settings m
  exact ⟨steady, follows, rfl, faults ⟨7⟩ (.unallocated ⟨7⟩) rfl, rfl, unbound (.user "x") rfl⟩

end AbstractStore
