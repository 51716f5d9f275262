import AbstractStore.Machine.Branch
import AbstractStore.Machine.Definition
import AbstractStore.Proofs.Reachability

/-! What a client asks of a machine, as data.
The ways to come by an address are kept apart from the other steps, since only they move the policy
and the names. Each has one equation that says all it does: `Source.perform_eq` and
`Step.perform_eq`. What they leave open is the trace and the journal. -/

namespace AbstractStore

open Machine

inductive Source (V : Type) where
  | alloc (name : Name)
  | box (v : V)
  /-- The address is asked for as a part of a module. -/
  | inModule (module : ModuleId) (source : Source V)

inductive Step (A V : Type) [Ord A] where
  | assign (a : A) (v : V)
  | deref (a : A)
  | lookup (name : Name)
  | bind (name : Name) (a : A)
  | remove (name : Name)
  | overwrite (pairs : List (Name × Name))
  | pushScope
  | popScope
  | addRoot (a : A)
  | removeRoot (a : A)
  | gc (roots : LiveSet A)
  | collect

inductive Answer (A V : Type) [Ord V] where
  | done
  | address (found : Option A)
  | cell (read : Except (Error A) (Cell V))
  | left (popped : Except (Error A) Unit)
  | held (before : Bool)

/-- A machine as it is before its first step. -/
def Machine.fresh {P A V : Type} [Ord A] [Ord V] (policy : P) (options : Options) :
    Machine P A V := { policy, options }

section Memory

variable {P A V : Type} [Address A] [Value V A]

namespace Machine

def onFault (m : Machine P A V) (fault : AddressFault A) : Except (Error A) (Cell V) :=
  match m.recovery.answerAddress fault with
  | some v => .ok (.singleton v)
  | none => .error (.address fault)

/-- What a client reads at an address. -/
def reading (m : Machine P A V) (a : A) : Except (Error A) (Cell V) :=
  match m.heap.lookup a with
  | none => m.onFault (.unallocated a)
  | some c => if c.isEmpty then m.onFault (.uninitialized a) else .ok c

theorem resume_eq (fault : AddressFault A) (m : Machine P A V) : ∃ journal,
    (resume fault).run.run m = (m.onFault fault, { m with journal }) := by
  cases answer : m.recovery.answerAddress fault with
  | none => exact ⟨m.journal, by simp [StateT.run, resume, onFault, answer]⟩
  | some v =>
    exact ⟨(m.note (.resumedFault fault v)).journal,
      by simp [StateT.run, resume, onFault, answer, note]⟩

/-- Reading tells what is there and changes no more than the trace and the journal. -/
theorem deref_eq (a : A) (m : Machine P A V) : ∃ trace journal,
    (deref a).run.run m = (m.reading a, { m with trace, journal }) := by
  let asked := (m.record (.deref a)).note (.dereferenced a)
  have looked : (deref a).run.run m = match m.heap.lookup a with
    | none => (resume (.unallocated a)).run.run asked
    | some c =>
      if c.isEmpty then (resume (.uninitialized a)).run.run asked else (.ok c, asked) := rfl
  rw [looked, reading]
  cases m.heap.lookup a with
  | none =>
    obtain ⟨journal, same⟩ := resume_eq (.unallocated a) asked
    exact ⟨asked.trace, journal, same⟩
  | some c =>
    obtain ⟨journal, same⟩ := resume_eq (.uninitialized a) asked
    by_cases empty : c.isEmpty = true
    · refine ⟨asked.trace, journal, ?_⟩
      simp only [empty, if_true]
      exact same
    · refine ⟨asked.trace, asked.journal, ?_⟩
      simp only [empty]
      rfl

end Machine

end Memory

section Policy

variable {P A V : Type} [Address A] [AllocationPolicy P A] [Value V A]

namespace Source

def perform : Source V → Action P A V A
  | .alloc name => Machine.alloc name
  | .box v => Machine.box v
  | .inModule module source => fun m =>
      let (a, after) := source.perform { m with module }
      (a, { after with module := m.module })

theorem perform_inModule (module : ModuleId) (source : Source V) :
    (Machine.perform (inModule module source).perform : Eval P A V A) =
      Machine.inModule module (Machine.perform source.perform) := rfl

def operands : Source V → List A
  | .alloc _ => []
  | .box v => Value.embedded v
  | .inModule _ source => source.operands

/-- The address that is handed out, with the policy and the names after it. -/
def draw : Source V → P → NameSupply → ModuleId → A × P × NameSupply
  | .alloc name, policy, names, module =>
      let (a, policy) := AllocationPolicy.allocate policy name module
      (a, policy, names)
  | .box _, policy, names, module =>
      let (name, names) := names.fresh
      let (a, policy) := AllocationPolicy.allocate policy name module
      (a, policy, names)
  | .inModule module source, policy, names, _ => source.draw policy names module

def fill (mode : StoreMode) (h : Heap A V) (a : A) : Source V → Heap A V
  | .alloc _ => h
  | .box v => h.assign a v mode
  | .inModule _ source => source.fill mode h a

section Fill

variable {mode : StoreMode} {h k : Heap A V} {a b c : A}

theorem contains_fill (source : Source V) (filled : (source.fill mode h a).contains b = true) :
    b = a ∨ h.contains b = true := by
  induction source with
  | alloc name => exact .inr filled
  | box v => exact Heap.contains_assign.1 filled
  | inModule module source ih => exact ih filled

theorem leads_fill (source : Source V) (next : (source.fill mode h a).Leads b c) :
    b = a ∧ c ∈ source.operands ∨ h.Leads b c := by
  induction source with
  | alloc name => exact .inr next
  | box v => exact (Heap.leads_assign next).imp_left (And.imp_right AscSet.mem_ofList.1)
  | inModule module source ih => exact ih next

/-- What is stored depends on what was at its address, and the other cells stay. -/
theorem lookup_fill_congr (source : Source V) (there : k.lookup a = h.lookup a)
    (here : k.lookup b = h.lookup b) :
    (source.fill mode k a).lookup b = (source.fill mode h a).lookup b := by
  induction source with
  | alloc name => exact here
  | box v => simp only [fill, Heap.lookup_assign, Heap.valuesAt, there, here]
  | inModule module source ih => exact ih

end Fill

theorem perform_eq (source : Source V) (m : Machine P A V) : ∃ trace journal,
    source.perform m =
      let (a, policy, names) := source.draw m.policy m.names m.module
      (a, { m with
        policy, names, trace, journal
        heap := source.fill (storeMode { m with policy } a) (m.heap.reserve a) a }) := by
  induction source generalizing m with
  | alloc name => exact ⟨_, _, rfl⟩
  | box v => exact ⟨_, _, rfl⟩
  | inModule module source ih =>
    obtain ⟨trace, journal, same⟩ := ih { m with module }
    refine ⟨trace, journal, ?_⟩
    simp only [perform, same]
    rfl

theorem draw_fresh (source : Source V) (policy : FreshPolicy) (names : NameSupply)
    (module : ModuleId) : ∃ later,
      source.draw policy names module = (⟨policy.next⟩, ⟨policy.next + 1⟩, later) := by
  induction source generalizing module with
  | alloc name => exact ⟨_, rfl⟩
  | box v => exact ⟨_, rfl⟩
  | inModule inner source ih => exact ih inner

/-- Where each address is handed out once, what comes next is at the counter. -/
theorem perform_fresh {V : Type} [Value V Precise] (source : Source V)
    (m : Machine FreshPolicy Precise V) : ∃ trace journal,
      source.perform m = (⟨m.policy.next⟩, { m with
        policy := ⟨m.policy.next + 1⟩
        names := (source.draw m.policy m.names m.module).2.2
        heap := source.fill (m.options.storeMode.getD .strong)
          (m.heap.reserve ⟨m.policy.next⟩) ⟨m.policy.next⟩
        trace, journal }) := by
  obtain ⟨later, drawn⟩ := source.draw_fresh m.policy m.names m.module
  obtain ⟨trace, journal, same⟩ := source.perform_eq m
  refine ⟨trace, journal, ?_⟩
  rw [same, drawn]
  rfl

end Source

namespace Step

def perform : Step A V → Action P A V (Answer A V)
  | .assign a v => do
      Machine.assign a v
      return .done
  | .deref a => do return .cell (← (Machine.deref a).run)
  | .lookup name => fun m => (.address (m.lookup name), m)
  | .bind name a => do
      Machine.bind name a
      return .done
  | .remove name => fun m =>
      (.address (m.environment.lookupLocal name),
        { m with environment := m.environment.erase name })
  | .overwrite pairs => fun m =>
      (.done, { m with environment := m.environment.overwrite pairs })
  | .pushScope => do
      Machine.pushScope
      return .done
  | .popScope => do return .left (← Machine.popScope.run)
  | .addRoot a => fun m => (.done, m.addRoot a)
  | .removeRoot a => fun m => (.held (m.stackRoots.contains a), m.removeRoot a)
  | .gc roots => do
      Machine.gc roots
      return .done
  | .collect => do
      Machine.collect
      return .done

def operands : Step A V → List A
  | .assign a v => a :: Value.embedded v
  | .deref a | .bind _ a | .addRoot a | .removeRoot a => [a]
  | .gc roots => roots.toList
  | _ => []

def heap (m : Machine P A V) : Step A V → Heap A V
  | .assign a v => m.heap.assign a v (m.storeMode a)
  | .gc roots => m.heap.collect roots
  | .collect => m.heap.collect m.liveRoots
  | _ => m.heap

def environment (e : Environment A) : Step A V → Environment A
  | .bind name a => e.bind name a
  | .remove name => e.erase name
  | .overwrite pairs => e.overwrite pairs
  | .pushScope => e.push
  | .popScope => (e.pop?.map Prod.snd).getD e
  | _ => e

/-- The addresses held outside the environment after a step. -/
def stackRoots (held : LiveSet A) : Step A V → LiveSet A
  | .addRoot a => held.insert a
  | .removeRoot a => held.erase a
  | _ => held

def answer (m : Machine P A V) : Step A V → Answer A V
  | .deref a => .cell (m.reading a)
  | .lookup name => .address (m.environment.lookup name)
  | .remove name => .address (m.environment.lookupLocal name)
  | .popScope => .left (if m.environment.pop?.isSome then .ok () else .error .scopeUnderflow)
  | .removeRoot a => .held (m.stackRoots.contains a)
  | _ => .done

theorem perform_eq (step : Step A V) (m : Machine P A V) : ∃ trace journal,
    step.perform m = (step.answer m, { m with
      heap := step.heap m
      environment := step.environment m.environment
      stackRoots := step.stackRoots m.stackRoots
      trace, journal }) := by
  cases step with
  | deref a =>
    obtain ⟨trace, journal, same⟩ := deref_eq a m
    refine ⟨trace, journal, ?_⟩
    change (let (read, after) := (Machine.deref a).run.run m; (Answer.cell read, after)) = _
    rw [same]
    rfl
  | popScope =>
    refine ⟨m.trace, m.journal, ?_⟩
    change (let (popped, after) := Machine.popScope.run.run m; (Answer.left popped, after)) = _
    cases found : m.environment.pop? with
    | none | some inner =>
      simp [StateT.run, Machine.popScope, answer, environment, heap, stackRoots, found]
  | assign | lookup | bind | remove | overwrite | pushScope | addRoot | removeRoot | gc | collect =>
    exact ⟨_, _, rfl⟩

end Step

end Policy

end AbstractStore
