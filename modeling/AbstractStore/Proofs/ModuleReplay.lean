import AbstractStore.Object
import AbstractStore.Proofs.Monotonicity
import AbstractStore.Proofs.Replay

/-! Replay where addresses belong to modules.
A request to allocate tells the name and not the module it is made in, so a new machine answers it
with an address of the module that it is in itself, which no request changes. What a machine that is
sent a trace keeps of the recording one is `Echoes`: the values at every address, and the whole heap
as long as no address of another module has been handed out. -/

namespace AbstractStore

open Machine

namespace Heap

variable {A V : Type} [Address A] [Value V A] {h k : Heap A V}

/-- The same values are stored at each address. One heap may have an empty cell where the other has
none. -/
def SameValues (h k : Heap A V) : Prop := ∀ a, k.valuesAt a = h.valuesAt a

namespace SameValues

theorem reachable (same : SameValues h k) (roots : LiveSet A) :
    k.reachable roots = h.reachable roots := by
  have leads (a b : A) : k.Leads a b ↔ h.Leads a b := by
    rw [← mem_successors, ← mem_successors, successors, successors, same a]
  refine AscSet.ext fun a => ⟨fun reached => ?_, fun reached => ?_⟩
  · exact forall_reachable (fun _ root => mem_reachable_of_mem_roots root)
      (fun b c there next => mem_reachable_of_leads there ((leads b c).1 next)) a reached
  · exact forall_reachable (fun _ root => mem_reachable_of_mem_roots root)
      (fun b c there next => mem_reachable_of_leads there ((leads b c).2 next)) a reached

/-- What is reserved has no values, so it may differ. -/
theorem reserve (same : SameValues h k) (a b : A) : SameValues (h.reserve a) (k.reserve b) :=
  fun c => by rw [valuesAt_reserve, valuesAt_reserve, same c]

theorem assign (same : SameValues h k) (a : A) (v : V) (mode : StoreMode) :
    SameValues (h.assign a v mode) (k.assign a v mode) :=
  fun b => AscSet.ext fun w => by rw [mem_valuesAt_assign, mem_valuesAt_assign, same b]

theorem collect (same : SameValues h k) (roots : LiveSet A) :
    SameValues (h.collect roots) (k.collect roots) :=
  fun a => AscSet.ext fun v => by
    rw [mem_valuesAt_collect, mem_valuesAt_collect, same.reachable, same a]

end SameValues

end Heap

section Replay

variable {V : Type} [Value V Located] {m k : Machine PerModulePolicy Located V}

/-- The same name in the module that a new machine is in. -/
def Located.atHome (x : Name × Located) : Name × Located := (x.1, ⟨{}, x.2.name⟩)

/-- All addresses that a machine has handed out belong to the module that a new machine is in. -/
def Machine.AtHome (m : Machine PerModulePolicy Located V) : Prop :=
  ∀ x ∈ m.journal.filterMap Event.allocation?, x.2.home = {}

/-- A machine that is sent the requests of another. -/
structure Echoes (m k : Machine PerModulePolicy Located V) : Prop where
  module : k.module = {}
  storeMode : k.options.storeMode = m.options.storeMode
  values : m.heap.SameValues k.heap
  heap : m.AtHome → k.heap = m.heap

namespace Echoes

theorem storeMode_eq (echoes : Echoes m k) (a : Located) : k.storeMode a = m.storeMode a :=
  congrArg (·.getD .weak) echoes.storeMode

theorem values_request (echoes : Echoes m k) (r : Request Located V) :
    (r.heap m).SameValues (r.heap k) := by
  cases r with
  | alloc name => exact echoes.values.reserve _ _
  | gc roots => exact echoes.values.collect roots
  | deref a => exact echoes.values
  | assign a v =>
    rw [Request.heap, Request.heap, echoes.storeMode_eq]
    exact echoes.values.assign a v _

theorem heap_request (echoes : Echoes m k) (r : Request Located V)
    (atHome : m.AtHome) (new : ∀ x ∈ allocations [(r, r.answer m)], x.2.home = {}) :
    r.heap k = r.heap m := by
  have same := echoes.heap atHome
  cases r with
  | alloc name =>
    have home : m.module = {} := new (name, ⟨m.module, name⟩) (List.mem_singleton_self _)
    change k.heap.reserve ⟨k.module, name⟩ = m.heap.reserve ⟨m.module, name⟩
    rw [same, home, echoes.module]
  | assign a v => rw [Request.heap, Request.heap, echoes.storeMode_eq, same]
  | gc | deref => rw [Request.heap, Request.heap, same]

theorem keptByRequests :
    KeptByRequests (Echoes : Machine PerModulePolicy Located V → _ → Prop) Located.atHome where
  untraced _ heap options allocated echoes :=
    ⟨echoes.module, echoes.storeMode.trans (congrArg Options.storeMode options.symm),
      heap ▸ echoes.values, fun atHome => heap ▸ echoes.heap (fun x => allocated ▸ atHome x)⟩
  sent {m k} r echoes := by
    obtain ⟨told, addresses, -, journal⟩ := r.send_record m
    obtain ⟨_, _, sent⟩ := r.send_eq m
    obtain ⟨_, _, resent⟩ := r.send_eq k
    have sent : outcome (send r) m = _ := sent
    have resent : outcome (send r) k = _ := resent
    rw [sent] at journal
    rw [sent, resent]
    refine ⟨⟨echoes.module, echoes.storeMode, echoes.values_request r, fun atHome => ?_⟩, ?_⟩
    · have all : ∀ x ∈ m.journal.filterMap Event.allocation? ++ allocations [(r, r.answer m)],
          x.2.home = {} := by
        rw [← addresses, ← List.filterMap_append, ← journal]
        exact atHome
      obtain ⟨old, new⟩ := List.forall_mem_append.1 all
      exact echoes.heap_request r old new
    · cases r with
      | alloc name => exact congrArg (fun home => [(name, Located.mk home name)]) echoes.module
      | gc | deref | assign => rfl

end Echoes

/-- Send what a program has left on the trace to a new machine. Each allocation is answered with an
address of the same name in the module of a new machine, and the same values are stored at every
address. The addresses are those that the program was given just if all of these belong to that
module, and then the heaps are equal. -/
theorem replay_across_modules (options later : Options) (trace : options.trace = true)
    (unlimited : options.traceLimit = none) (sameMode : later.storeMode = options.storeMode)
    {α : Type} (program : Program PerModulePolicy Located V α) :
    let final := (outcome program.run (fresh {} options)).2
    let replay := sendAll final.trace (fresh ({} : PerModulePolicy) later)
    let given := final.journal.filterMap Event.allocation?
    let answered := allocations (final.trace.zip replay.1)
    answered = given.map Located.atHome ∧
    (∀ a, replay.2.heap.valuesAt a = final.heap.valuesAt a) ∧
    (answered = given ↔ ∀ x ∈ given, x.2.home = {}) ∧
    ((∀ x ∈ given, x.2.home = {}) → replay.2.heap = final.heap) := by
  intro final replay given answered
  have start : Echoes (fresh {} options : Machine PerModulePolicy Located V) (fresh {} later) :=
    ⟨rfl, sameMode, fun _ => rfl, fun _ => rfl⟩
  obtain ⟨echoes, addresses⟩ :=
    program.retraces_fresh Echoes.keptByRequests trace unlimited (fresh {} later) start
  have moved (x : Name × Located) : Located.atHome x = x ↔ x.2.home = {} :=
    ⟨fun same => same ▸ rfl, fun home => by rw [Located.atHome, ← home]⟩
  refine ⟨addresses, echoes.values, ?_, echoes.heap⟩
  have kept : answered = given ↔ given.map Located.atHome = given.map id := by
    rw [List.map_id]
    exact ⟨addresses.symm.trans, addresses.trans⟩
  rw [kept, List.map_inj_left]
  exact forall₂_congr fun x _ => moved x

/-- A name that is allocated in one module and then in another. -/
def sharedName : Program PerModulePolicy Located (Object Located) Unit :=
  .act (.alloc (.user "x")) fun _ =>
    .within (.inModule ⟨"m"⟩) (.act (.alloc (.user "x")) fun
      | .ok a => .act (.assign a .unit) .done
      | .error e => .done (.error e)) .done

theorem replay_across_modules_sharedName :
    let final := (outcome sharedName.run (fresh {} { trace := true })).2
    let replay := sendAll final.trace (fresh ({} : PerModulePolicy) {})
    allocations (final.trace.zip replay.1) =
      [(.user "x", ⟨{}, .user "x"⟩), (.user "x", ⟨{}, .user "x"⟩)] ∧
    replay.2.heap.valuesAt ⟨⟨"m"⟩, .user "x"⟩ = .singleton .unit := by
  obtain ⟨addresses, values, -⟩ :=
    replay_across_modules { trace := true } {} rfl rfl rfl sharedName
  exact ⟨addresses.trans (by decide +kernel), (values _).trans (by decide +kernel)⟩

/-- A single allocation, in a module that a new machine is not in. -/
def allocatedElsewhere : Machine PerModulePolicy Located (Object Located) :=
  (outcome (Program.run (.act (.setModule ⟨"m"⟩) fun _ => .act (.alloc (.user "x")) .done))
    (fresh {} { trace := true })).2

theorem allocatedElsewhere_not_replayed :
    let replay := sendAll allocatedElsewhere.trace (fresh ({} : PerModulePolicy) { trace := true })
    allocatedElsewhere.journal.filterMap Event.allocation? = [(.user "x", ⟨⟨"m"⟩, .user "x"⟩)] ∧
    allocations (allocatedElsewhere.trace.zip replay.1) = [(.user "x", ⟨{}, .user "x"⟩)] ∧
    replay.2.heap.contains ⟨⟨"m"⟩, .user "x"⟩ = false ∧
    allocatedElsewhere.heap.contains ⟨⟨"m"⟩, .user "x"⟩ = true := by
  decide

end Replay

end AbstractStore
