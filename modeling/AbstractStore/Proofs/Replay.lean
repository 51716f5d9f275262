import AbstractStore.Proofs.Programs
import AbstractStore.Proofs.Requests
import Mathlib

/-! Replay of a trace.
Whatever a program does to the policy and the heap it does by requests, and these are recorded. So
requests that are read off a trace, sent to a machine that stands as the recording one stood before
them, take it to where that one stands (`Retraces`). How the two have to stand is left open, as long
as requests keep it (`KeptByRequests`). This goes from the operations of a machine to all programs
(`Program.records_run`). -/

namespace AbstractStore

open Machine

section Allocations

variable {A V : Type} [Ord A] [Ord V]

def Event.allocation? : Event A V → Option (Name × A)
  | .allocated name a => some (name, a)
  | _ => none

/-- The addresses that requests were answered with, under the names they were asked for. -/
def allocations (exchanges : List (Request A V × Except (Error A) (Response A V))) :
    List (Name × A) :=
  exchanges.filterMap fun
    | (.alloc name, .ok (.address a)) => some (name, a)
    | _ => none

theorem allocations_append
    (exchanges later : List (Request A V × Except (Error A) (Response A V))) :
    allocations (exchanges ++ later) = allocations exchanges ++ allocations later :=
  List.filterMap_append ..

end Allocations

/-- To the policy it is the same in which module an address is asked for. -/
def IgnoresModules (P : Type) {A : Type} [AllocationPolicy P A] : Prop :=
  ∀ (p : P) (name : Name) (module other : ModuleId),
    AllocationPolicy.allocate p name module = AllocationPolicy.allocate p name other

theorem FreshPolicy.ignoresModules : IgnoresModules FreshPolicy := fun _ _ _ _ => rfl

theorem PerNamePolicy.ignoresModules : IgnoresModules PerNamePolicy := fun _ _ _ _ => rfl

variable {P A V : Type} [Address A] [Value V A]

/-- Machines that requests are answered by alike. -/
structure Alike (m k : Machine P A V) : Prop where
  policy : k.policy = m.policy
  heap : k.heap = m.heap
  storeMode : k.options.storeMode = m.options.storeMode

structure Traced (m : Machine P A V) : Prop where
  trace : m.options.trace = true
  unlimited : m.options.traceLimit = none

theorem Traced.trace_record {m : Machine P A V} (traced : Traced m) (r : Request A V) :
    (m.record r).trace = m.trace ++ [r] := by
  simp [record, traced.trace, traced.unlimited, keepLast]

theorem Machine.resume_journal (fault : AddressFault A) (m : Machine P A V) : ∃ told,
    told.filterMap Event.allocation? = [] ∧
    (outcome (resume fault) m).2 = { m with journal := m.journal ++ told } := by
  rw [outcome_resume]
  cases m.recovery.answerAddress fault with
  | none => exact ⟨[], rfl, by rw [List.append_nil]⟩
  | some v => exact ⟨[.resumedFault fault v], rfl, rfl⟩

/-- What reading leaves on the trace and in the journal. -/
theorem Machine.deref_journal (a : A) (m : Machine P A V) : ∃ told,
    told.filterMap Event.allocation? = [] ∧
    (outcome (deref a) m).2 = { m.record (.deref a) with journal := m.journal ++ told } := by
  let asked := (m.record (.deref a)).note (.dereferenced a)
  have resumed (fault : AddressFault A) : ∃ told, told.filterMap Event.allocation? = [] ∧
      (outcome (resume fault) asked).2 =
        { m.record (.deref a) with journal := m.journal ++ told } := by
    obtain ⟨told, silent, after⟩ := resume_journal fault asked
    refine ⟨.dereferenced a :: told, silent, after.trans ?_⟩
    simp [asked, note, record]
  rw [outcome_deref]
  cases m.heap.lookup a with
  | none => exact resumed _
  | some c =>
    by_cases empty : c.isEmpty = true
    · simp only [empty, if_true]
      exact resumed _
    · simp only [empty]
      exact ⟨[.dereferenced a], rfl, rfl⟩

variable [AllocationPolicy P A]

theorem Request.policy_congr (ignores : IgnoresModules P) {m k : Machine P A V}
    (alike : Alike m k) (r : Request A V) : r.policy k = r.policy m := by
  cases r with
  | alloc name => simp only [policy, alike.policy, ignores m.policy name k.module m.module]
  | gc | deref | assign => exact alike.policy

theorem Request.heap_congr (ignores : IgnoresModules P) {m k : Machine P A V}
    (alike : Alike m k) (r : Request A V) : r.heap k = r.heap m := by
  cases r with
  | alloc name =>
    simp only [heap, alike.policy, alike.heap, ignores m.policy name k.module m.module]
  | assign a v => simp only [heap, storeMode, alike.policy, alike.heap, alike.storeMode]
  | gc | deref => simp only [heap, alike.heap]

theorem Request.allocations_congr (ignores : IgnoresModules P) {m k : Machine P A V}
    (alike : Alike m k) (r : Request A V) :
    allocations [(r, r.answer k)] = allocations [(r, r.answer m)] := by
  cases r with
  | alloc name => simp only [answer, alike.policy, ignores m.policy name k.module m.module]
  | gc | deref | assign => rfl

theorem Machine.length_sendAll (requests : List (Request A V)) (m : Machine P A V) :
    (sendAll requests m).1.length = requests.length := by
  induction requests generalizing m with
  | nil => rfl
  | cons r later ih =>
    rw [sendAll_cons]
    exact congrArg (· + 1) (ih _)

theorem Machine.send_deref (a : A) (m : Machine P A V) :
    (outcome (send (.deref a)) m).2 = (outcome (deref a) m).2 := by
  have sent : (send (.deref a) : Eval P A V _) = deref a >>= fun c => pure (.cell c) := rfl
  rw [sent, outcome_bind]
  rcases outcome (deref a) m with ⟨_ | _, after⟩ <;> rfl

/-- A request is put on the trace, and the journal tells of the address it is answered with. -/
theorem Request.send_record (r : Request A V) (m : Machine P A V) : ∃ told,
    told.filterMap Event.allocation? = allocations [(r, r.answer m)] ∧
    (outcome (send r) m).2.trace = (m.record r).trace ∧
    (outcome (send r) m).2.journal = m.journal ++ told := by
  cases r with
  | alloc name =>
    exact ⟨[.allocated name (AllocationPolicy.allocate m.policy name m.module).1], rfl, rfl, rfl⟩
  | gc roots =>
    let live := m.heap.reachable roots
    exact ⟨[.reached roots.size live.size, .collected roots.size (m.heap.restrict live).size
      m.heap.size], rfl, rfl, List.append_assoc ..⟩
  | assign a v => exact ⟨[.assigned a v], rfl, rfl, rfl⟩
  | deref a =>
    obtain ⟨told, silent, after⟩ := deref_journal a m
    rw [send_deref, after]
    exact ⟨told, silent, rfl, rfl⟩

section Likeness

variable {R : Machine P A V → Machine P A V → Prop} {reply : Name × A → Name × A}
variable {m n o : Machine P A V}

/-- A relation of a machine and one that is sent its requests. It does not depend on what traces
leave out of the first one, and requests keep it. Where the first one has handed out an address, the
second one does as `reply` says. -/
structure KeptByRequests (R : Machine P A V → Machine P A V → Prop) (reply : Name × A → Name × A) :
    Prop where
  untraced : ∀ {m n k}, n.policy = m.policy → n.heap = m.heap → n.options = m.options →
    n.journal.filterMap Event.allocation? = m.journal.filterMap Event.allocation? →
    R m k → R n k
  sent : ∀ {m k} (r : Request A V), R m k →
    R (outcome (send r) m).2 (outcome (send r) k).2 ∧
    allocations [(r, r.answer k)] = (allocations [(r, r.answer m)]).map reply

/-- A machine has come from another by requests that its trace tells. They take a machine that is
related to the earlier one to a machine that is related to the later one, and are answered with the
addresses that the journal tells, up to `reply`. -/
def Retraces (R : Machine P A V → Machine P A V → Prop) (reply : Name × A → Name × A)
    (m n : Machine P A V) : Prop :=
  n.options = m.options ∧ ∃ requests events,
    n.trace = m.trace ++ requests ∧ n.journal = m.journal ++ events ∧
    ∀ k, R m k → R n (sendAll requests k).2 ∧
      allocations (requests.zip (sendAll requests k).1) =
        (events.filterMap Event.allocation?).map reply

namespace Retraces

theorem trans (first : Retraces R reply m n) (second : Retraces R reply n o) :
    Retraces R reply m o := by
  obtain ⟨options, requests, events, trace, journal, replay⟩ := first
  obtain ⟨options', requests', events', trace', journal', replay'⟩ := second
  refine ⟨options'.trans options, requests ++ requests', events ++ events', ?_, ?_, ?_⟩
  · rw [trace', trace, List.append_assoc]
  · rw [journal', journal, List.append_assoc]
  · intro k alike
    obtain ⟨there, answered⟩ := replay k alike
    obtain ⟨there', answered'⟩ := replay' _ there
    rw [sendAll_append]
    refine ⟨there', ?_⟩
    have aligned := (length_sendAll requests k).symm
    rw [List.filterMap_append, List.map_append, ← answered, ← answered', ← allocations_append,
      ← List.zip_append aligned]
    rfl

/-- What is kept out of traces does not matter to a replay. -/
theorem of_untraced (kept : KeptByRequests R reply) (policy : n.policy = m.policy)
    (heap : n.heap = m.heap) (options : n.options = m.options) (trace : n.trace = m.trace)
    (told : List (Event A V)) (silent : told.filterMap Event.allocation? = [])
    (journal : n.journal = m.journal ++ told) : Retraces R reply m n := by
  have allocated : n.journal.filterMap Event.allocation? =
      m.journal.filterMap Event.allocation? := by
    rw [journal, List.filterMap_append, silent, List.append_nil]
  refine ⟨options, [], told, by simp [trace], journal, fun k alike => ⟨?_, ?_⟩⟩
  · exact kept.untraced policy heap options allocated alike
  · rw [silent]
    rfl

theorem silent (kept : KeptByRequests R reply) (policy : n.policy = m.policy)
    (heap : n.heap = m.heap) (options : n.options = m.options) (trace : n.trace = m.trace)
    (journal : n.journal = m.journal) : Retraces R reply m n :=
  of_untraced kept policy heap options trace [] rfl (by rw [journal, List.append_nil])

theorem refl (kept : KeptByRequests R reply) (m : Machine P A V) : Retraces R reply m m :=
  silent kept rfl rfl rfl rfl rfl

theorem traced (retraces : Retraces R reply m n) (traced : Traced m) : Traced n :=
  ⟨retraces.1 ▸ traced.trace, retraces.1 ▸ traced.unlimited⟩

end Retraces

theorem Machine.retraces_send (kept : KeptByRequests R reply) (traced : Traced m)
    (r : Request A V) : Retraces R reply m (outcome (send r) m).2 := by
  obtain ⟨told, addresses, trace, journal⟩ := r.send_record m
  obtain ⟨_, _, sent⟩ := r.send_eq m
  have options : (outcome (send r) m).2.options = m.options := congrArg (·.2.options) sent
  refine ⟨options, [r], told, trace.trans (traced.trace_record r), journal, fun k alike => ?_⟩
  obtain ⟨there, answered⟩ := kept.sent r alike
  obtain ⟨_, _, resent⟩ := r.send_eq k
  have replied : (outcome (send r) k).1 = r.answer k := congrArg (·.1) resent
  rw [addresses, ← answered, ← replied]
  exact ⟨there, rfl⟩

/-- Whatever machine it is done to, an evaluation changes the policy and the heap by requests
that are recorded. -/
def Records (R : Machine P A V → Machine P A V → Prop) (reply : Name × A → Name × A) {α : Type}
    (eval : Eval P A V α) : Prop :=
  ∀ m : Machine P A V, Traced m → Retraces R reply m (outcome eval m).2

namespace Records

variable {α β : Type} {eval : Eval P A V α}

theorem observe (records : Records R reply eval) : Records R reply (Machine.observe eval) :=
  records

theorem bind {next : α → Eval P A V β} (first : Records R reply eval)
    (then_ : ∀ a, Records R reply (next a)) : Records R reply (eval >>= next) := by
  intro m traced
  have retraced := first m traced
  rw [outcome_bind]
  generalize outcome eval m = result at retraced ⊢
  rcases result with ⟨e | a, after⟩
  · exact retraced
  · exact retraced.trans (then_ a after (retraced.traced traced))

variable (kept : KeptByRequests R reply)
include kept

theorem send (r : Request A V) : Records R reply (Machine.send r : Eval P A V _) :=
  fun _ traced => retraces_send kept traced r

theorem alloc (name : Name) : Records R reply (perform (Machine.alloc name) : Eval P A V A) :=
  send kept (.alloc name)

theorem assign (a : A) (v : V) :
    Records R reply (perform (Machine.assign a v) : Eval P A V Unit) := send kept (.assign a v)

theorem bindName (name : Name) (a : A) :
    Records R reply (perform (Machine.bind name a) : Eval P A V Unit) :=
  fun _ _ => .of_untraced kept rfl rfl rfl rfl [.bound name a] rfl rfl

theorem popScope : Records R reply (Machine.popScope : Eval P A V Unit) := by
  intro m _
  rw [outcome_popScope]
  cases m.environment.pop? with
  | none => exact .refl kept m
  | some frame => exact .silent kept rfl rfl rfl rfl rfl

theorem locally (body : Records R reply eval) : Records R reply (Machine.locally eval) := by
  intro m traced
  have entered : Retraces R reply m (pushScope m).2 :=
    .silent kept rfl rfl rfl rfl rfl
  have evaluated := entered.trans (body _ (entered.traced traced))
  rw [outcome_locally]
  generalize outcome eval (pushScope m).2 = inner at evaluated ⊢
  have left := evaluated.trans (popScope kept _ (evaluated.traced traced))
  generalize popped : outcome Machine.popScope inner.2 = final at left
  rcases final with ⟨_ | _, final⟩ <;> simpa only [popped] using left

omit kept in
/-- What is in force may be changed for a body and put back after it. -/
theorem around (enter : Machine P A V → Machine P A V)
    (leave : Machine P A V → Machine P A V → Machine P A V) (body : Records R reply eval)
    (entered : ∀ m, Retraces R reply m (enter m))
    (left : ∀ m after, Retraces R reply after (leave m after)) (m : Machine P A V)
    (traced : Traced m) : Retraces R reply m (leave m (outcome eval (enter m)).2) :=
  ((entered m).trans (body _ ((entered m).traced traced))).trans (left m _)

theorem withAddressHandler (handler : Option (AddressHandler A V)) (body : Records R reply eval) :
    Records R reply (Machine.withAddressHandler handler eval) :=
  around (fun m => { m with recovery := { m.recovery with address := handler } })
    (fun m after =>
      { after with recovery := { after.recovery with address := m.recovery.address } })
    body (fun _ => .silent kept rfl rfl rfl rfl rfl) (fun _ _ => .silent kept rfl rfl rfl rfl rfl)

theorem enclose (setting : Setting A V) (body : Records R reply eval) :
    Records R reply (setting.enclose eval) := by
  cases setting with
  | plain => exact body
  | locally => exact locally kept body
  | inModule module =>
    exact around (fun m => { m with module }) (fun m after => { after with module := m.module })
      body (fun _ => .silent kept rfl rfl rfl rfl rfl) (fun _ _ => .silent kept rfl rfl rfl rfl rfl)
  | strictly => exact withAddressHandler kept none body
  | recovering handler => exact withAddressHandler kept (some handler) body
  | recoveringVariables handler =>
    exact around (fun m => { m with recovery := { m.recovery with freeVariable := some handler } })
      (fun m after => { after with recovery :=
        { after.recovery with freeVariable := m.recovery.freeVariable } })
      body (fun _ => .silent kept rfl rfl rfl rfl rfl) (fun _ _ => .silent kept rfl rfl rfl rfl rfl)

theorem box (v : V) : Records R reply (perform (Machine.box v) : Eval P A V A) := by
  intro m traced
  have named : Retraces R reply m (gensym m).2 := .silent kept rfl rfl rfl rfl rfl
  have placed := named.trans (alloc kept (gensym m).1 _ (named.traced traced))
  exact placed.trans (assign kept _ v _ (placed.traced traced))

theorem lookupOrAlloc (name : Name) :
    Records R reply (perform (Machine.lookupOrAlloc name) : Eval P A V A) := by
  intro m traced
  change Retraces R reply m (Machine.lookupOrAlloc name m).2
  unfold Machine.lookupOrAlloc
  split
  next => exact .refl kept m
  next => exact alloc kept name m traced

theorem freeVariable (name : Name) :
    Records R reply (Machine.freeVariable name : Eval P A V A) := by
  intro m traced
  simp only [outcome_freeVariable]
  generalize FreeVariable.mk name m.module m.span = fault
  cases m.recovery.answerVariable fault with
  | none => exact .refl kept m
  | some v =>
    have warned : Retraces R reply m (m.note (.resumedVariable fault v)) :=
      .of_untraced kept rfl rfl rfl rfl [.resumedVariable fault v] rfl rfl
    exact warned.trans (box kept v _ (warned.traced traced))

theorem resolve (name : Name) : Records R reply (Machine.resolve name : Eval P A V A) := by
  intro m traced
  rw [outcome_resolve]
  cases m.lookup name with
  | none => exact freeVariable kept name m traced
  | some a => exact .refl kept m

/-- Each operation of a machine, those made of several requests included. -/
theorem perform_op {β : Type} (op : Op P A V β) : Records R reply op.perform := by
  cases op with
  | alloc name => exact alloc kept name
  | gc roots => exact send kept (.gc roots)
  | collect => exact fun m traced => send kept (.gc m.liveRoots) m traced
  | deref a => exact fun m traced => send_deref a m ▸ send kept (.deref a) m traced
  | assign a v => exact assign kept a v
  | bind name a => exact bindName kept name a
  | popScope => exact popScope kept
  | box v => exact box kept v
  | lookupOrAlloc name => exact lookupOrAlloc kept name
  | freeVariable name => exact freeVariable kept name
  | resolve name => exact resolve kept name
  | lookup | pushScope | gensym | addRoot | removeRoot | setModule | setSpan | setRecovery | rebind
  | inspect => exact fun _ _ => .silent kept rfl rfl rfl rfl rfl

theorem define (name : Name) {body : Eval P A V V} (records : Records R reply body) :
    Records R reply (Machine.define name body) := by
  refine (lookupOrAlloc kept name).bind fun a => bind ?_ fun _ => bind ?_ fun v => ?_
  · exact fun _ _ => .of_untraced kept rfl rfl rfl rfl [.defining name a] rfl rfl
  · exact locally kept ((bindName kept name a).bind fun _ => records)
  · exact (assign kept a v).bind fun _ m _ => .refl kept m

theorem delegate (name : Name) {body : A → Eval P A V α} (records : ∀ a, Records R reply (body a)) :
    Records R reply (Machine.delegate name body) := by
  refine (lookupOrAlloc kept name).bind fun a => bind ?_ fun _ => ?_
  · exact fun _ _ => .of_untraced kept rfl rfl rfl rfl [.delegating name a] rfl rfl
  · exact locally kept ((bindName kept name a).bind fun _ => records a)

end Records

theorem Program.records_run (kept : KeptByRequests R reply) {α : Type} (program : Program P A V α) :
    Records R reply program.run := by
  induction program with
  | done result => exact fun m _ => .refl kept m
  | act op next ih => exact (Records.perform_op kept op).observe.bind ih
  | within setting body next ih_body ih_next =>
    exact (Records.enclose kept setting ih_body).observe.bind ih_next
  | define name body next ih_body ih_next =>
    exact (Records.define kept name ih_body).observe.bind ih_next
  | delegate name body next ih_body ih_next =>
    exact (Records.delegate kept name ih_body).observe.bind ih_next

/-- From a new machine on, the trace tells all requests and the journal all addresses. -/
theorem Program.retraces_fresh (kept : KeptByRequests R reply) {policy : P} {options : Options}
    (trace : options.trace = true) (unlimited : options.traceLimit = none) {α : Type}
    (program : Program P A V α) (k : Machine P A V) (alike : R (fresh policy options) k) :
    let final := (outcome program.run (fresh policy options)).2
    let replay := sendAll final.trace k
    R final replay.2 ∧ allocations (final.trace.zip replay.1) =
      (final.journal.filterMap Event.allocation?).map reply := by
  intro final replay
  obtain ⟨-, requests, events, recorded, journal, replayed⟩ :=
    program.records_run kept (fresh policy options) ⟨trace, unlimited⟩
  have recorded : final.trace = requests := recorded
  have journal : final.journal = events := journal
  obtain ⟨there, answered⟩ := replayed k alike
  rw [← recorded] at there answered
  exact ⟨there, journal ▸ answered⟩

end Likeness

/-- Where modules are ignored, machines that are alike stay so. -/
theorem Alike.keptByRequests (ignores : IgnoresModules P) :
    KeptByRequests (Alike : Machine P A V → Machine P A V → Prop) id where
  untraced policy heap options _ alike :=
    ⟨alike.policy.trans policy.symm, alike.heap.trans heap.symm,
      alike.storeMode.trans (congrArg Options.storeMode options.symm)⟩
  sent {m k} r alike := by
    obtain ⟨_, _, sent⟩ := r.send_eq m
    obtain ⟨_, _, resent⟩ := r.send_eq k
    have sent : outcome (send r) m = _ := sent
    have resent : outcome (send r) k = _ := resent
    rw [sent, resent, List.map_id]
    exact ⟨⟨r.policy_congr ignores alike, r.heap_congr ignores alike, alike.storeMode⟩,
      r.allocations_congr ignores alike⟩

/-- Send what a program has left on the trace to a new machine that has the same policy, stores
alike and has no handlers, whether or not the requests are answered. The addresses that are handed
out are those that the program was given, and the heap and the policy end up the same. -/
def Replays (P : Type) {A : Type} (V : Type) [Address A] [Value V A] [AllocationPolicy P A] :
    Prop :=
  ∀ (policy : P) (options later : Options), options.trace = true → options.traceLimit = none →
    later.storeMode = options.storeMode → ∀ {α : Type} (program : Program P A V α),
      let final := (outcome program.run (fresh policy options)).2
      let replay := sendAll final.trace (fresh policy later)
      allocations (final.trace.zip replay.1) = final.journal.filterMap Event.allocation? ∧
      replay.2.heap = final.heap ∧ replay.2.policy = final.policy

theorem replays (ignores : IgnoresModules P) : Replays P V := by
  intro policy options later trace unlimited sameMode α program
  obtain ⟨alike, addresses⟩ := program.retraces_fresh (Alike.keptByRequests ignores) trace unlimited
    (fresh policy later) ⟨rfl, rfl, sameMode⟩
  exact ⟨addresses.trans (List.map_id _), alike.heap, alike.policy⟩

/-- Programs are replayed from their traces where each allocation has an address of its own, and
where each name has one. Searches for members are among them, all that end
(`Machine.Hunts.run_search`), and the journal tells of an allocation what it was answered with. -/
theorem replay_of_trace :
    (∀ (V : Type) [Value V Precise], Replays FreshPolicy V) ∧
    (∀ (V : Type) [Value V Monovariant], Replays PerNamePolicy V) ∧
    ∀ (P A V : Type) [Address A] [Value V A] [AllocationPolicy P A],
      (∀ (a : A) (member : Name),
        (Program.lookupMember a member : Program P A (Object A) _).run =
          Machine.lookupMember a member) ∧
      ∀ (name : Name) (m : Machine P A V), (Machine.alloc name m).2.journal =
        m.journal ++ [.allocated name (Machine.alloc name m).1] :=
  ⟨fun _ _ => replays FreshPolicy.ignoresModules, fun _ _ => replays PerNamePolicy.ignoresModules,
    fun _ _ _ _ _ _ => ⟨Program.run_lookupMember, fun _ _ => rfl⟩⟩

/-- A definition whose body meets a free variable, and two readings of which one fails. -/
def defineAndRead : Program FreshPolicy Precise (Object Precise) (Cell (Object Precise)) :=
  .define (.user "f")
    (.within (.recoveringVariables fun _ => some .top)
      (.act (.resolve (.user "x")) fun
        | .ok a => .done (.ok (.reference a))
        | .error e => .done (.error e))
      .done)
    fun
      | .ok (_, a) => .act (.deref a) fun _ => .act (.deref ⟨7⟩) .done
      | .error e => .done (.error e)

/-- The machine on which the program has been recorded. -/
def definedAndRead : Machine FreshPolicy Precise (Object Precise) :=
  (outcome defineAndRead.run (fresh {} { trace := true })).2

theorem trace_definedAndRead : definedAndRead.trace = [.alloc (.user "f"), .alloc (.gensym 0),
    .assign ⟨1⟩ .top, .assign ⟨0⟩ (.reference ⟨1⟩), .deref ⟨0⟩, .deref ⟨7⟩] := by cbv

theorem allocations_definedAndRead : definedAndRead.journal.filterMap Event.allocation? =
    [(.user "f", ⟨0⟩), (.gensym 0, ⟨1⟩)] := by cbv

theorem replay_of_trace_defineAndRead :
    let replay := sendAll definedAndRead.trace (fresh ({} : FreshPolicy) {})
    definedAndRead.trace = [.alloc (.user "f"), .alloc (.gensym 0), .assign ⟨1⟩ .top,
      .assign ⟨0⟩ (.reference ⟨1⟩), .deref ⟨0⟩, .deref ⟨7⟩] ∧
    allocations (definedAndRead.trace.zip replay.1) = [(.user "f", ⟨0⟩), (.gensym 0, ⟨1⟩)] ∧
    replay.2.heap = definedAndRead.heap ∧ replay.2.policy = definedAndRead.policy := by
  have recorded := trace_definedAndRead
  have told := allocations_definedAndRead
  have replayed :=
    replay_of_trace.1 (Object Precise) {} { trace := true } {} rfl rfl rfl defineAndRead
  -- The machine is made opaque, or the run would be evaluated at every comparison.
  generalize same : definedAndRead = final at recorded told ⊢
  rw [definedAndRead] at same
  rw [same] at replayed
  obtain ⟨addresses, heap, policy⟩ := replayed
  exact ⟨recorded, addresses.trans told, heap, policy⟩

end AbstractStore
