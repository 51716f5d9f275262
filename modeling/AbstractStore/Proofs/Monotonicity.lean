import AbstractStore.Machine.Branch
import AbstractStore.Object
import AbstractStore.Proofs.Requests
import Mathlib.Data.List.Forall2

/-! Heaps that hold more.
A heap is below another when all that it holds is in the other. Requests keep that order, a
collection too: from a larger heap more is reached, so it keeps more. What a machine reads, a
machine above it reads as well. The heap of two branches that meet is above the heaps of both. Which
addresses are handed out then, and how assignments are stored, is as in the branch that is kept. So
what is done after the meeting covers what would have been done in that branch, and in the other one
where that one hands out the same addresses and is not the only one to join values (`Covers`). -/

namespace AbstractStore

open Machine

section Heaps

variable {A V : Type} [Address A] [Value V A] {h k : Heap A V} {roots : LiveSet A} {a b : A} {v w : V}
variable {mode : StoreMode}

namespace Heap

/-- Where `h` has a cell `k` has one too, and it holds all the values of the cell. -/
instance : LE (Heap A V) where
  le h k := ∀ a c, h.lookup a = some c → ∃ d, k.lookup a = some d ∧ ∀ v ∈ c, v ∈ d

theorem mem_valuesAt_iff : v ∈ h.valuesAt a ↔ ∃ c, h.lookup a = some c ∧ v ∈ c := by
  unfold valuesAt
  cases h.lookup a with
  | none => simp
  | some c => simp

theorem valuesAt_reserve : (h.reserve a).valuesAt b = h.valuesAt b := by
  unfold valuesAt
  rw [lookup_reserve]
  split
  next same => subst same; rfl
  next => rfl

theorem mem_valuesAt_assign : w ∈ (h.assign a v mode).valuesAt b ↔
    (a = b ∧ w = v) ∨ (a = b → mode = .weak) ∧ w ∈ h.valuesAt b := by
  rw [valuesAt, lookup_assign]
  by_cases same : a = b
  · subst same
    cases mode <;> simp
  · simp [same, valuesAt]

theorem mem_valuesAt_join : v ∈ (h.join k).valuesAt a ↔ v ∈ h.valuesAt a ∨ v ∈ k.valuesAt a := by
  simp only [valuesAt, lookup_join]
  cases k.lookup a <;> simp

theorem mem_valuesAt_collect :
    v ∈ (h.collect roots).valuesAt a ↔ a ∈ h.reachable roots ∧ v ∈ h.valuesAt a := by
  rw [valuesAt, lookup_collect]
  by_cases reached : a ∈ h.reachable roots <;> simp [reached, valuesAt]

/-- The order of heaps, as one on which addresses have cells and one on which values they hold. -/
theorem le_iff : h ≤ k ↔ (∀ a, h.contains a = true → k.contains a = true) ∧
    ∀ a v, v ∈ h.valuesAt a → v ∈ k.valuesAt a := by
  constructor
  · intro below
    refine ⟨fun a there => ?_, fun a v stored => ?_⟩
    · obtain ⟨c, found⟩ := contains_iff.1 there
      obtain ⟨d, above, -⟩ := below a c found
      exact contains_iff.2 ⟨d, above⟩
    · obtain ⟨c, found, inCell⟩ := mem_valuesAt_iff.1 stored
      obtain ⟨d, above, inside⟩ := below a c found
      exact mem_valuesAt_iff.2 ⟨d, above, inside v inCell⟩
  · rintro ⟨cells, values⟩ a c found
    obtain ⟨d, above⟩ := contains_iff.1 (cells a (contains_iff.2 ⟨c, found⟩))
    refine ⟨d, above, fun v inCell => ?_⟩
    obtain ⟨e, same, inside⟩ := mem_valuesAt_iff.1 (values a v (mem_valuesAt_iff.2 ⟨c, found, inCell⟩))
    rw [above] at same
    cases same
    exact inside

theorem le_antisymm (below : h ≤ k) (above : k ≤ h) : h = k := by
  have ⟨cells, values⟩ := le_iff.1 below
  have ⟨cellsAbove, valuesAbove⟩ := le_iff.1 above
  refine ext fun a => ?_
  have sameValues : h.valuesAt a = k.valuesAt a :=
    AscSet.ext fun v => ⟨values a v, valuesAbove a v⟩
  cases found : h.lookup a with
  | none =>
    refine (Option.eq_none_iff_forall_ne_some.2 fun c there => ?_).symm
    obtain ⟨d, stored⟩ := contains_iff.1 (cellsAbove a (contains_iff.2 ⟨c, there⟩))
    cases found.symm.trans stored
  | some c =>
    obtain ⟨d, there⟩ := contains_iff.1 (cells a (contains_iff.2 ⟨c, found⟩))
    rw [valuesAt, valuesAt, found, there] at sameValues
    rw [there]
    exact congrArg some sameValues

theorem leads_mono (below : h ≤ k) (next : h.Leads a b) : k.Leads a b := by
  obtain ⟨c, found, v, inCell, embedded⟩ := next
  obtain ⟨d, above, inside⟩ := below a c found
  exact ⟨d, above, v, inside v inCell, embedded⟩

theorem reachable_mono (below : h ≤ k) : ∀ a ∈ h.reachable roots, a ∈ k.reachable roots :=
  forall_reachable (fun _ root => mem_reachable_of_mem_roots root)
    fun _ _ reached next => mem_reachable_of_leads reached (leads_mono below next)

theorem reserve_mono (below : h ≤ k) (a : A) : h.reserve a ≤ k.reserve a := by
  have ⟨cells, values⟩ := le_iff.1 below
  refine le_iff.2 ⟨fun b there => ?_, fun b v stored => ?_⟩
  · exact contains_reserve.2 ((contains_reserve.1 there).imp_right (cells b))
  · rw [valuesAt_reserve] at stored ⊢
    exact values b v stored

/-- An assignment that replaces what is there leaves no more than one that joins it. -/
theorem assign_mono (below : h ≤ k) (a : A) (v : V) {mode above : StoreMode}
    (joins : mode = .weak → above = .weak) : h.assign a v mode ≤ k.assign a v above := by
  have ⟨cells, values⟩ := le_iff.1 below
  refine le_iff.2 ⟨fun b there => ?_, fun b w stored => ?_⟩
  · exact contains_assign.2 ((contains_assign.1 there).imp_right (cells b))
  · refine mem_valuesAt_assign.2 ((mem_valuesAt_assign.1 stored).imp_right ?_)
    rintro ⟨kept, inside⟩
    exact ⟨fun same => joins (kept same), values b w inside⟩

theorem collect_mono (below : h ≤ k) (roots : LiveSet A) : h.collect roots ≤ k.collect roots := by
  have ⟨cells, values⟩ := le_iff.1 below
  have reached : ∀ a ∈ h.reachable roots, a ∈ k.reachable roots := reachable_mono below
  refine le_iff.2 ⟨fun a there => ?_, fun a v stored => ?_⟩
  · exact contains_collect.2 ((contains_collect.1 there).imp (reached a) (cells a))
  · exact mem_valuesAt_collect.2 ((mem_valuesAt_collect.1 stored).imp (reached a) (values a v))

theorem le_join_left (h k : Heap A V) : h ≤ h.join k :=
  le_iff.2 ⟨fun _ there => contains_join.2 (.inl there),
    fun _ _ stored => mem_valuesAt_join.2 (.inl stored)⟩

theorem le_join_right (h k : Heap A V) : k ≤ h.join k :=
  le_iff.2 ⟨fun _ there => contains_join.2 (.inr there),
    fun _ _ stored => mem_valuesAt_join.2 (.inr stored)⟩

end Heap

/-- An answer and the answer to the same request in a machine above: where the one is no error the
other is none, an address is the same, and a cell holds at least as much. -/
def Response.Within (answer above : Except (Error A) (Response A V)) : Prop :=
  match answer with
  | .error _ => True
  | .ok (.address a) => above = .ok (.address a)
  | .ok (.cell c) => ∃ d, above = .ok (.cell d) ∧ ∀ v ∈ c, v ∈ d
  | .ok .done => above = .ok .done

end Heaps

section Machines

variable {P A V : Type} [Address A] [AllocationPolicy P A] [Value V A] {m k : Machine P A V}

namespace Machine

/-- Whatever the state of the policy, `k` hands out the address for a name that `m` does, and where
an assignment by `m` joins what is stored, one by `k` joins it as well. -/
structure Covers (k m : Machine P A V) : Prop where
  allocate (p : P) (name : Name) :
    AllocationPolicy.allocate p name k.module = AllocationPolicy.allocate p name m.module
  joins (p : P) (a : A) : m.options.storeMode.getD (AllocationPolicy.storeMode p a) = .weak →
    k.options.storeMode.getD (AllocationPolicy.storeMode p a) = .weak

theorem covers_of_same (storeMode : k.options.storeMode = m.options.storeMode)
    (module : k.module = m.module) : k.Covers m where
  allocate p name := by rw [module]
  joins p a weak := by rw [storeMode, weak]

/-- In one state of the policy, `k` covers `m`, and all that the heap of `m` holds is in `k`. -/
structure Below (m k : Machine P A V) : Prop where
  policy : k.policy = m.policy
  covers : k.Covers m
  heap : m.heap ≤ k.heap

namespace Below

theorem reads (below : Below m k) (strict : m.recovery.address = none)
    (strictAbove : k.recovery.address = none) {a : A} {c : Cell V} (read : m.reading a = .ok c) :
    ∃ d, k.reading a = .ok d ∧ ∀ v ∈ c, v ∈ d := by
  rw [reading_of_strict strict] at read
  cases found : m.heap.lookup a with
  | none => simp [found] at read
  | some cell =>
    by_cases empty : cell.isEmpty = true
    · simp [found, empty] at read
    · obtain rfl : cell = c := by simpa [found, empty] using read
      obtain ⟨d, above, inside⟩ := below.heap a cell found
      refine ⟨d, ?_, inside⟩
      have nonempty : d.isEmpty = false := by
        obtain ⟨v, inCell⟩ := AscSet.isEmpty_eq_false_iff.1 (Bool.eq_false_iff.2 empty)
        exact AscSet.isEmpty_eq_false_iff.2 ⟨v, inside v inCell⟩
      simp [reading_of_strict strictAbove, above, nonempty]

theorem answer (below : Below m k) (strict : m.recovery.address = none)
    (strictAbove : k.recovery.address = none) (r : Request A V) :
    Response.Within (r.answer m) (r.answer k) := by
  cases r with
  | alloc name =>
    rw [Request.answer, Request.answer, below.policy, below.covers.allocate]
    rfl
  | gc | assign => rfl
  | deref a =>
    cases read : m.reading a with
    | error e => simp [Response.Within, Request.answer, read, Except.map]
    | ok c =>
      obtain ⟨d, above, inside⟩ := below.reads strict strictAbove read
      simp only [Response.Within, Request.answer, read, above, Except.map]
      exact ⟨d, rfl, inside⟩

theorem send (below : Below m k) (r : Request A V) :
    Below ((send r).run.run m).2 ((send r).run.run k).2 := by
  obtain ⟨trace, journal, sent⟩ := r.send_eq m
  obtain ⟨traceK, journalK, sentK⟩ := r.send_eq k
  rw [sent, sentK]
  have ⟨policy, covers, heap⟩ := below
  refine ⟨?_, ⟨covers.allocate, covers.joins⟩, ?_⟩
  · cases r with
    | alloc name => simp only [Request.policy, policy, covers.allocate]
    | gc | deref | assign => exact policy
  · cases r with
    | alloc name =>
      simp only [Request.heap, policy, covers.allocate]
      exact Heap.reserve_mono heap _
    | gc roots => exact Heap.collect_mono heap roots
    | deref a => exact heap
    | assign a v =>
      simp only [Request.heap, storeMode, policy]
      exact Heap.assign_mono heap a v (covers.joins m.policy a)

theorem sendAll (below : Below m k) (requests : List (Request A V)) :
    Below (sendAll requests m).2 (sendAll requests k).2 := by
  induction requests generalizing m k with
  | nil => exact below
  | cons r later ih =>
    rw [sendAll_cons, sendAll_cons]
    exact ih (below.send r)

end Below

end Machine

theorem within_sendAll (below : Machine.Below m k) (strict : m.recovery.address = none)
    (strictAbove : k.recovery.address = none) (requests : List (Request A V)) :
    List.Forall₂ Response.Within (sendAll requests m).1 (sendAll requests k).1 := by
  induction requests generalizing m k with
  | nil => exact .nil
  | cons r later ih =>
    have after := below.send r
    obtain ⟨trace, journal, sent⟩ := r.send_eq m
    obtain ⟨traceK, journalK, sentK⟩ := r.send_eq k
    rw [sent, sentK] at after
    rw [sendAll_cons, sendAll_cons, sent, sentK]
    exact .cons (below.answer strict strictAbove r) (ih after strict strictAbove)

/-- Where the policies of two branches agree, their meeting is above the one that is kept, and above
the other one if the one that is kept covers it. -/
theorem Machine.below_join {l r : Machine P A V} (settled : ∀ p : P, AllocationPolicy.join p p = p)
    (policy : r.policy = l.policy) :
    Below l (l.join r) ∧ (l.Covers r → Below r (l.join r)) := by
  have joined : (l.join r).policy = l.policy := by
    change AllocationPolicy.join l.policy r.policy = l.policy
    rw [policy, settled]
  refine ⟨⟨joined, covers_of_same rfl rfl, Heap.le_join_left l.heap r.heap⟩, fun covers => ?_⟩
  exact ⟨joined.trans policy.symm, ⟨covers.allocate, covers.joins⟩,
    Heap.le_join_right l.heap r.heap⟩

/-- Send the same requests to two machines that hand out and store alike, the second with all that
the first has in its heap. At every step it still has all of that, it hands out the same addresses,
and what the first reads it reads as well. So what is requested after two branches have met gives
a heap above the one that the branch that is kept would have come to. It is above the one that the
other branch would have come to if the one that is kept covers it, as it does where the two are in
one module and are told the same about how to store. -/
theorem requests_monotone :
    (∀ m k : Machine P A V, k.policy = m.policy → k.options = m.options → k.module = m.module →
      m.recovery.address = none → k.recovery.address = none → m.heap ≤ k.heap →
      ∀ requests : List (Request A V),
        (∀ n, (sendAll (requests.take n) m).2.heap ≤ (sendAll (requests.take n) k).2.heap) ∧
        List.Forall₂ Response.Within (sendAll requests m).1 (sendAll requests k).1) ∧
    ((∀ p : P, AllocationPolicy.join p p = p) → ∀ l r : Machine P A V, r.policy = l.policy →
      ∀ requests : List (Request A V),
        (sendAll requests l).2.heap ≤ (sendAll requests (l.join r)).2.heap ∧
        (l.Covers r → (sendAll requests r).2.heap ≤ (sendAll requests (l.join r)).2.heap)) ∧
    (∀ m k : Machine P A V, k.options.storeMode = m.options.storeMode → k.module = m.module →
      k.Covers m) ∧
    (∀ p : FreshPolicy, AllocationPolicy.join p p = p) ∧
    (∀ p : PerNamePolicy, AllocationPolicy.join p p = p) ∧
    ∀ p : PerModulePolicy, AllocationPolicy.join p p = p := by
  refine ⟨fun m k policy options module strict strictAbove heap requests => ?_,
    fun settled l r policy requests => ?_, fun _ _ => covers_of_same, fun p => ?_, fun _ => rfl,
    fun _ => rfl⟩
  · have covers : k.Covers m := covers_of_same (congrArg Options.storeMode options) module
    have below : Below m k := ⟨policy, covers, heap⟩
    exact ⟨fun n => (below.sendAll _).heap, within_sendAll below strict strictAbove requests⟩
  · have ⟨left, right⟩ := below_join settled policy
    exact ⟨(left.sendAll requests).heap, fun covers => ((right covers).sendAll requests).heap⟩
  · exact congrArg FreshPolicy.mk (ite_self p.next)

/-- A branch that has stored an object at the first address there is. -/
def branchHolding (o : Object Precise) : Machine FreshPolicy Precise (Object Precise) :=
  (sendAll [.alloc (.user "x"), .assign ⟨0⟩ o] (fresh {} {})).2

/-- A new address is made to refer to the old one, all else is dropped, and the old one is read. -/
def referAndRead : List (Request Precise (Object Precise)) :=
  [.alloc (.user "y"), .assign ⟨1⟩ (.reference ⟨0⟩), .gc (.singleton ⟨1⟩), .deref ⟨0⟩, .deref ⟨7⟩]

/-- Branches that store different things at one address, and what is read when they have met. -/
theorem requests_monotone_branchHolding :
    let l := branchHolding (.integer 1)
    let r := branchHolding (.reference ⟨0⟩)
    r.policy = l.policy ∧ l.Covers r ∧
    l.recovery.address = none ∧ (l.join r).recovery.address = none ∧
    l.heap ≤ (l.join r).heap ∧ (∀ p : FreshPolicy, AllocationPolicy.join p p = p) ∧
    List.Forall₂ Response.Within (sendAll referAndRead l).1 (sendAll referAndRead (l.join r)).1 ∧
    (sendAll referAndRead l).2.heap ≤ (sendAll referAndRead (l.join r)).2.heap ∧
    (sendAll referAndRead r).2.heap ≤ (sendAll referAndRead (l.join r)).2.heap := by
  intro l r
  have left : l.heap ≤ (l.join r).heap := Heap.le_join_left l.heap r.heap
  have settled (p : FreshPolicy) : AllocationPolicy.join p p = p :=
    congrArg FreshPolicy.mk (ite_self p.next)
  have answers := (requests_monotone.1 l (l.join r) rfl rfl rfl rfl rfl left referAndRead).2
  have heaps := requests_monotone.2.1 settled l r rfl referAndRead
  have covers : l.Covers r := requests_monotone.2.2.1 r l rfl rfl
  exact ⟨rfl, covers, rfl, rfl, left, settled, answers, heaps.1, heaps.2 covers⟩

/-- A branch that went on in another module allocates there, and not so what it was merged into. A
branch that joins what it stores keeps what was there, and not so what replaces it. -/
theorem merged_not_above :
    let here : Machine PerModulePolicy Located (Object Located) := fresh {} {}
    let elsewhere := { here with module := ⟨"m"⟩ }
    let replacing := branchHolding (.integer 1)
    let joining := { replacing with options.storeMode := some .weak }
    (elsewhere.policy = here.policy ∧ elsewhere.options = here.options ∧
      ¬ (sendAll [.alloc (.user "x")] elsewhere).2.heap ≤
        (sendAll [.alloc (.user "x")] (here.join elsewhere)).2.heap) ∧
    joining.policy = replacing.policy ∧ joining.module = replacing.module ∧
      ¬ (sendAll [.assign ⟨0⟩ (.integer 2)] joining).2.heap ≤
        (sendAll [.assign ⟨0⟩ (.integer 2)] (replacing.join joining)).2.heap := by
  intro here elsewhere replacing joining
  refine ⟨⟨rfl, rfl, fun below => ?_⟩, rfl, rfl, fun below => ?_⟩
  · obtain ⟨c, found, -⟩ := below ⟨⟨"m"⟩, .user "x"⟩ ∅ (by decide +kernel)
    cases found
  · have last : (sendAll [.assign ⟨0⟩ (.integer 2)] (replacing.join joining)).2.heap.lookup ⟨0⟩ =
        some (.singleton (.integer 2)) := rfl
    obtain ⟨c, found, kept⟩ := below ⟨0⟩ (.ofList [.integer 1, .integer 2]) rfl
    cases last.symm.trans found
    have first : Object.integer 1 ∈ (.singleton (.integer 2) : Cell (Object Precise)) :=
      kept _ (AscSet.mem_ofList.2 (List.mem_cons_self ..))
    cases AscSet.mem_singleton.1 first

end Machines

end AbstractStore
