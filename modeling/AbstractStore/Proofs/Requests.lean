import AbstractStore.Proofs.Steps

/-! What a request does to a machine.
A request moves the policy and the heap and leaves all else but the trace and the journal
(`Request.send_eq`). Requests that are sent one after the other compose (`Machine.sendAll_append`). -/

namespace AbstractStore

open Machine

variable {P A V : Type} [Address A] [Value V A]

/-- Without a handler what is read is what is stored, and that nothing is stored is an error. -/
theorem Machine.reading_of_strict {m : Machine P A V} (strict : m.recovery.address = none) (a : A) :
    m.reading a = match m.heap.lookup a with
      | none => .error (.address (.unallocated a))
      | some c => if c.isEmpty then .error (.address (.uninitialized a)) else .ok c := by
  have noAnswer (fault : AddressFault A) : m.onFault fault = .error (.address fault) := by
    simp only [onFault, Recovery.answerAddress, strict, Option.bind_none]
  unfold reading
  cases m.heap.lookup a with
  | none => exact noAnswer _
  | some c => exact congrArg (if c.isEmpty then · else .ok c) (noAnswer (.uninitialized a))

theorem Machine.answer_deref (m : Machine P A V) (a : A) :
    (Id.run (deref a m)).1 = m.reading a := by
  obtain ⟨trace, journal, same⟩ := deref_eq a m
  exact congrArg Prod.fst same

variable [AllocationPolicy P A]

namespace Request

/-- The policy after a request. -/
def policy (m : Machine P A V) : Request A V → P
  | .alloc name => (AllocationPolicy.allocate m.policy name m.module).2
  | .gc _ | .deref _ | .assign .. => m.policy

def heap (m : Machine P A V) : Request A V → Heap A V
  | .alloc name => m.heap.reserve (AllocationPolicy.allocate m.policy name m.module).1
  | .gc roots => m.heap.collect roots
  | .deref _ => m.heap
  | .assign a v => m.heap.assign a v (m.storeMode a)

def answer (m : Machine P A V) : Request A V → Except (Error A) (Response A V)
  | .alloc name => .ok (.address (AllocationPolicy.allocate m.policy name m.module).1)
  | .deref a => (m.reading a).map .cell
  | .gc _ | .assign .. => .ok .done

theorem send_eq (r : Request A V) (m : Machine P A V) : ∃ trace journal,
    (send r).run.run m =
      (r.answer m, { m with policy := r.policy m, heap := r.heap m, trace, journal }) := by
  cases r with
  | deref a =>
    obtain ⟨trace, journal, same⟩ := deref_eq a m
    refine ⟨trace, journal, ?_⟩
    have sent : (send (.deref a) : Eval P A V _) =
        Machine.deref a >>= fun c => pure (.cell c) := rfl
    rw [sent, ExceptT.run_bind, StateT.run_bind, same, answer]
    cases m.reading a <;> rfl
  | alloc | gc | assign => exact ⟨_, _, rfl⟩

end Request

namespace Machine

theorem sendAll_cons (r : Request A V) (rs : List (Request A V)) (m : Machine P A V) :
    sendAll (r :: rs) m =
      let (answer, after) := (send r).run.run m
      let (answers, final) := sendAll rs after
      (answer :: answers, final) := by
  unfold sendAll
  rw [List.mapM_cons]
  rfl

theorem sendAll_append (rs later : List (Request A V)) (m : Machine P A V) :
    sendAll (rs ++ later) m =
      let (answers, after) := sendAll rs m
      let (more, final) := sendAll later after
      (answers ++ more, final) := by
  unfold sendAll
  rw [List.mapM_append]
  rfl

end Machine

end AbstractStore
