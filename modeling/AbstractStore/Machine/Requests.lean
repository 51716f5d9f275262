import AbstractStore.Machine.State

/-! Requests against a machine: allocation, collection, reading and assignment.
Each is recorded before it is answered. -/

namespace AbstractStore.Machine

section Memory

variable {P A V : Type} [Address A] [Value V A]

/-- The addresses reached from the roots; the machine tells how many. -/
def reach (roots : LiveSet A) : Action P A V (LiveSet A) := fun m =>
  let live := m.heap.reachable roots
  (live, m.note (.reached roots.size live.size))

/-- Drop every cell that is not reached from the roots. -/
def gc (roots : LiveSet A) : Action P A V Unit := fun m =>
  let (live, m) := reach roots (m.record (.gc roots))
  let heap := m.heap.restrict live
  ((), { m with heap }.note (.collected roots.size heap.size m.heap.size))

def collect : Action P A V Unit := fun m => gc m.liveRoots m

/-- Offer a fault to the handler for addresses. -/
def resume (fault : AddressFault A) : Eval P A V (Cell V) := ExceptT.mk fun m =>
  match m.recovery.answerAddress fault with
  | some v => (.ok (.singleton v), m.note (.resumedFault fault v))
  | none => (.error (.address fault), m)

/-- The values at an address. That there are none is a fault. -/
def deref (a : A) : Eval P A V (Cell V) := ExceptT.mk fun m =>
  let m := (m.record (.deref a)).note (.dereferenced a)
  match m.heap.lookup a with
  | none => resume (.unallocated a) m
  | some c => if c.isEmpty then resume (.uninitialized a) m else (.ok c, m)

end Memory

section Policy

variable {P A V : Type} [Address A] [AllocationPolicy P A] [Value V A]

/-- The address for a name. There is a cell at it afterwards, and no value is stored. -/
def alloc (name : Name) : Action P A V A := fun m =>
  let m := m.record (.alloc name)
  let (a, policy) := AllocationPolicy.allocate m.policy name m.module
  (a, { m with policy, heap := m.heap.reserve a }.note (.allocated name a))

/-- How assignments to an address are stored. -/
def storeMode (m : Machine P A V) (a : A) : StoreMode :=
  m.options.storeMode.getD (AllocationPolicy.storeMode m.policy a)

def assign (a : A) (v : V) : Action P A V Unit := fun m =>
  let m := (m.record (.assign a v)).note (.assigned a v)
  ((), { m with heap := m.heap.assign a v (m.storeMode a) })

def send : Request A V → Eval P A V (Response A V)
  | .alloc name => do return .address (← perform (alloc name))
  | .gc roots => do
      perform (gc roots)
      return .done
  | .deref a => do return .cell (← deref a)
  | .assign a v => do
      perform (assign a v)
      return .done

/-- Send requests in order, whether or not those before them were answered. -/
def sendAll (requests : List (Request A V)) :
    Action P A V (List (Except (Error A) (Response A V))) :=
  requests.mapM fun r => (send r).run

end Policy

end AbstractStore.Machine
