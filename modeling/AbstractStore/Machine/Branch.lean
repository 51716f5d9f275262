import AbstractStore.Machine.State

/-! Branches of an analysis that meet again. -/

namespace AbstractStore.Machine

variable {P A V : Type} [Address A] [AllocationPolicy P A] [Value V A]

/-- Merge another branch into a machine: its heap, the addresses its evaluator holds, and what
keeps later addresses and names fresh. All else is the machine's own. -/
def join (m other : Machine P A V) : Machine P A V :=
  { m with
    policy := AllocationPolicy.join m.policy other.policy
    names := m.names.join other.names
    heap := m.heap.join other.heap
    stackRoots := m.stackRoots ∪ other.stackRoots }

end AbstractStore.Machine
