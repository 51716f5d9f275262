import AbstractStore.Heap

/-! Reachability and collection.
From a set of roots the heap is swept address by address, the least of the frontier first: an
address is marked, and the addresses that its values embed join the frontier unless they are
marked. A root without a cell is reached and leads nowhere. -/

namespace AbstractStore

namespace Heap

variable {A V : Type} [Address A] [Value V A]

structure Sweep (A : Type) [Ord A] where
  marked : LiveSet A
  frontier : LiveSet A

namespace Sweep

def start (roots : LiveSet A) : Sweep A := ⟨∅, roots⟩

/-- One address more, or `none` when the frontier is empty. -/
def step? (h : Heap A V) (s : Sweep A) : Option (Sweep A) :=
  match s.frontier.popFirst? with
  | none => none
  | some (a, rest) =>
      let marked := s.marked.insert a
      some ⟨marked, rest ∪ (h.successors a \ marked)⟩

/-- The addresses that the sweep may still visit. -/
def pending (h : Heap A V) (s : Sweep A) : LiveSet A := s.frontier ∪ (h.embedded \ s.marked)

/-- An address that is visited is pending no more, and no other comes in its place. -/
theorem pending_step? {h : Heap A V} {s t : Sweep A} (stepped : s.step? h = some t) :
    (t.pending h).size < (s.pending h).size := by
  unfold step? at stepped
  split at stepped
  next => cases stepped
  next a rest popped =>
    cases stepped
    obtain ⟨notAgain, split⟩ := AscSet.mem_of_popFirst? popped
    refine AscSet.size_lt_of_subset (a := a) (fun b => ?_) ?_ ?_
    · simp only [pending, AscSet.mem_union, AscSet.mem_diff, AscSet.mem_insert, split]
      have := mem_embedded_of_successors (h := h) (a := a) (b := b)
      grind
    · simp [pending, split]
    · simp [pending, notAgain]

/-- Sweep on until the frontier is empty; the marked addresses. -/
def finish (h : Heap A V) (s : Sweep A) : LiveSet A :=
  match stepped : s.step? h with
  | none => s.marked
  | some t =>
      have := pending_step? stepped
      finish h t
termination_by (s.pending h).size

end Sweep

/-- The addresses reached from the roots through the values of the heap. -/
def reachable (h : Heap A V) (roots : LiveSet A) : LiveSet A := (Sweep.start roots).finish h

/-- The part of the heap that is reached from the roots. -/
def collect (h : Heap A V) (roots : LiveSet A) : Heap A V := h.restrict (h.reachable roots)

end Heap

end AbstractStore
