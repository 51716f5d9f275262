import AbstractStore.Machine.State

/-! Snapshots of an evaluation: a term with the roots, environment and heap it is evaluated in. -/

namespace AbstractStore

structure Snapshot (T A V : Type) [Ord A] [Ord V] where
  term : T
  roots : LiveSet A
  environment : Environment A
  heap : Heap A V
  deriving DecidableEq

variable {P T A V : Type} [Address A] [Value V A]

def Machine.snapshot (m : Machine P A V) (term : T) : Snapshot T A V :=
  ⟨term, m.liveRoots, m.environment, m.heap⟩

open Json in
def Snapshot.codec (term : Codec T) (value : Codec V) : Codec (Snapshot T A V) :=
  (Codec.record ((Fields.one "term" term).and ((Fields.one "roots" LiveSet.codec).and
    ((Fields.one "environment" Environment.codec).and (.one "heap" (Heap.codec value)))))).via
    (fun (term, roots, environment, heap) => ⟨term, roots, environment, heap⟩)
    (fun s => (s.term, s.roots, s.environment, s.heap))

end AbstractStore
