import AbstractStore.Object
import AbstractStore.Proofs.Branches
import AbstractStore.Proofs.LiveRoots
import AbstractStore.Proofs.Reachability

/-! No use after collection.
A machine is closed when every live root and every address in a stored value has a cell. Steps of
a client that names only addresses with cells keep machines closed, collections drop cells without
opening them, and so do forks and joins of branches. What a client of a closed machine comes across
it can read, or it meets a cell that holds no value yet. -/

namespace AbstractStore

open Machine

section Memory

variable {A V : Type} [Address A] [Value V A] {h k : Heap A V} {roots more : LiveSet A} {a b : A}
variable {v : V} {mode : StoreMode}

namespace Heap

/-- Every root and every address that a stored value embeds has a cell. -/
structure Encloses (h : Heap A V) (roots : LiveSet A) : Prop where
  rooted : ∀ a ∈ roots, h.contains a = true
  stored : ∀ a b, h.Leads a b → h.contains b = true

theorem encloses_empty : ({} : Heap A V).Encloses ∅ where
  rooted a root := absurd root (AscSet.not_mem_empty a)
  stored _ _ next := absurd next (not_leads_of_lookup_eq_none rfl)

namespace Encloses

theorem of_roots (closed : h.Encloses roots) (within : ∀ a ∈ more, h.contains a = true) :
    h.Encloses more := ⟨within, closed.stored⟩

theorem reserve (closed : h.Encloses roots) (a : A) : (h.reserve a).Encloses roots where
  rooted b root := contains_reserve.2 (.inr (closed.rooted b root))
  stored b c next := contains_reserve.2 (.inr (closed.stored b c (leads_reserve.1 next)))

theorem assign (closed : h.Encloses roots) (held : ∀ b ∈ Value.roots v, h.contains b = true) :
    (h.assign a v mode).Encloses roots where
  rooted b root := contains_assign.2 (.inr (closed.rooted b root))
  stored b c next := by
    rcases leads_assign next with ⟨-, embedded⟩ | old
    · exact contains_assign.2 (.inr (held c embedded))
    · exact contains_assign.2 (.inr (closed.stored b c old))

/-- A kept cell is reached, and so is all that its values embed: a collection opens nothing. -/
theorem collect (closed : h.Encloses roots) (within : ∀ a ∈ roots, a ∈ more) :
    (h.collect more).Encloses roots where
  rooted a root :=
    contains_collect.2 ⟨mem_reachable_of_mem_roots (within a root), closed.rooted a root⟩
  stored a b next := by
    have old := leads_of_leads_collect next
    obtain ⟨cell, found, -⟩ := next
    have kept : a ∈ h.reachable more := (contains_collect.1 (contains_iff.2 ⟨cell, found⟩)).1
    exact contains_collect.2 ⟨mem_reachable_of_leads kept old, closed.stored a b old⟩

theorem join (closed : h.Encloses roots) (other : k.Encloses more) :
    (h.join k).Encloses (roots ∪ more) where
  rooted a root := contains_join.2
    ((AscSet.mem_union.1 root).imp (closed.rooted a) (other.rooted a))
  stored a b next := contains_join.2
    ((leads_join.1 next).imp (closed.stored a b) (other.stored a b))

end Encloses

end Heap

end Memory

section Steps

variable {P A V : Type} [Address A] [Value V A]

/-- Every live root and every address in a stored value has a cell. -/
def Machine.Closed (m : Machine P A V) : Prop := m.heap.Encloses m.liveRoots

/-- What a client that keeps a machine closed sees to before a step. -/
def Step.Careful (m : Machine P A V) : Step A V → Prop
  | .assign _ v => ∀ b ∈ Value.roots v, m.heap.contains b = true
  | .bind _ a | .addRoot a => m.heap.contains a = true
  | .gc roots => ∀ a ∈ m.liveRoots, a ∈ roots
  | _ => True

def Source.Careful (m : Machine P A V) (source : Source V) : Prop :=
  ∀ a ∈ source.operands, m.heap.contains a = true

theorem Machine.closed_fresh (policy : P) (options : Options) :
    (fresh policy options : Machine P A V).Closed := Heap.encloses_empty

theorem Source.encloses_fill {h : Heap A V} {roots : LiveSet A} {a : A} {mode : StoreMode}
    (source : Source V) (closed : h.Encloses roots)
    (held : ∀ b ∈ source.operands, h.contains b = true) :
    (source.fill mode h a).Encloses roots := by
  induction source with
  | alloc name => exact closed
  | box v => exact closed.assign fun b embedded => held b (AscSet.mem_ofList.1 embedded)
  | inModule module source ih => exact ih held

variable [AllocationPolicy P A] {m other : Machine P A V}

theorem Step.closed_perform {step : Step A V} (closed : m.Closed) (careful : step.Careful m) :
    (step.perform m).2.Closed := by
  have rooted (b : A) (live : b ∈ (step.perform m).2.liveRoots) : m.heap.contains b = true := by
    rcases mem_liveRoots live with new | old
    · cases step with
      | bind | addRoot => exact List.mem_singleton.1 new ▸ careful
      | assign | deref | lookup | remove | overwrite | pushScope | popScope | removeRoot | gc
      | collect => exact absurd new List.not_mem_nil
    · exact closed.rooted b old
  have heap_after : (step.perform m).2.heap = step.heap m := by
    obtain ⟨trace, journal, same⟩ := step.perform_eq m
    rw [same]
  unfold Closed
  rw [heap_after]
  cases step with
  | assign a v => exact (closed.of_roots rooted).assign careful
  | gc roots => exact closed.collect careful
  | collect => exact closed.collect fun a live => live
  | deref | lookup | bind | remove | overwrite | pushScope | popScope | addRoot | removeRoot =>
    exact closed.of_roots rooted

theorem Source.closed_perform {source : Source V} (closed : m.Closed)
    (careful : source.Careful m) : (source.perform m).2.Closed := by
  obtain ⟨trace, journal, same⟩ := source.perform_eq m
  rw [same]
  exact source.encloses_fill (closed.reserve _)
    fun b operand => Heap.contains_reserve.2 (.inr (careful b operand))

theorem Machine.closed_join (closed : m.Closed) (otherClosed : other.Closed) :
    (m.join other).Closed := by
  refine (Heap.Encloses.join closed otherClosed).of_roots fun a live => ?_
  apply (Heap.Encloses.join closed otherClosed).rooted
  rcases mem_liveRoots.1 live with bound | held
  · exact AscSet.mem_union.2 (.inl (mem_liveRoots.2 (.inl bound)))
  · rcases AscSet.mem_union.1 held with own | joined
    · exact AscSet.mem_union.2 (.inl (mem_liveRoots.2 (.inr own)))
    · exact AscSet.mem_union.2 (.inr (mem_liveRoots.2 (.inr joined)))

end Steps

section Branches

variable {P A V : Type} [Address A] [AllocationPolicy P A] [Value V A]

def Move.Careful (pool : Pool P A V) : Move P A V → Prop
  | .enter m => m.Closed
  | .act i step => ∀ m ∈ pool[i]?, step.Careful m
  | .obtain i source => ∀ m ∈ pool[i]?, source.Careful m
  | .fork _ | .join _ _ => True

namespace Pool

/-- Each move of a run is careful when it is made. -/
def Careful : Pool P A V → List (Move P A V) → Prop
  | _, [] => True
  | pool, move :: later => move.Careful pool ∧ Careful (move.perform pool) later

theorem closed_perform {pool : Pool P A V} {move : Move P A V} (closed : ∀ m ∈ pool, m.Closed)
    (careful : move.Careful pool) : ∀ m ∈ move.perform pool, m.Closed := by
  cases move with
  | enter new => exact List.forall_mem_append.2 ⟨closed, List.forall_mem_singleton.2 careful⟩
  | act i step =>
    exact forall_modify closed fun m there closed => Step.closed_perform closed (careful m there)
  | obtain i source =>
    exact forall_modify closed fun m there closed => Source.closed_perform closed (careful m there)
  | fork i => exact forall_fork closed i
  | join i j =>
    simp only [Move.perform]
    cases found : pool[j]? with
    | none => exact closed
    | some other =>
      exact forall_modify closed fun m _ own =>
        closed_join own (closed other (List.mem_of_getElem? found))

theorem closed_run {pool : Pool P A V} {moves : List (Move P A V)} (closed : ∀ m ∈ pool, m.Closed)
    (careful : pool.Careful moves) : ∀ m ∈ pool.run moves, m.Closed := by
  induction moves generalizing pool with
  | nil => exact closed
  | cons move later ih => exact ih (closed_perform closed careful.1) careful.2

end Pool

/-- A client comes by an address through a name, among those that it holds, or in a stored value. -/
def Machine.Offers {P A V : Type} [Address A] [Value V A] (m : Machine P A V) (a : A) : Prop :=
  (∃ name, m.lookup name = some a) ∨ a ∈ m.stackRoots ∨ ∃ b, m.heap.Leads b a

theorem Machine.contains_of_offers {P A V : Type} [Address A] [Value V A] {m : Machine P A V}
    {a : A} (closed : m.Closed) (offered : m.Offers a) : m.heap.contains a = true := by
  rcases offered with ⟨name, found⟩ | held | ⟨b, next⟩
  · exact closed.rooted a (mem_liveRoots_of_lookup found)
  · exact closed.rooted a (mem_liveRoots.2 (.inr held))
  · exact closed.stored b a next

/-- New machines are closed, careful runs of a pool of branches keep machines closed, and a closed
machine has a cell at each address that a client comes by: reading it never reports that there is
none, to the client or to a handler. -/
theorem no_use_after_collection :
    (∀ (policy : P) (options : Options), (fresh policy options : Machine P A V).Closed) ∧
    ∀ (pool : Pool P A V) (moves : List (Move P A V)), (∀ m ∈ pool, m.Closed) →
      pool.Careful moves → ∀ m ∈ pool.run moves, m.Closed ∧ ∀ a, m.Offers a →
        (∃ c, m.heap.lookup a = some c ∧ (Id.run (deref a m)).1 =
          if c.isEmpty then m.onFault (.uninitialized a) else .ok c) ∧
        ∀ b, (Id.run (deref a m)).1 ≠ .error (.address (.unallocated b)) := by
  refine ⟨closed_fresh, fun pool moves closed careful m inPool => ?_⟩
  have closedAfter := Pool.closed_run closed careful m inPool
  refine ⟨closedAfter, fun a offered => ?_⟩
  obtain ⟨c, found⟩ := Heap.contains_iff.1 (contains_of_offers closedAfter offered)
  obtain ⟨trace, journal, same⟩ := deref_eq a m
  have read : (Id.run (deref a m)).1 =
      if c.isEmpty then m.onFault (.uninitialized a) else .ok c := by
    calc (Id.run (deref a m)).1 = m.reading a := congrArg Prod.fst same
      _ = _ := by simp only [reading, found]
  refine ⟨⟨c, found, read⟩, fun b => ?_⟩
  rw [read]
  split
  · unfold onFault
    split <;> simp
  · simp

/-- A box with a reference to a bound address is forked away, let go of and merged back. -/
def boxedReference : List (Move FreshPolicy Precise (Object Precise)) :=
  [.obtain 0 (.alloc (.user "x")), .act 0 (.bind (.user "x") ⟨0⟩),
    .obtain 0 (.inModule ⟨"m"⟩ (.box (.reference ⟨0⟩))), .act 0 (.addRoot ⟨1⟩), .fork 0,
    .act 0 .collect, .act 1 (.removeRoot ⟨1⟩), .act 1 .popScope, .join 1 0, .act 1 .collect]

theorem careful_boxedReference : Pool.Careful [fresh {} {}] boxedReference :=
  ⟨fun _ _ _ operand => absurd operand List.not_mem_nil,
    fun m there => by cases there; rfl,
    fun m there => by
      cases there
      intro a operand
      cases List.mem_singleton.1 operand
      rfl,
    fun m there => by cases there; rfl,
    trivial, fun _ _ => trivial, fun _ _ => trivial, fun _ _ => trivial, trivial,
    fun _ _ => trivial, trivial⟩

/-- Both branches, the one that let go of the box and the one that kept it, read without fail. -/
theorem no_use_after_collection_boxedReference :
    (∀ m ∈ ([fresh {} {}] : Pool FreshPolicy Precise (Object Precise)), m.Closed) ∧
    Pool.Careful [fresh {} {}] boxedReference ∧
    ∀ m ∈ Pool.run [fresh {} {}] boxedReference, m.Closed ∧ ∀ a, m.Offers a →
      ∀ b, (Id.run (deref a m)).1 ≠ .error (.address (.unallocated b)) := by
  have closed : ∀ m ∈ ([fresh {} {}] : Pool FreshPolicy Precise (Object Precise)), m.Closed := by
    intro m entered
    cases List.mem_singleton.1 entered
    exact closed_fresh _ _
  refine ⟨closed, careful_boxedReference, fun m inPool => ?_⟩
  have safe := no_use_after_collection.2 _ _ closed careful_boxedReference m inPool
  exact ⟨safe.1, fun a offered => (safe.2 a offered).2⟩

end Branches

end AbstractStore
