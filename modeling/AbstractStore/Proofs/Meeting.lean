import AbstractStore.Proofs.Monotonicity
import Mathlib.Order.Bounds.Lattice

/-! What is left of branches that meet.
The heap of two branches that meet is the least one above both (`Heap.join_le_iff`), so heaps are a
semilattice and it does not matter which branch is merged into which. The same holds of all that is
merged with them (`Stock`), as long as it holds of the policy. So what any number of branches leave
together is the least that is above what each has, in whatever order and grouping they meet
(`Meeting.stock_le_iff`). -/

namespace AbstractStore

open Machine

namespace Heap

variable {A V : Type} [Address A] [Value V A] {h k l : Heap A V} {a : A}

/-- A cell that one of the heaps lacks is the other's, and a cell that both have is the union. -/
theorem lookup_join_eq_merge (h k : Heap A V) (a : A) :
    (h.join k).lookup a = (h.lookup a).merge (· ∪ ·) (k.lookup a) := by
  rw [lookup_join, valuesAt]
  cases h.lookup a <;> cases k.lookup a <;> simp

instance : PartialOrder (Heap A V) where
  le_refl h := fun a c found => ⟨c, found, fun _ inCell => inCell⟩
  le_trans h k l below above := fun a c found => by
    obtain ⟨d, there, inside⟩ := below a c found
    obtain ⟨e, beyond, within⟩ := above a d there
    exact ⟨e, beyond, fun v inCell => within v (inside v inCell)⟩
  le_antisymm _ _ := le_antisymm

theorem join_le_iff : h.join k ≤ l ↔ h ≤ l ∧ k ≤ l := by
  constructor
  · intro above
    exact ⟨(le_join_left h k).trans above, (le_join_right h k).trans above⟩
  · rintro ⟨left, right⟩
    have ⟨cells, values⟩ := le_iff.1 left
    have ⟨cellsRight, valuesRight⟩ := le_iff.1 right
    refine le_iff.2 ⟨fun a there => ?_, fun a v stored => ?_⟩
    · exact (contains_join.1 there).elim (cells a) (cellsRight a)
    · exact (mem_valuesAt_join.1 stored).elim (values a v) (valuesRight a v)

instance : SemilatticeSup (Heap A V) where
  sup := join
  le_sup_left := le_join_left
  le_sup_right := le_join_right
  sup_le _ _ _ left right := join_le_iff.2 ⟨left, right⟩

theorem join_self (h : Heap A V) : h.join h = h := sup_idem h

theorem join_comm (h k : Heap A V) : h.join k = k.join h := sup_comm h k

theorem join_assoc (h k l : Heap A V) : (h.join k).join l = h.join (k.join l) := sup_assoc h k l

/-! ### Cells that need not be touched -/

/-- Which cells two heaps have in common as one piece of memory. Such cells are equal, but not all
equal cells are one. -/
structure Sharing (h k : Heap A V) where
  shared : A → Bool
  agree : ∀ a, shared a = true → h.lookup a = k.lookup a

/-- Merge a cell into a heap in place. A cell that is the same already is not touched. -/
def mergeCell (shared : A → Bool) (h : Heap A V) (e : A × Cell V) : Heap A V :=
  match h.lookup e.1 with
  | none => h.put e.1 e.2
  | some d => if shared e.1 || d = e.2 then h else h.put e.1 (d ∪ e.2)

/-- Join cell by cell, without touching the cells that are shared or equal. -/
def joinInPlace (h k : Heap A V) (sharing : Sharing h k) : Heap A V :=
  k.cells.toList.foldl (mergeCell sharing.shared) h

theorem put_of_lookup {c : Cell V} (found : h.lookup a = some c) : h.put a c = h := by
  refine ext fun b => ?_
  rw [lookup_put]
  split
  next same => rw [← same, found]
  next => rfl

theorem mergeCell_eq {shared : A → Bool} {e : A × Cell V}
    (agree : shared e.1 = true → h.lookup e.1 = some e.2) :
    h.mergeCell shared e = h.put e.1 (h.valuesAt e.1 ∪ e.2) := by
  unfold mergeCell valuesAt
  cases found : h.lookup e.1 with
  | none => simp
  | some d =>
    by_cases same : d = e.2
    · subst same
      simp [put_of_lookup found]
    · have apart : shared e.1 = false := Bool.eq_false_iff.2 fun one => by
        cases found.symm.trans (agree one)
        exact same rfl
      simp [same, apart]

/-- Where a heap is merged in the order of its addresses, a cell is still as it was at first when
its turn comes, so one that is shared is equal. -/
theorem foldl_mergeCell {shared : A → Bool} {cells : List (A × Cell V)} {h : Heap A V}
    (ascending : cells.Pairwise fun d e => compare d.1 e.1 = .lt)
    (agree : ∀ e ∈ cells, shared e.1 = true → h.lookup e.1 = some e.2) :
    cells.foldl (mergeCell shared) h =
      cells.foldl (fun h (a, c) => h.put a (h.valuesAt a ∪ c)) h := by
  induction cells generalizing h with
  | nil => rfl
  | cons e later ih =>
    obtain ⟨below, rest⟩ := List.pairwise_cons.1 ascending
    obtain ⟨here, there⟩ := List.forall_mem_cons.1 agree
    rw [List.foldl_cons, List.foldl_cons, mergeCell_eq here]
    refine ih rest fun d inLater one => ?_
    have differ : e.1 ≠ d.1 := fun same => by
      simpa [same, Std.ReflCmp.compare_self] using below d inLater
    rw [lookup_put, if_neg differ]
    exact there d inLater one

theorem joinInPlace_eq (h k : Heap A V) (sharing : Sharing h k) :
    h.joinInPlace k sharing = h.join k :=
  foldl_mergeCell k.cells.ascending fun e among one =>
    (sharing.agree e.1 one).trans (AscMap.get?_eq_some_iff.2 among)

end Heap

section Counters

theorem toNat_max (counter other : UInt64) :
    (max counter other).toNat = max counter.toNat other.toNat := by
  change (if counter ≤ other then other else counter).toNat = _
  split
  next below => exact (Nat.max_eq_right below).symm
  next above => exact (Nat.max_eq_left (Nat.le_of_not_le above)).symm

theorem max_counter_self (counter : UInt64) : max counter counter = counter :=
  UInt64.toNat_inj.1 ((toNat_max counter counter).trans (Nat.max_self _))

theorem max_counter_comm (counter other : UInt64) : max counter other = max other counter :=
  UInt64.toNat_inj.1 (by rw [toNat_max, toNat_max, Nat.max_comm])

theorem max_counter_assoc (counter other third : UInt64) :
    max (max counter other) third = max counter (max other third) :=
  UInt64.toNat_inj.1 (by simp only [toNat_max, Nat.max_assoc])

end Counters

namespace NameSupply

theorem join_self (s : NameSupply) : s.join s = s := congrArg mk (max_counter_self s.next)

theorem join_comm (s t : NameSupply) : s.join t = t.join s :=
  congrArg mk (max_counter_comm s.next t.next)

theorem join_assoc (s t u : NameSupply) : (s.join t).join u = s.join (t.join u) :=
  congrArg mk (max_counter_assoc s.next t.next u.next)

end NameSupply

/-- To a policy it is the same in which order and grouping branches meet, and how often. -/
class MergesFreely (P : Type) {A : outParam Type} [AllocationPolicy P A] : Prop where
  join_self : ∀ p : P, AllocationPolicy.join p p = p
  join_comm : ∀ p q : P, AllocationPolicy.join p q = AllocationPolicy.join q p
  join_assoc : ∀ p q r : P, AllocationPolicy.join (AllocationPolicy.join p q) r =
    AllocationPolicy.join p (AllocationPolicy.join q r)

instance : MergesFreely FreshPolicy where
  join_self p := congrArg FreshPolicy.mk (max_counter_self p.next)
  join_comm p q := congrArg FreshPolicy.mk (max_counter_comm p.next q.next)
  join_assoc p q r := congrArg FreshPolicy.mk (max_counter_assoc p.next q.next r.next)

instance : MergesFreely PerNamePolicy := ⟨fun _ => rfl, fun _ _ => rfl, fun _ _ _ => rfl⟩

instance : MergesFreely PerModulePolicy := ⟨fun _ => rfl, fun _ _ => rfl, fun _ _ _ => rfl⟩

/-- What is merged of a machine. -/
@[ext] structure Stock (P A V : Type) [Ord A] [Ord V] where
  policy : P
  names : NameSupply
  heap : Heap A V
  stackRoots : LiveSet A

section Stocks

variable {P A V : Type} [Address A] [Value V A]

def Machine.stock (m : Machine P A V) : Stock P A V := ⟨m.policy, m.names, m.heap, m.stackRoots⟩

variable [AllocationPolicy P A]

instance : Max (Stock P A V) where
  max s t := ⟨AllocationPolicy.join s.policy t.policy, s.names.join t.names, s.heap.join t.heap,
    s.stackRoots ∪ t.stackRoots⟩

theorem Machine.stock_join (m k : Machine P A V) : (m.join k).stock = m.stock ⊔ k.stock := rfl

instance [MergesFreely P] : SemilatticeSup (Stock P A V) :=
  .mk'
    (fun _ _ => Stock.ext (MergesFreely.join_comm _ _) (NameSupply.join_comm _ _)
      (Heap.join_comm _ _) (AscSet.union_comm _ _))
    (fun _ _ _ => Stock.ext (MergesFreely.join_assoc _ _ _) (NameSupply.join_assoc _ _ _)
      (Heap.join_assoc _ _ _) (AscSet.union_assoc _ _ _))
    (fun _ => Stock.ext (MergesFreely.join_self _) (NameSupply.join_self _)
      (Heap.join_self _) (AscSet.union_self _))

/-- How branches meet: one after the other, or in groups that meet in their turn. -/
inductive Meeting (P A V : Type) [Ord A] [Ord V] where
  | branch (m : Machine P A V)
  /-- The second one is merged into the first. -/
  | join (first second : Meeting P A V)

namespace Meeting

def branches : Meeting P A V → List (Machine P A V)
  | .branch m => [m]
  | .join first second => first.branches ++ second.branches

/-- The branch that the others are merged into. -/
def receiver : Meeting P A V → Machine P A V
  | .branch m => m
  | .join first _ => first.receiver

/-- The machine that is left. -/
def result : Meeting P A V → Machine P A V
  | .branch m => m
  | .join first second => first.result.join second.result

/-- All that is not merged is the receiver's. -/
theorem result_eq (meeting : Meeting P A V) : meeting.result = { meeting.receiver with
    policy := meeting.result.policy
    names := meeting.result.names
    heap := meeting.result.heap
    stackRoots := meeting.result.stackRoots } := by
  induction meeting with
  | branch m => rfl
  | join first second ih _ =>
    rw [result, receiver, Machine.join, ih]

/-- What is left is below what is above all branches. -/
theorem stock_le_iff [MergesFreely P] (meeting : Meeting P A V) (bound : Stock P A V) :
    meeting.result.stock ≤ bound ↔ ∀ m ∈ meeting.branches, m.stock ≤ bound := by
  induction meeting with
  | branch m => simp [branches, result]
  | join first second ih_first ih_second =>
    rw [result, Machine.stock_join, sup_le_iff, ih_first, ih_second, branches,
      List.forall_mem_append]

/-- The same branches leave the same, however they meet. -/
theorem stock_congr [MergesFreely P] {meeting other : Meeting P A V}
    (same : ∀ m, m ∈ meeting.branches ↔ m ∈ other.branches) :
    meeting.result.stock = other.result.stock := by
  refine eq_of_forall_ge_iff fun bound => ?_
  simp only [stock_le_iff, same]

end Meeting

/-- What is merged of machines is told by which machines meet: not by which is merged into which,
nor by how they are grouped, nor by how often one is merged. All else is as the machine had it that
the others are merged into. -/
def MeetsFreely (P : Type) {A : Type} (V : Type) [Address A] [Value V A] [AllocationPolicy P A] :
    Prop :=
  (∀ m : Machine P A V, (m.join m).stock = m.stock) ∧
  (∀ m k : Machine P A V, (m.join k).stock = (k.join m).stock) ∧
  (∀ m k l : Machine P A V, ((m.join k).join l).stock = (m.join (k.join l)).stock) ∧
  (∀ meeting other : Meeting P A V, (∀ m, m ∈ meeting.branches ↔ m ∈ other.branches) →
    meeting.result.stock = other.result.stock) ∧
  ∀ meeting : Meeting P A V, meeting.result = { meeting.receiver with
    policy := meeting.result.policy
    names := meeting.result.names
    heap := meeting.result.heap
    stackRoots := meeting.result.stackRoots }

theorem meetsFreely [MergesFreely P] : MeetsFreely P V :=
  ⟨fun m => sup_idem m.stock, fun m k => sup_comm m.stock k.stock,
    fun m k l => sup_assoc m.stock k.stock l.stock, fun _ _ => Meeting.stock_congr,
    Meeting.result_eq⟩

end Stocks

/-- Two heaps that meet leave the least heap above both. At an address where one of them has no cell
it is that of the other, an empty one too, and else the union of both; where the cells are shared or
equal they need not be touched for that. So the order and the grouping of meetings do not matter to
the heap, nor to the policy, the supply of names and the explicit roots, for each of the policies. -/
theorem join_least_above :
    (∀ (A V : Type) [Address A] [Value V A],
      (∀ (h k : Heap A V) (a : A),
        (h.join k).lookup a = (h.lookup a).merge (· ∪ ·) (k.lookup a)) ∧
      (∀ h k : Heap A V, IsLUB {h, k} (h.join k)) ∧
      (∀ h : Heap A V, h.join h = h) ∧
      (∀ h k : Heap A V, h.join k = k.join h) ∧
      (∀ h k l : Heap A V, (h.join k).join l = h.join (k.join l)) ∧
      ∀ (h k : Heap A V) (sharing : Heap.Sharing h k), h.joinInPlace k sharing = h.join k) ∧
    (∀ (V : Type) [Value V Precise], MeetsFreely FreshPolicy V) ∧
    (∀ (V : Type) [Value V Monovariant], MeetsFreely PerNamePolicy V) ∧
    ∀ (V : Type) [Value V Located], MeetsFreely PerModulePolicy V := by
  refine ⟨fun A V _ _ => ?_, fun _ _ => meetsFreely, fun _ _ => meetsFreely,
    fun _ _ => meetsFreely⟩
  exact ⟨Heap.lookup_join_eq_merge, fun _ _ => isLUB_pair, Heap.join_self, Heap.join_comm,
    Heap.join_assoc, Heap.joinInPlace_eq⟩

/-- A branch that has an empty cell, one that has filled it, and one that has come further. -/
def reserved : Machine FreshPolicy Precise (Object Precise) := (alloc (.user "x") (fresh {} {})).2

def filled : Machine FreshPolicy Precise (Object Precise) := (assign ⟨0⟩ (.integer 1) reserved).2

def boxed : Machine FreshPolicy Precise (Object Precise) := (box (.reference ⟨0⟩) reserved).2

theorem join_least_above_threeBranches :
    let meeting : Meeting FreshPolicy Precise (Object Precise) :=
      .join (.join (.branch reserved) (.branch filled)) (.branch boxed)
    let other : Meeting FreshPolicy Precise (Object Precise) :=
      .join (.branch boxed) (.join (.join (.branch filled) (.branch boxed)) (.branch reserved))
    (∀ m, m ∈ meeting.branches ↔ m ∈ other.branches) ∧
    other.result.stock = meeting.result.stock ∧
    meeting.result.policy = ⟨2⟩ ∧ meeting.result.names = ⟨1⟩ ∧
    meeting.result.heap.lookup ⟨0⟩ = some (.singleton (.integer 1)) ∧
    meeting.result.heap.lookup ⟨1⟩ = some (.singleton (.reference ⟨0⟩)) := by
  intro meeting other
  have same (m : Machine FreshPolicy Precise (Object Precise)) :
      m ∈ meeting.branches ↔ m ∈ other.branches := by
    simp only [meeting, other, Meeting.branches, List.mem_append, List.mem_singleton]
    tauto
  obtain ⟨-, -, -, alike, -⟩ := join_least_above.2.1 (Object Precise)
  exact ⟨same, (alike meeting other same).symm, rfl, rfl, by decide, by decide⟩

end AbstractStore
