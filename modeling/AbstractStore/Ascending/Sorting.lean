/-! Sorting.
A list that is sorted has equal elements side by side, so where each is dropped that equals the one
before it, what is left ascends strictly (`eraseReps_ascending`). -/

namespace AbstractStore

open Std

variable {α : Type}

theorem mergeSort_sorted [Ord α] [TransOrd α] (l : List α) :
    (l.mergeSort fun x y => (compare x y).isLE).Pairwise fun x y => (compare x y).isLE := by
  refine List.pairwise_mergeSort (fun _ _ _ => TransCmp.isLE_trans) (fun x y => ?_) l
  have turned : compare y x = (compare x y).swap := OrientedCmp.eq_swap
  rw [turned]
  cases compare x y <;> rfl

variable [DecidableEq α]

theorem eraseReps_loop (x : α) (l before : List α) :
    List.eraseRepsBy.loop (· == ·) x l before = before.reverse ++ (x :: l).eraseReps := by
  induction l generalizing x before with
  | nil => simp [List.eraseReps, List.eraseRepsBy, List.eraseRepsBy.loop]
  | cons y l ih =>
    simp only [List.eraseReps, List.eraseRepsBy, List.eraseRepsBy.loop]
    cases x == y with
    | true => exact ih x before
    | false => simp [ih y]

/-- Of two neighbours that are equal the first one stays. -/
theorem eraseReps_cons_cons (x y : α) (l : List α) : (x :: y :: l).eraseReps =
    if x = y then (x :: l).eraseReps else x :: (y :: l).eraseReps := by
  have round : (x :: y :: l).eraseReps = match x == y with
      | true => List.eraseRepsBy.loop (· == ·) x l []
      | false => List.eraseRepsBy.loop (· == ·) y l [x] := rfl
  rw [round, eraseReps_loop, eraseReps_loop]
  by_cases same : x = y
  · simp [same]
  · simp [same, beq_false_of_ne same]

theorem mem_eraseReps {l : List α} {x : α} : x ∈ l.eraseReps ↔ x ∈ l := by
  cases l with
  | nil => rfl
  | cons y l =>
    induction l generalizing y with
    | nil => rfl
    | cons z l ih =>
      rw [eraseReps_cons_cons]
      split
      next same => simp [ih, same]
      next => simp [ih]

variable [Ord α] [TransOrd α] [LawfulEqOrd α]

theorem eraseReps_ascending {l : List α} (sorted : l.Pairwise fun x y => (compare x y).isLE) :
    l.eraseReps.Pairwise (compare · · = .lt) := by
  cases l with
  | nil => exact .nil
  | cons x l =>
    induction l generalizing x with
    | nil => exact List.pairwise_singleton ..
    | cons y l ih =>
      obtain ⟨first, sortedTail⟩ := List.pairwise_cons.1 sorted
      rw [eraseReps_cons_cons]
      split
      next same =>
        subst same
        exact ih x sortedTail
      next differ =>
        have next : compare x y = .lt := by
          have least := first y (List.mem_cons_self ..)
          cases order : compare x y with
          | lt => rfl
          | eq => exact absurd (LawfulEqOrd.eq_of_compare order) differ
          | gt => simp [order] at least
        refine List.pairwise_cons.2 ⟨fun z left => ?_, ih y sortedTail⟩
        rcases List.mem_cons.1 (mem_eraseReps.1 left) with rfl | later
        · exact next
        · exact TransCmp.lt_of_lt_of_isLE next ((List.pairwise_cons.1 sortedTail).1 z later)

end AbstractStore
