import AbstractStore.Ascending.Map

/-! Lists of entries as maps.
The entries of a list are put into a map one after the other, so of several for one key the last one
counts (`AscMap.get?_ofList_eq_some_iff`). Where no two are for one key, their order is of no
account (`AscMap.ofList_perm`). -/

namespace AbstractStore

open Std

/-- The entry stands in the list, and none for its key stands behind it. -/
def LastEntry {κ β : Type} (l : List (κ × β)) (k : κ) (b : β) : Prop :=
  ∃ before after, l = before ++ (k, b) :: after ∧ ∀ e ∈ after, e.1 ≠ k

section LastEntry

variable {κ β : Type} {l : List (κ × β)} {k : κ} {b : β} {e : κ × β}

theorem LastEntry.mem (last : LastEntry l k b) : (k, b) ∈ l := by
  obtain ⟨before, after, rfl, -⟩ := last
  simp

/-- The last entry of a longer list is the last one of the rest, or the new one if the rest has
none for its key. -/
theorem lastEntry_cons : LastEntry (e :: l) k b ↔
    LastEntry l k b ∨ e = (k, b) ∧ ∀ d ∈ l, d.1 ≠ k := by
  constructor
  · rintro ⟨before, after, split, others⟩
    cases before with
    | nil =>
      obtain ⟨rfl, rfl⟩ := List.cons.inj split
      exact .inr ⟨rfl, others⟩
    | cons d before =>
      obtain ⟨rfl, rfl⟩ := List.cons.inj split
      exact .inl ⟨before, after, rfl, others⟩
  · rintro (⟨before, after, rfl, others⟩ | ⟨rfl, others⟩)
    · exact ⟨e :: before, after, rfl, others⟩
    · exact ⟨[], l, rfl, others⟩

theorem lastEntry_of_nodup (distinct : (l.map Prod.fst).Nodup) (inside : (k, b) ∈ l) :
    LastEntry l k b := by
  obtain ⟨before, after, rfl⟩ := List.append_of_mem inside
  refine ⟨before, after, rfl, fun e later same => ?_⟩
  rw [List.map_append, List.map_cons] at distinct
  have once := (List.nodup_cons.1 (List.nodup_append.1 distinct).2.1).1
  exact once (List.mem_map.2 ⟨e, later, same⟩)

/-- Which entry is the last one for a key depends on the entries for that key alone. -/
theorem lastEntry_filter_iff [DecidableEq κ] :
    LastEntry (l.filter (·.1 = k)) k b ↔ LastEntry l k b := by
  induction l with
  | nil => rfl
  | cons e l ih =>
    rw [lastEntry_cons]
    by_cases here : e.1 = k
    · have others : (∀ d ∈ l.filter (·.1 = k), d.1 ≠ k) ↔ ∀ d ∈ l, d.1 ≠ k := by simp
      rw [List.filter_cons_of_pos (by simpa using here), lastEntry_cons, ih, others]
    · have differ : ¬ (e = (k, b) ∧ ∀ d ∈ l, d.1 ≠ k) := fun last =>
        here (congrArg Prod.fst last.1)
      rw [List.filter_cons_of_neg (by simpa using here), ih, or_iff_left differ]

/-- Entries are put into a state one after the other, and each changes what the state tells of its
own key alone. -/
theorem foldl_put_eq_some_iff {σ : Type} [DecidableEq κ] {tell : σ → κ → Option β}
    {put : σ → κ × β → σ}
    (told : ∀ s e j, tell (put s e) j = if e.1 = j then some e.2 else tell s j) {s : σ} :
    tell (l.foldl put s) k = some b ↔
      LastEntry l k b ∨ (∀ e ∈ l, e.1 ≠ k) ∧ tell s k = some b := by
  induction l generalizing s with
  | nil =>
    refine ⟨fun found => .inr ⟨nofun, found⟩, fun either => ?_⟩
    exact either.elim (fun last => absurd last.mem List.not_mem_nil) (·.2)
  | cons e l ih =>
    rw [List.foldl_cons, ih, told, lastEntry_cons, List.forall_mem_cons]
    by_cases here : e.1 = k
    · have found : (if e.1 = k then some e.2 else tell s k) = some b ↔ e = (k, b) := by
        rw [if_pos here, Option.some_inj, Prod.ext_iff]
        exact (and_iff_right here).symm
      rw [found]
      constructor
      · rintro (last | ⟨others, same⟩)
        · exact .inl (.inl last)
        · exact .inl (.inr ⟨same, others⟩)
      · rintro ((last | ⟨same, others⟩) | ⟨⟨elsewhere, -⟩, -⟩)
        · exact .inl last
        · exact .inr ⟨others, same⟩
        · exact absurd here elsewhere
    · have differ : e ≠ (k, b) := fun same => here (congrArg Prod.fst same)
      rw [if_neg here]
      simp only [differ, here, ne_eq, not_false_eq_true, false_and, or_false, true_and]

end LastEntry

namespace AscMap

variable {κ β : Type} [Ord κ] [TransOrd κ] [LawfulEqOrd κ] {l l' : List (κ × β)} {k : κ} {b : β}

theorem get?_ofList_eq_some_iff : (ofList l).get? k = some b ↔ LastEntry l k b := by
  classical
  have told (m : AscMap κ β) (e : κ × β) (j : κ) :
      (m.insert e.1 e.2).get? j = if e.1 = j then some e.2 else m.get? j := by
    simp only [get?_insert, LawfulEqCmp.compare_eq_iff_eq]
  exact (foldl_put_eq_some_iff told).trans (or_iff_left fun none =>
    Option.some_ne_none b none.2.symm)

/-- A map read off a list is the one with the last entries of the list. -/
theorem eq_ofList_iff {m : AscMap κ β} :
    m = ofList l ↔ ∀ k b, m.get? k = some b ↔ LastEntry l k b := by
  constructor
  · rintro rfl k b
    exact get?_ofList_eq_some_iff
  · intro lookups
    exact ext fun k => Option.ext fun b => (lookups k b).trans get?_ofList_eq_some_iff.symm

/-- Only the order among the entries for one key counts. -/
theorem ofList_congr [DecidableEq κ]
    (sameOrder : ∀ k, l.filter (·.1 = k) = l'.filter (·.1 = k)) : ofList l = ofList l' := by
  refine eq_ofList_iff.2 fun k b => ?_
  rw [get?_ofList_eq_some_iff, ← lastEntry_filter_iff, sameOrder, lastEntry_filter_iff]

theorem ofList_perm (distinct : (l.map Prod.fst).Nodup) (reordered : l.Perm l') :
    ofList l = ofList l' := by
  have distinct' : (l'.map Prod.fst).Nodup := (reordered.map Prod.fst).nodup_iff.1 distinct
  refine eq_ofList_iff.2 fun k b => get?_ofList_eq_some_iff.trans ?_
  constructor
  · intro last
    exact lastEntry_of_nodup distinct' (reordered.mem_iff.1 last.mem)
  · intro last
    exact lastEntry_of_nodup distinct (reordered.mem_iff.2 last.mem)

end AscMap

end AbstractStore
