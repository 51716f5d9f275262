import AbstractStore.Object
import AbstractStore.Proofs.Reachability
import Mathlib.Data.List.Nodup

/-! The sweep, one insertion at a time.
A visit takes the least address off the frontier and marks it, and then the addresses that its cell
embeds are offered to the frontier one after the other. A tour is a sweep in the midst of that.
What is marked never gets back to the frontier, not even when a cell embeds its own address, and
nothing comes up but roots and embedded addresses. So a tour uses these up and ends, and on the way
it has visited each address that is reached once (`visits_each_once`). -/

namespace AbstractStore.Heap

open Relation

variable {A V : Type} [Address A] [Value V A]
variable {h : Heap A V} {roots : LiveSet A} {a b : A}

/-- The addresses that the cell at `a` embeds, in the order of its values, each as often as it is
met. -/
def offers (h : Heap A V) (a : A) : List A :=
  match h.lookup a with
  | none => []
  | some c => c.toList.flatMap fun v => (Value.roots v).toList

theorem mem_offers : b ∈ h.offers a ↔ h.Leads a b := by
  unfold offers Leads
  cases h.lookup a with
  | none => simp
  | some c => simp

theorem mem_embedded_of_leads (next : h.Leads a b) : b ∈ h.embedded :=
  mem_embedded_of_successors (mem_successors.2 next)

namespace Sweep

variable {s t : Sweep A} {bs : List A}

/-- Put an address on the frontier, unless it is marked. -/
def offer (s : Sweep A) (b : A) : Sweep A :=
  if b ∈ s.marked then s else { s with frontier := s.frontier.insert b }

@[simp] theorem marked_offer : (s.offer b).marked = s.marked := by
  unfold offer
  split <;> rfl

theorem mem_frontier_offer :
    a ∈ (s.offer b).frontier ↔ a ∈ s.frontier ∨ a = b ∧ a ∉ s.marked := by
  unfold offer
  split
  next marked => simp +contextual [marked]
  next unmarked =>
    rw [AscSet.mem_insert, or_comm]
    refine or_congr_right (iff_self_and.2 ?_)
    rintro rfl
    exact unmarked

theorem marked_foldl_offer : (bs.foldl offer s).marked = s.marked := by
  induction bs generalizing s with
  | nil => rfl
  | cons b bs ih => rw [List.foldl_cons, ih, marked_offer]

theorem mem_frontier_foldl_offer :
    a ∈ (bs.foldl offer s).frontier ↔ a ∈ s.frontier ∨ a ∈ bs ∧ a ∉ s.marked := by
  induction bs generalizing s with
  | nil => simp
  | cons b bs ih =>
    rw [List.foldl_cons, ih, mem_frontier_offer, marked_offer, List.mem_cons, or_and_right,
      or_assoc]

theorem eq_of_parts (marked : s.marked = t.marked) (frontier : s.frontier = t.frontier) :
    s = t := by
  cases s
  cases t
  cases marked
  cases frontier
  rfl

/-- One step of the sweep is a visit with all that is offered at it. -/
theorem step?_eq (h : Heap A V) (s : Sweep A) :
    s.step? h = s.frontier.popFirst?.map fun (a, rest) =>
      (h.offers a).foldl offer ⟨s.marked.insert a, rest⟩ := by
  unfold step?
  cases s.frontier.popFirst? with
  | none => rfl
  | some popped =>
    obtain ⟨a, rest⟩ := popped
    have visit : ⟨s.marked.insert a, rest ∪ (h.successors a \ s.marked.insert a)⟩ =
        (h.offers a).foldl offer ⟨s.marked.insert a, rest⟩ := by
      refine eq_of_parts ?_ (AscSet.ext fun b => ?_)
      · rw [marked_foldl_offer]
      · rw [AscSet.mem_union, AscSet.mem_diff, mem_successors, mem_frontier_foldl_offer, mem_offers]
    exact congrArg some visit

/-- A sweep from `roots` comes to this moment between two visits. -/
def Comes (h : Heap A V) (roots : LiveSet A) : Sweep A → Prop :=
  ReflTransGen (fun s t => s.step? h = some t) (start roots)

theorem finish_of_step? (stepped : s.step? h = some t) : s.finish h = t.finish h := by
  rw [finish]
  split
  next ended => cases ended.symm.trans stepped
  next u other => cases other.symm.trans stepped; rfl

theorem finish_of_ended (ended : s.step? h = none) : s.finish h = s.marked := by
  rw [finish]
  split
  next => rfl
  next t stepped => cases stepped.symm.trans ended

theorem Comes.finish_eq (comes : Comes h roots s) : s.finish h = h.reachable roots := by
  induction comes with
  | refl => rfl
  | tail _ stepped ih => exact (finish_of_step? stepped).symm.trans ih

end Sweep

/-- A sweep in the midst of a visit. -/
structure Tour (A : Type) [Ord A] where
  /-- The addresses visited so far, in the order of the visits. -/
  visited : List A
  sweep : Sweep A
  /-- What the cell visited last embeds and has not been looked at yet. -/
  offered : List A

namespace Tour

variable {s t u : Tour A}

def start (roots : LiveSet A) : Tour A := ⟨[], .start roots, []⟩

/-- Offer the next address, or go on to the next visit when none is left. -/
def next? (h : Heap A V) (t : Tour A) : Option (Tour A) :=
  match t.offered with
  | b :: later => some ⟨t.visited, t.sweep.offer b, later⟩
  | [] => match t.sweep.frontier.popFirst? with
    | none => none
    | some (a, rest) => some ⟨t.visited ++ [a], ⟨t.sweep.marked.insert a, rest⟩, h.offers a⟩

/-- A tour from `roots` comes to this moment. -/
def Comes (h : Heap A V) (roots : LiveSet A) : Tour A → Prop :=
  ReflTransGen (fun s t => s.next? h = some t) (start roots)

theorem cases_of_next? (stepped : t.next? h = some u) :
    (∃ b later, t.offered = b :: later ∧ u = ⟨t.visited, t.sweep.offer b, later⟩) ∨
      ∃ a rest, t.offered = [] ∧ t.sweep.frontier.popFirst? = some (a, rest) ∧
        u = ⟨t.visited ++ [a], ⟨t.sweep.marked.insert a, rest⟩, h.offers a⟩ := by
  unfold next? at stepped
  split at stepped
  next b later offered =>
    cases stepped
    exact .inl ⟨b, later, offered, rfl⟩
  next offered =>
    split at stepped
    next => cases stepped
    next a rest popped =>
      cases stepped
      exact .inr ⟨a, rest, offered, popped, rfl⟩

theorem next?_eq_none_iff : t.next? h = none ↔ t.offered = [] ∧ t.sweep.frontier = ∅ := by
  obtain ⟨visited, sweep, offered⟩ := t
  cases offered with
  | cons b later => simp [next?]
  | nil =>
    rw [← AscSet.popFirst?_eq_none_iff, next?]
    cases sweep.frontier.popFirst? <;> simp

/-! ### What holds throughout a tour -/

structure Orderly (t : Tour A) (h : Heap A V) (roots : LiveSet A) : Prop where
  apart : ∀ a ∈ t.sweep.marked, a ∉ t.sweep.frontier
  within : ∀ a, a ∈ t.sweep.marked ∨ a ∈ t.sweep.frontier ∨ a ∈ t.offered → a ∈ roots ∪ h.embedded
  once : t.visited.Nodup
  visited_iff : ∀ a, a ∈ t.visited ↔ a ∈ t.sweep.marked

theorem orderly_start : (start roots).Orderly h roots where
  apart a marked := absurd marked (AscSet.not_mem_empty a)
  within a up := by
    rcases up with marked | root | offered
    · exact absurd marked (AscSet.not_mem_empty a)
    · exact AscSet.mem_union.2 (.inl root)
    · exact absurd offered List.not_mem_nil
  once := .nil
  visited_iff a := iff_of_false List.not_mem_nil (AscSet.not_mem_empty a)

theorem Orderly.offer {visited later : List A} {sweep : Sweep A}
    (orderly : Orderly ⟨visited, sweep, b :: later⟩ h roots) :
    Orderly ⟨visited, sweep.offer b, later⟩ h roots where
  apart a marked up := by
    rw [Sweep.marked_offer] at marked
    rcases Sweep.mem_frontier_offer.1 up with before | ⟨-, unmarked⟩
    · exact orderly.apart a marked before
    · exact unmarked marked
  within a up := by
    refine orderly.within a ?_
    rw [Sweep.marked_offer, Sweep.mem_frontier_offer] at up
    rcases up with marked | (before | ⟨rfl, -⟩) | offered
    · exact .inl marked
    · exact .inr (.inl before)
    · exact .inr (.inr (List.mem_cons_self ..))
    · exact .inr (.inr (List.mem_cons_of_mem _ offered))
  once := orderly.once
  visited_iff a := by
    rw [Sweep.marked_offer]
    exact orderly.visited_iff a

theorem Orderly.visit {visited : List A} {sweep : Sweep A} {rest : LiveSet A}
    (orderly : Orderly ⟨visited, sweep, []⟩ h roots)
    (popped : sweep.frontier.popFirst? = some (a, rest)) :
    Orderly ⟨visited ++ [a], ⟨sweep.marked.insert a, rest⟩, h.offers a⟩ h roots := by
  obtain ⟨notAgain, frontier⟩ := AscSet.mem_of_popFirst? popped
  -- it was on the frontier, so it is visited for the first time
  have unmarked : a ∉ sweep.marked := fun marked =>
    orderly.apart a marked ((frontier a).2 (.inl rfl))
  constructor
  case apart =>
    intro b marked up
    rcases AscSet.mem_insert.1 marked with rfl | before
    · exact notAgain up
    · exact orderly.apart b before ((frontier b).2 (.inr up))
  case within =>
    intro b up
    rcases up with marked | up | offered
    · rcases AscSet.mem_insert.1 marked with rfl | before
      · exact orderly.within b (.inr (.inl ((frontier b).2 (.inl rfl))))
      · exact orderly.within b (.inl before)
    · exact orderly.within b (.inr (.inl ((frontier b).2 (.inr up))))
    · exact AscSet.mem_union.2 (.inr (mem_embedded_of_leads (mem_offers.1 offered)))
  case once =>
    have fresh : a ∉ visited := fun before => unmarked ((orderly.visited_iff a).1 before)
    rw [← List.concat_eq_append]
    exact List.Nodup.concat fresh orderly.once
  case visited_iff =>
    intro b
    rw [List.mem_append, List.mem_singleton, AscSet.mem_insert, orderly.visited_iff, or_comm]

theorem Orderly.next? (orderly : t.Orderly h roots) (stepped : t.next? h = some u) :
    u.Orderly h roots := by
  obtain ⟨visited, sweep, offered⟩ := t
  obtain ⟨b, later, rfl, rfl⟩ | ⟨a, rest, rfl, popped, rfl⟩ := cases_of_next? stepped
  · exact orderly.offer
  · exact orderly.visit popped

theorem Comes.orderly (comes : Comes h roots t) : t.Orderly h roots := by
  induction comes with
  | refl => exact orderly_start
  | tail _ stepped ih => exact ih.next? stepped

/-- As many visits as marked addresses, since each visit marks one more. -/
theorem Orderly.length_visited (orderly : t.Orderly h roots) :
    t.visited.length = t.sweep.marked.size := by
  have same : t.visited.Perm t.sweep.marked.toList :=
    (List.perm_ext_iff_of_nodup orderly.once (AscSet.nodup_toList _)).2 orderly.visited_iff
  exact same.length_eq

/-! ### The end of a tour -/

/-- What may still be visited. -/
def unmarked (h : Heap A V) (roots : LiveSet A) (t : Tour A) : LiveSet A :=
  (roots ∪ h.embedded) \ t.sweep.marked

/-- A visit leaves less to be visited; between visits the offered addresses get fewer. -/
theorem Orderly.decreases (orderly : t.Orderly h roots) (stepped : t.next? h = some u) :
    Prod.Lex (· < ·) (· < ·) ((u.unmarked h roots).size, u.offered.length)
      ((t.unmarked h roots).size, t.offered.length) := by
  obtain ⟨visited, sweep, offered⟩ := t
  obtain ⟨b, later, rfl, rfl⟩ | ⟨a, rest, rfl, popped, rfl⟩ := cases_of_next? stepped
  · simp only [unmarked, Sweep.marked_offer]
    exact .right _ (Nat.lt_succ_self _)
  · obtain ⟨-, frontier⟩ := AscSet.mem_of_popFirst? popped
    have up : a ∈ sweep.frontier := (frontier a).2 (.inl rfl)
    refine .left _ _ (AscSet.size_lt_of_subset (a := a) (fun b => ?_) ?_ ?_)
    · simp only [unmarked, AscSet.mem_diff, AscSet.mem_insert, not_or]
      exact fun left => ⟨left.1, left.2.2⟩
    · exact AscSet.mem_diff.2 ⟨orderly.within a (.inr (.inl up)), fun marked =>
        orderly.apart a marked up⟩
    · simp [unmarked]

/-- No tour goes on for ever. -/
theorem Orderly.acc {t : Tour A} (orderly : t.Orderly h roots) :
    Acc (fun u t : Tour A => t.next? h = some u) t :=
  .intro t fun _ stepped => (orderly.next? stepped).acc
termination_by ((t.unmarked h roots).size, t.offered.length)
decreasing_by exact orderly.decreases stepped

theorem exists_end_of_acc (ends : Acc (fun u t : Tour A => t.next? h = some u) t) :
    ∃ u, ReflTransGen (fun s t => s.next? h = some t) t u ∧ u.next? h = none := by
  induction ends with
  | intro t _ ih =>
    cases stepped : t.next? h with
    | none => exact ⟨t, .refl, stepped⟩
    | some u =>
      obtain ⟨last, path, ended⟩ := ih u stepped
      exact ⟨last, .head stepped path, ended⟩

/-! ### Tours beside sweeps -/

/-- The sweep as it will be when all that is offered has been looked at. -/
def settled (t : Tour A) : Sweep A := t.offered.foldl Sweep.offer t.sweep

theorem settled_of_next? (stepped : t.next? h = some u) :
    u.settled = t.settled ∨ t.settled.step? h = some u.settled := by
  obtain ⟨visited, sweep, offered⟩ := t
  obtain ⟨b, later, rfl, rfl⟩ | ⟨a, rest, rfl, popped, rfl⟩ := cases_of_next? stepped
  · exact .inl rfl
  · right
    change sweep.step? h = _
    rw [Sweep.step?_eq, popped]
    rfl

theorem Comes.sweep_settled (comes : Comes h roots t) : Sweep.Comes h roots t.settled := by
  induction comes with
  | refl => exact .refl
  | tail _ stepped ih =>
    rcases settled_of_next? stepped with same | onward
    · rwa [same]
    · exact ih.tail onward

theorem settles (visited : List A) (sweep : Sweep A) (offered : List A) :
    ReflTransGen (fun s t : Tour A => s.next? h = some t) ⟨visited, sweep, offered⟩
      ⟨visited, offered.foldl Sweep.offer sweep, []⟩ := by
  induction offered generalizing sweep with
  | nil => exact .refl
  | cons b later ih => exact .head rfl (ih (sweep.offer b))

/-- Between two visits tours are what sweeps are. -/
theorem sweep_comes_iff {s : Sweep A} :
    Sweep.Comes h roots s ↔ ∃ t, Comes h roots t ∧ t.offered = [] ∧ t.sweep = s := by
  constructor
  · intro comes
    induction comes with
    | refl => exact ⟨start roots, .refl, rfl, rfl⟩
    | @tail s s' _ stepped ih =>
      obtain ⟨⟨visited, _, _⟩, comes, rfl, rfl⟩ := ih
      rw [Sweep.step?_eq, Option.map_eq_some_iff] at stepped
      obtain ⟨⟨a, rest⟩, popped, rfl⟩ := stepped
      refine ⟨_, .trans comes (.head ?_ (settles (visited ++ [a]) _ (h.offers a))), rfl, rfl⟩
      simp only [next?, popped]
  · rintro ⟨⟨visited, sweep, _⟩, comes, rfl, rfl⟩
    exact comes.sweep_settled

theorem Comes.marked_eq_reachable (comes : Comes h roots t) (ended : t.next? h = none) :
    t.sweep.marked = h.reachable roots := by
  obtain ⟨offered, frontier⟩ := next?_eq_none_iff.1 ended
  have settled : t.settled = t.sweep := by rw [Tour.settled, offered]; rfl
  have finished : t.sweep.step? h = none := by
    rw [Sweep.step?_eq, AscSet.popFirst?_eq_none_iff.2 frontier]
    rfl
  rw [← Sweep.finish_of_ended finished, ← settled, comes.sweep_settled.finish_eq]

end Tour

/-- Every tour of a heap comes to its end. All along, what is marked is apart from the frontier, both
lie among the roots and the addresses that the heap embeds, and no address is visited twice. At the
end the addresses that are reached have been visited, each once. A sweep is such a tour, told from
visit to visit. -/
theorem visits_each_once (h : Heap A V) (roots : LiveSet A) :
    Acc (fun u t : Tour A => t.next? h = some u) (.start roots) ∧
    (∀ t, Tour.Comes h roots t → t.Orderly h roots) ∧
    (∀ s, Sweep.Comes h roots s ↔ ∃ t, Tour.Comes h roots t ∧ t.offered = [] ∧ t.sweep = s) ∧
    (∃ t, Tour.Comes h roots t ∧ t.next? h = none) ∧
    ∀ t, Tour.Comes h roots t → t.next? h = none →
      t.sweep.marked = h.reachable roots ∧ t.visited.length = (h.reachable roots).size := by
  have begun : (Tour.start roots).Orderly h roots := Tour.orderly_start
  have ends := begun.acc
  refine ⟨ends, fun t comes => comes.orderly, fun s => Tour.sweep_comes_iff,
    Tour.exists_end_of_acc ends, fun t comes ended => ?_⟩
  have result := comes.marked_eq_reachable ended
  exact ⟨result, result ▸ comes.orderly.length_visited⟩

/-- The cell at the first address embeds that address itself and the second one, and the cell there
embeds the first one. -/
example :
    let h : Heap Precise (Object Precise) :=
      (({} : Heap Precise (Object Precise)).put ⟨0⟩ (.ofList [.reference ⟨0⟩, .reference ⟨1⟩])).put
        ⟨1⟩ (.singleton (.reference ⟨0⟩))
    let last := Nat.repeat (· >>= Tour.next? h) 5 (some (.start (.singleton ⟨0⟩)))
    last.map Tour.visited = some [⟨0⟩, ⟨1⟩] ∧ (last >>= Tour.next? h).isNone = true := by
  decide

end AbstractStore.Heap
