import AbstractStore.Heap.Reachable
import Mathlib.Logic.Relation

/-! What a sweep marks.
An address leads to another when a value stored at it embeds the other. A sweep marks exactly the
addresses at the ends of such paths from the roots, and a collection keeps exactly their cells.
Reachability is read off the cells at reached addresses alone: a heap that agrees there has the
same reached addresses (`reachable_congr`). -/

namespace AbstractStore.Heap

variable {A V : Type} [Address A] [Value V A]
variable {h k : Heap A V} {roots : LiveSet A} {a b c : A}

/-- Some value stored at `a` embeds `b`. -/
def Leads (h : Heap A V) (a b : A) : Prop :=
  ∃ c, h.lookup a = some c ∧ ∃ v ∈ c, b ∈ Value.roots v

/-- There is a path from one of the roots to `a`. -/
def Reaches (h : Heap A V) (roots : LiveSet A) (a : A) : Prop :=
  ∃ root ∈ roots, Relation.ReflTransGen h.Leads root a

theorem mem_successors : b ∈ h.successors a ↔ h.Leads a b := by
  rw [successors, valuesAt, Cell.mem_roots]
  cases found : h.lookup a with
  | none => simp [Leads, found]
  | some c => simp [Leads, found]

theorem not_leads_of_lookup_eq_none (missing : h.lookup a = none) : ¬ h.Leads a b := by
  rintro ⟨c, found, -⟩
  rw [missing] at found
  cases found

/-! ### What the operations of a heap do to its cells and paths -/

variable {v : V} {mode : StoreMode}

theorem contains_reserve : (h.reserve a).contains b = true ↔ b = a ∨ h.contains b = true := by
  simp only [contains_iff, lookup_reserve]
  by_cases same : a = b
  · simp [same]
  · simp [same, Ne.symm same]

theorem contains_assign : (h.assign a v mode).contains b = true ↔ b = a ∨ h.contains b = true := by
  simp only [contains_iff, lookup_assign]
  by_cases same : a = b
  · simp [same]
  · simp [same, Ne.symm same]

theorem contains_join :
    (h.join k).contains b = true ↔ h.contains b = true ∨ k.contains b = true := by
  simp only [contains_iff, lookup_join]
  cases k.lookup b <;> simp

theorem leads_reserve : (h.reserve a).Leads b c ↔ h.Leads b c := by
  rw [← mem_successors, ← mem_successors, successors, successors, valuesAt, lookup_reserve]
  by_cases same : a = b
  · subst same
    simp [valuesAt]
  · simp [same, valuesAt]

/-- An assignment adds no path but those through the value that is stored. -/
theorem leads_assign (next : (h.assign a v mode).Leads b c) :
    b = a ∧ c ∈ Value.roots v ∨ h.Leads b c := by
  obtain ⟨cell, found, w, inCell, embedded⟩ := next
  rw [lookup_assign] at found
  by_cases same : a = b
  · subst same
    rw [if_pos rfl, Option.some.injEq] at found
    subst found
    cases mode with
    | strong =>
      obtain rfl := AscSet.mem_singleton.1 inCell
      exact .inl ⟨rfl, embedded⟩
    | weak =>
      rcases AscSet.mem_insert.1 inCell with rfl | old
      · exact .inl ⟨rfl, embedded⟩
      · exact .inr (mem_successors.1 (Cell.mem_roots.2 ⟨w, old, embedded⟩))
  · rw [if_neg same] at found
    exact .inr ⟨cell, found, w, inCell, embedded⟩

theorem leads_join : (h.join k).Leads a b ↔ h.Leads a b ∨ k.Leads a b := by
  simp only [← mem_successors, successors, valuesAt, lookup_join]
  cases k.lookup a with
  | none => simp [Cell.mem_roots]
  | some cell => simp [Cell.mem_roots, or_and_right, exists_or]

namespace Sweep

variable {s t : Sweep A}

theorem frontier_eq_empty_of_step? (ended : s.step? h = none) : s.frontier = ∅ := by
  unfold step? at ended
  split at ended
  next empty => exact AscSet.popFirst?_eq_none_iff.1 empty
  next => cases ended

/-- All that one step does: an address of the frontier is marked, and what it leads to is to be
visited unless it is marked. -/
theorem exists_of_step? (stepped : s.step? h = some t) :
    ∃ a ∈ s.frontier, (∀ b, b ∈ t.marked ↔ b = a ∨ b ∈ s.marked) ∧
      ∀ b, b ∈ t.frontier ↔ b ∈ s.frontier ∧ b ≠ a ∨ h.Leads a b ∧ b ∉ t.marked := by
  unfold step? at stepped
  split at stepped
  next => cases stepped
  next a rest popped =>
    cases stepped
    obtain ⟨notAgain, split⟩ := AscSet.mem_of_popFirst? popped
    refine ⟨a, (split a).2 (.inl rfl), fun b => AscSet.mem_insert, fun b => ?_⟩
    have others : b ∈ rest ↔ b ∈ s.frontier ∧ b ≠ a := by
      rw [split b]
      constructor
      · intro later
        exact ⟨.inr later, fun same => notAgain (same ▸ later)⟩
      · rintro ⟨same | later, differ⟩
        · exact absurd same differ
        · exact later
    rw [AscSet.mem_union, AscSet.mem_diff, mem_successors, others]

/-- What holds of a sweep from `roots` at every step. -/
structure Follows (s : Sweep A) (h : Heap A V) (roots : LiveSet A) : Prop where
  reaches : ∀ a, a ∈ s.marked ∨ a ∈ s.frontier → h.Reaches roots a
  rooted : ∀ a ∈ roots, a ∈ s.marked ∨ a ∈ s.frontier
  closed : ∀ a ∈ s.marked, ∀ b, h.Leads a b → b ∈ s.marked ∨ b ∈ s.frontier

theorem follows_start : (start roots).Follows h roots where
  reaches a visited := by
    rcases visited with marked | root
    · exact absurd marked (AscSet.not_mem_empty a)
    · exact ⟨a, root, .refl⟩
  rooted a root := .inr root
  closed a marked := absurd marked (AscSet.not_mem_empty a)

theorem Follows.step? (follows : s.Follows h roots) (stepped : s.step? h = some t) :
    t.Follows h roots := by
  obtain ⟨a, visiting, marked, frontier⟩ := exists_of_step? stepped
  -- nothing that was marked or to be visited is lost
  have kept (b : A) (seen : b ∈ s.marked ∨ b ∈ s.frontier) : b ∈ t.marked ∨ b ∈ t.frontier := by
    by_cases same : b = a
    · exact .inl ((marked b).2 (.inl same))
    · rcases seen with old | waiting
      · exact .inl ((marked b).2 (.inr old))
      · exact .inr ((frontier b).2 (.inl ⟨waiting, same⟩))
  refine ⟨fun b seen => ?_, fun b root => kept b (follows.rooted b root), fun b old c next => ?_⟩
  · rcases seen with now | waiting
    · rcases (marked b).1 now with rfl | old
      · exact follows.reaches b (.inr visiting)
      · exact follows.reaches b (.inl old)
    · rcases (frontier b).1 waiting with ⟨old, -⟩ | ⟨next, -⟩
      · exact follows.reaches b (.inr old)
      · obtain ⟨root, inRoots, path⟩ := follows.reaches a (.inr visiting)
        exact ⟨root, inRoots, path.tail next⟩
  · rcases (marked b).1 old with rfl | before
    · by_cases done : c ∈ t.marked
      · exact .inl done
      · exact .inr ((frontier c).2 (.inr ⟨next, done⟩))
    · exact kept c (follows.closed b before c next)

/-- A sweep that has come to its end has marked what the roots reach. -/
theorem Follows.mem_marked_iff (follows : s.Follows h roots) (ended : s.frontier = ∅) :
    a ∈ s.marked ↔ h.Reaches roots a := by
  have marked (b : A) (seen : b ∈ s.marked ∨ b ∈ s.frontier) : b ∈ s.marked := by
    rw [ended] at seen
    exact seen.resolve_right (AscSet.not_mem_empty b)
  constructor
  · intro seen
    exact follows.reaches a (.inl seen)
  · rintro ⟨root, inRoots, path⟩
    induction path with
    | refl => exact marked root (follows.rooted root inRoots)
    | tail _ next ih => exact marked _ (follows.closed _ ih _ next)

theorem Follows.mem_finish (follows : s.Follows h roots) :
    a ∈ s.finish h ↔ h.Reaches roots a := by
  fun_induction finish h s with
  | case1 s ended => exact follows.mem_marked_iff (frontier_eq_empty_of_step? ended)
  | case2 s t stepped _ ih => exact ih (follows.step? stepped)

end Sweep

theorem mem_reachable : a ∈ h.reachable roots ↔ h.Reaches roots a :=
  Sweep.follows_start.mem_finish

theorem lookup_collect :
    (h.collect roots).lookup a = if a ∈ h.reachable roots then h.lookup a else none :=
  lookup_restrict

theorem contains_collect :
    (h.collect roots).contains b = true ↔ b ∈ h.reachable roots ∧ h.contains b = true := by
  simp only [contains_iff, lookup_collect]
  by_cases reached : b ∈ h.reachable roots <;> simp [reached]

theorem leads_of_leads_collect (next : (h.collect roots).Leads a b) : h.Leads a b := by
  obtain ⟨cell, found, value⟩ := next
  rw [lookup_collect] at found
  split at found
  · exact ⟨cell, found, value⟩
  · cases found

theorem mem_reachable_of_mem_roots (root : a ∈ roots) : a ∈ h.reachable roots :=
  mem_reachable.2 ⟨a, root, .refl⟩

theorem mem_reachable_of_leads (reached : a ∈ h.reachable roots) (next : h.Leads a b) :
    b ∈ h.reachable roots := by
  obtain ⟨root, inRoots, path⟩ := mem_reachable.1 reached
  exact mem_reachable.2 ⟨root, inRoots, path.tail next⟩

/-- What holds of the roots and passes along the values of the heap holds of all that is
reached. -/
theorem forall_reachable {P : A → Prop} (ofRoots : ∀ a ∈ roots, P a)
    (ofNext : ∀ a b, P a → h.Leads a b → P b) : ∀ a ∈ h.reachable roots, P a := by
  intro a reached
  obtain ⟨root, inRoots, path⟩ := mem_reachable.1 reached
  induction path with
  | refl => exact ofRoots root inRoots
  | tail path next ih => exact ofNext _ _ (ih (mem_reachable.2 ⟨root, inRoots, path⟩)) next

/-- Heaps that agree on what one of them reaches reach the same. -/
theorem reachable_congr (agree : ∀ a ∈ h.reachable roots, k.lookup a = h.lookup a) :
    k.reachable roots = h.reachable roots := by
  have leads (a b : A) (reached : a ∈ h.reachable roots) : k.Leads a b ↔ h.Leads a b := by
    simp only [Leads, agree a reached]
  refine AscSet.ext fun a => ⟨fun reached => ?_, fun reached => ?_⟩
  · exact forall_reachable (fun b root => mem_reachable_of_mem_roots root)
      (fun b c reachedB next => mem_reachable_of_leads reachedB ((leads b c reachedB).1 next))
      a reached
  · have both : ∀ b ∈ h.reachable roots, b ∈ h.reachable roots ∧ b ∈ k.reachable roots :=
      forall_reachable
        (fun b root => ⟨mem_reachable_of_mem_roots root, mem_reachable_of_mem_roots root⟩)
        (fun b c reachedB next => ⟨mem_reachable_of_leads reachedB.1 next,
          mem_reachable_of_leads reachedB.2 ((leads b c reachedB.1).2 next)⟩)
    exact (both a reached).2

/-- A sweep marks the ends of all paths from the roots, and a collection keeps the cells that there
are at them, as they are. A root or an embedded address without a cell is marked, and no path goes
on from it. -/
theorem reachable_and_collect_exact (h : Heap A V) (roots : LiveSet A) :
    (∀ a, a ∈ h.reachable roots ↔ ∃ root ∈ roots, Relation.ReflTransGen h.Leads root a) ∧
    (∀ a c, (h.collect roots).lookup a = some c ↔
      (∃ root ∈ roots, Relation.ReflTransGen h.Leads root a) ∧ h.lookup a = some c) ∧
    (∀ a, h.lookup a = none → a ∈ roots ∨ (∃ b ∈ h.reachable roots, h.Leads b a) →
      a ∈ h.reachable roots ∧ ∀ b, ¬ h.Leads a b) ∧
    ∀ a, a ∉ h.reachable roots → (h.collect roots).contains a = false := by
  refine ⟨fun a => mem_reachable, fun a c => ?_, fun a missing met => ⟨?_, fun b => ?_⟩,
    fun a unreached => ?_⟩
  · change _ ↔ h.Reaches roots a ∧ _
    rw [lookup_collect, ← mem_reachable]
    by_cases reached : a ∈ h.reachable roots <;> simp [reached]
  · rcases met with root | ⟨b, reached, next⟩
    · exact mem_reachable_of_mem_roots root
    · exact mem_reachable_of_leads reached next
  · exact not_leads_of_lookup_eq_none missing
  · change ((h.collect roots).lookup a).isSome = false
    rw [lookup_collect, if_neg unreached]
    rfl

end AbstractStore.Heap
