import AbstractStore.Object
import AbstractStore.Proofs.Reachability

/-! How collections go together.
A collection keeps all that its roots reach, cells and paths, so what is reached from inside that
part is reached in it as before: a later collection from there comes to what it would have come to
without the earlier one. And a path starts at a single root, so a collection from two sets of roots
keeps what the collections from either keep. -/

namespace AbstractStore.Heap

variable {A V : Type} [Address A] [Value V A] {h : Heap A V} {wide roots : LiveSet A}

/-- What a collection reaches lies in what a wider one has kept. -/
theorem mem_reachable_of_within (within : ∀ a ∈ roots, a ∈ h.reachable wide) :
    ∀ a ∈ h.reachable roots, a ∈ h.reachable wide :=
  forall_reachable within fun _ _ => mem_reachable_of_leads

/-- From roots inside the part that a collection kept, the same is reached as before it. -/
theorem reachable_collect (within : ∀ a ∈ roots, a ∈ h.reachable wide) :
    (h.collect wide).reachable roots = h.reachable roots := by
  refine reachable_congr fun a reached => ?_
  rw [lookup_collect, if_pos (mem_reachable_of_within within a reached)]

theorem collect_collect (within : ∀ a ∈ roots, a ∈ h.reachable wide) :
    (h.collect wide).collect roots = h.collect roots := by
  refine ext fun a => ?_
  by_cases reached : a ∈ h.reachable roots
  · have kept := mem_reachable_of_within within a reached
    simp only [lookup_collect, reachable_collect within, if_pos reached, if_pos kept]
  · simp only [lookup_collect, reachable_collect within, if_neg reached]

/-- Collections from more roots change nothing for the one that follows them. -/
theorem collect_foldl (earlier : List (LiveSet A)) (h : Heap A V)
    (more : ∀ wide ∈ earlier, ∀ a ∈ roots, a ∈ wide) :
    (earlier.foldl collect h).collect roots = h.collect roots := by
  induction earlier generalizing h with
  | nil => rfl
  | cons wide later ih =>
    obtain ⟨first, rest⟩ := List.forall_mem_cons.1 more
    rw [List.foldl_cons, ih (h.collect wide) rest]
    exact collect_collect fun a root => mem_reachable_of_mem_roots (first a root)

/-- A collection that starts inside what an earlier one reached comes to what it comes to without
the earlier one. So collecting again from the same roots changes nothing, and any number of
collections from more roots change nothing for the one that follows them. -/
theorem collections_compose (h : Heap A V) :
    (∀ wide roots : LiveSet A, (∀ a ∈ roots, a ∈ h.reachable wide) →
      (h.collect wide).collect roots = h.collect roots) ∧
    (∀ roots, (h.collect roots).collect roots = h.collect roots) ∧
    ∀ (earlier : List (LiveSet A)) (roots : LiveSet A),
      (∀ wide ∈ earlier, ∀ a ∈ roots, a ∈ wide) →
      (earlier.foldl collect h).collect roots = h.collect roots :=
  ⟨fun _ _ => collect_collect, fun _ => collect_collect fun _ => mem_reachable_of_mem_roots,
    fun earlier _ => collect_foldl earlier h⟩

/-- Two addresses in a circle, one of which leads to an address without a cell as well, and a third
one that leads into the circle. -/
def circled : Heap Precise (Object Precise) :=
  (((({} : Heap Precise (Object Precise)).put ⟨0⟩ (.singleton (.reference ⟨1⟩))).put
    ⟨1⟩ (.ofList [.reference ⟨0⟩, .reference ⟨7⟩])).put ⟨2⟩ (.singleton (.reference ⟨0⟩)))

theorem collections_compose_circled :
    let wide : LiveSet Precise := .singleton ⟨2⟩
    let roots : LiveSet Precise := .ofList [⟨1⟩, ⟨7⟩]
    let earlier : List (LiveSet Precise) := [.ofList [⟨1⟩, ⟨2⟩, ⟨7⟩], .ofList [⟨1⟩, ⟨7⟩, ⟨9⟩]]
    (∀ a ∈ roots, a ∈ circled.reachable wide) ∧
    (circled.collect wide).collect roots = circled.collect roots ∧
    (∀ wide ∈ earlier, ∀ a ∈ roots, a ∈ wide) ∧
    (earlier.foldl collect circled).collect roots = circled.collect roots := by
  intro wide roots earlier
  have next {a b : Precise} (reached : a ∈ circled.reachable wide)
      (embedded : b ∈ circled.successors a) : b ∈ circled.reachable wide :=
    mem_reachable_of_leads reached (mem_successors.1 embedded)
  have two : ⟨2⟩ ∈ circled.reachable wide := mem_reachable_of_mem_roots (by decide)
  have zero : ⟨0⟩ ∈ circled.reachable wide := next two (by decide)
  have one : ⟨1⟩ ∈ circled.reachable wide := next zero (by decide)
  have seven : ⟨7⟩ ∈ circled.reachable wide := next one (by decide)
  have within : ∀ a ∈ roots, a ∈ circled.reachable wide := by
    intro a root
    have either : a = ⟨1⟩ ∨ a = ⟨7⟩ := by simpa [roots] using root
    rcases either with rfl | rfl
    · exact one
    · exact seven
  have more : ∀ wide ∈ earlier, ∀ a ∈ roots, a ∈ wide := by decide
  obtain ⟨compose, -, sequence⟩ := collections_compose circled
  exact ⟨within, compose wide roots within, more, sequence earlier roots more⟩

/-- A path starts at one root, so it starts in one of the sets. -/
theorem reaches_union {others : LiveSet A} {a : A} :
    h.Reaches (roots ∪ others) a ↔ h.Reaches roots a ∨ h.Reaches others a := by
  simp only [Reaches, AscSet.mem_union, or_and_right, exists_or]

theorem reachable_union (h : Heap A V) (roots others : LiveSet A) :
    h.reachable (roots ∪ others) = h.reachable roots ∪ h.reachable others :=
  AscSet.ext fun a => by simp only [AscSet.mem_union, mem_reachable, reaches_union]

/-- Where both collections have kept a cell it is the same one, so their meeting does not alter
it. -/
theorem lookup_join_collect (h : Heap A V) (roots others : LiveSet A) (a : A) :
    ((h.collect roots).join (h.collect others)).lookup a =
      if a ∈ h.reachable roots ∨ a ∈ h.reachable others then h.lookup a else none := by
  rw [lookup_join, valuesAt, lookup_collect, lookup_collect]
  by_cases first : a ∈ h.reachable roots <;> by_cases second : a ∈ h.reachable others <;>
    cases h.lookup a <;> simp [first, second]

/-- What two sets of roots reach together is what the one reaches and what the other reaches, and a
collection from both is the meeting of the collections from each. -/
theorem collections_distribute (h : Heap A V) (roots others : LiveSet A) :
    h.reachable (roots ∪ others) = h.reachable roots ∪ h.reachable others ∧
      h.collect (roots ∪ others) = (h.collect roots).join (h.collect others) := by
  have reached := reachable_union h roots others
  refine ⟨reached, ext fun a => ?_⟩
  simp only [lookup_collect, reached, AscSet.mem_union, lookup_join_collect]

end AbstractStore.Heap
