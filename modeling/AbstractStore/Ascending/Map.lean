import AbstractStore.Ascending.Set

/-! Finite maps kept as lists of entries with strictly ascending keys.
A map is determined by its lookups (`AscMap.ext`), and its keys, values and entries are listed in
the order of the keys. -/

namespace AbstractStore

open Std

structure AscMap (κ β : Type) [Ord κ] where
  toList : List (κ × β)
  ascending : toList.Pairwise (fun p q => compare p.1 q.1 = .lt)
  deriving DecidableEq

namespace AscMap

section Order

variable {κ β : Type} [Ord κ]

def empty : AscMap κ β := ⟨[], .nil⟩

instance : Inhabited (AscMap κ β) := ⟨empty⟩
instance : EmptyCollection (AscMap κ β) := ⟨empty⟩

def get? (m : AscMap κ β) (k : κ) : Option β :=
  (m.toList.find? (compare k ·.1 == .eq)).map Prod.snd

def contains (m : AscMap κ β) (k : κ) : Bool := (m.get? k).isSome

def size (m : AscMap κ β) : Nat := m.toList.length

def values (m : AscMap κ β) : List β := m.toList.map Prod.snd

def keys (m : AscMap κ β) : AscSet κ := ⟨m.toList.map Prod.fst, List.pairwise_map.2 m.ascending⟩

def filter (p : κ × β → Bool) (m : AscMap κ β) : AscMap κ β :=
  ⟨m.toList.filter p, m.ascending.filter p⟩

def erase (m : AscMap κ β) (k : κ) : AscMap κ β := m.filter (compare k ·.1 != .eq)

/-- Place an entry before the first greater key, in the stead of an entry with an equal key. -/
def place (k : κ) (b : β) : List (κ × β) → List (κ × β)
  | [] => [(k, b)]
  | e :: l => match compare k e.1 with
    | .lt => (k, b) :: e :: l
    | .eq => (k, b) :: l
    | .gt => e :: place k b l

theorem toList_injective {m n : AscMap κ β} (sameList : m.toList = n.toList) : m = n := by
  cases m; cases n; cases sameList; rfl

theorem mem_place {k : κ} {b : β} {e : κ × β} {l : List (κ × β)} (inPlaced : e ∈ place k b l) :
    e = (k, b) ∨ e ∈ l := by
  induction l with
  | nil => exact .inl (List.mem_singleton.1 inPlaced)
  | cons d l ih =>
      unfold place at inPlaced
      split at inPlaced <;> grind

@[simp] theorem get?_empty (k : κ) : (∅ : AscMap κ β).get? k = none := rfl

@[simp] theorem size_keys (m : AscMap κ β) : m.keys.size = m.size := List.length_map ..

end Order

section Compare

variable {κ β : Type} [Ord κ] [Ord β]

attribute [local instance] lexOrd

/-- Maps compare as their listings do, entry by entry: by key first, then by value. -/
instance : Ord (AscMap κ β) := ⟨compareOn toList⟩

instance [TransOrd κ] [TransOrd β] : TransOrd (AscMap κ β) :=
  inferInstanceAs (TransCmp (compareOn toList))

instance [LawfulEqOrd κ] [LawfulEqOrd β] : LawfulEqOrd (AscMap κ β) where
  compare_self := ReflOrd.compare_self (α := List (κ × β))
  eq_of_compare same := toList_injective (LawfulEqOrd.eq_of_compare (α := List (κ × β)) same)

end Compare

section Equality

variable {κ β : Type} [Ord κ] [LawfulEqOrd κ]

theorem get?_eq_some_iff {m : AscMap κ β} {k : κ} {b : β} :
    m.get? k = some b ↔ (k, b) ∈ m.toList := by
  obtain ⟨l, ascending⟩ := m
  change (l.find? _).map _ = _ ↔ (k, b) ∈ l
  induction l with
  | nil => simp
  | cons e l ih =>
      have ⟨below, rest⟩ := List.pairwise_cons.1 ascending
      rcases e with ⟨j, c⟩
      by_cases same : compare k j = .eq
      · obtain rfl := LawfulEqCmp.eq_of_compare same
        have notLater : (k, b) ∉ l := fun later => by
          simpa [ReflCmp.compare_self] using below _ later
        simp [notLater, eq_comm]
      · have differ : k ≠ j := fun h => same (h ▸ ReflCmp.compare_self)
        have unequal : (compare k j == .eq) = false := beq_eq_false_iff_ne.2 same
        simp only [List.find?_cons, unequal, ih rest, List.mem_cons, Prod.mk.injEq, differ,
          false_and, false_or]

theorem get?_filter {m : AscMap κ β} {p : κ × β → Bool} {k : κ} :
    (m.filter p).get? k = (m.get? k).filter fun b => p (k, b) := by
  apply Option.ext
  intro b
  rw [get?_eq_some_iff, Option.filter_eq_some_iff, get?_eq_some_iff]
  exact List.mem_filter

theorem get?_erase {m : AscMap κ β} {k j : κ} :
    (m.erase k).get? j = if compare k j = .eq then none else m.get? j := by
  rw [erase, get?_filter]
  cases m.get? j <;> by_cases same : compare k j = .eq <;> simp [same]

theorem mem_keys {m : AscMap κ β} {k : κ} : k ∈ m.keys ↔ m.contains k = true := by
  change k ∈ m.toList.map Prod.fst ↔ _
  simp [contains, Option.isSome_iff_exists, get?_eq_some_iff]

end Equality

section Lawful

variable {κ β : Type} [Ord κ] [TransOrd κ] [LawfulEqOrd κ]

theorem place_ascending {k : κ} {b : β} {l : List (κ × β)}
    (ascending : l.Pairwise (fun p q => compare p.1 q.1 = .lt)) :
    (place k b l).Pairwise (fun p q => compare p.1 q.1 = .lt) := by
  induction l with
  | nil => exact List.pairwise_singleton ..
  | cons d l ih =>
      have ⟨below, rest⟩ := List.pairwise_cons.1 ascending
      unfold place
      split
      next less =>
        refine List.pairwise_cons.2 ⟨fun e he => ?_, ascending⟩
        rcases List.mem_cons.1 he with rfl | he
        · exact less
        · exact TransCmp.lt_trans less (below e he)
      next same =>
        refine List.pairwise_cons.2 ⟨fun e he => ?_, rest⟩
        rw [LawfulEqCmp.eq_of_compare same]
        exact below e he
      next greater =>
        refine List.pairwise_cons.2 ⟨fun e he => ?_, ih rest⟩
        rcases mem_place he with rfl | he
        · exact OrientedCmp.gt_iff_lt.1 greater
        · exact below e he

/-- Bind `k` to `b`, in the stead of what `k` was bound to. -/
def insert (m : AscMap κ β) (k : κ) (b : β) : AscMap κ β :=
  ⟨place k b m.toList, place_ascending m.ascending⟩

/-- The map of a list of entries; of two entries with one key the later counts. -/
def ofList (l : List (κ × β)) : AscMap κ β := l.foldl (fun m e => m.insert e.1 e.2) ∅

omit [LawfulEqOrd κ] in
theorem place_of_below {k : κ} {b : β} {l : List (κ × β)} (below : ∀ e ∈ l, compare e.1 k = .lt) :
    place k b l = l ++ [(k, b)] := by
  induction l with
  | nil => rfl
  | cons e l ih =>
      have ⟨first, later⟩ := List.forall_mem_cons.1 below
      have greater : compare k e.1 = .gt := OrientedCmp.gt_iff_lt.2 first
      simp [place, greater, ih later]

theorem toList_foldl_insert {m : AscMap κ β} {l : List (κ × β)}
    (ascending : (m.toList ++ l).Pairwise (fun p q => compare p.1 q.1 = .lt)) :
    (l.foldl (fun m e => m.insert e.1 e.2) m).toList = m.toList ++ l := by
  induction l generalizing m with
  | nil => simp
  | cons e l ih =>
      have placed : (m.insert e.1 e.2).toList = m.toList ++ [e] :=
        place_of_below fun d inside =>
          (List.pairwise_append.1 ascending).2.2 d inside e (List.mem_cons_self ..)
      rw [List.foldl_cons, ih, placed, List.append_assoc, List.singleton_append]
      rwa [placed, List.append_assoc, List.singleton_append]

/-- Entries that are in order make the map that lists them. -/
@[simp] theorem ofList_toList (m : AscMap κ β) : ofList m.toList = m :=
  toList_injective (toList_foldl_insert m.ascending)

@[simp] theorem get?_insert_self {m : AscMap κ β} {k : κ} {b : β} :
    (m.insert k b).get? k = some b := by
  obtain ⟨l, ascending⟩ := m
  change ((place k b l).find? _).map _ = _
  induction l with
  | nil => simp [place, ReflCmp.compare_self]
  | cons e l ih =>
      unfold place
      split
      next => simp [ReflCmp.compare_self]
      next => simp [ReflCmp.compare_self]
      next greater => simpa [List.find?_cons, greater] using ih (List.pairwise_cons.1 ascending).2

theorem get?_insert_of_ne {m : AscMap κ β} {k j : κ} {b : β} (differ : k ≠ j) :
    (m.insert k b).get? j = m.get? j := by
  obtain ⟨l, ascending⟩ := m
  change ((place k b l).find? _).map _ = (l.find? _).map _
  have notHere : (compare j k == .eq) = false :=
    beq_eq_false_iff_ne.2 fun h => differ (LawfulEqCmp.eq_of_compare h).symm
  induction l with
  | nil => simp [place, notHere]
  | cons e l ih =>
      unfold place
      split
      next => simp only [List.find?_cons, notHere]
      next same =>
        obtain rfl := LawfulEqCmp.eq_of_compare same
        simp only [List.find?_cons, notHere]
      next =>
        rw [List.find?_cons, List.find?_cons]
        split
        next => rfl
        next => exact ih (List.pairwise_cons.1 ascending).2

theorem get?_insert {m : AscMap κ β} {k j : κ} {b : β} :
    (m.insert k b).get? j = if compare k j = .eq then some b else m.get? j := by
  split
  next same => rw [← LawfulEqCmp.eq_of_compare same, get?_insert_self]
  next differ => exact get?_insert_of_ne fun h => differ (h ▸ ReflCmp.compare_self)

/-- What the entries of one map tell comes before what the map tells that they are added to. -/
theorem get?_foldl_insert {m n : AscMap κ β} {k : κ} :
    (n.toList.foldl (fun m e => m.insert e.1 e.2) m).get? k = (n.get? k).or (m.get? k) := by
  obtain ⟨l, ascending⟩ := n
  change (l.foldl (fun m e => m.insert e.1 e.2) m).get? k = ((l.find? _).map Prod.snd).or _
  induction l generalizing m with
  | nil => rfl
  | cons e l ih =>
      have ⟨below, rest⟩ := List.pairwise_cons.1 ascending
      rw [List.foldl_cons, ih rest, get?_insert, List.find?_cons]
      by_cases same : compare e.1 k = .eq
      · -- The keys ascend, so no later entry is put in the stead of this one.
        have key : e.1 = k := LawfulEqCmp.eq_of_compare same
        have notLater : l.find? (compare k ·.1 == .eq) = none :=
          List.find?_eq_none.2 fun d later => by simp [← key, below d later]
        simp [notLater, key, ReflCmp.compare_self]
      · have differ : (compare k e.1 == .eq) = false :=
          beq_eq_false_iff_ne.2 fun h => same (OrientedCmp.eq_comm.1 h)
        simp [same, differ]

@[ext] theorem ext {m n : AscMap κ β} (sameLookups : ∀ k, m.get? k = n.get? k) : m = n := by
  have sameEntries (e : κ × β) : e ∈ m.toList ↔ e ∈ n.toList := by
    rw [← get?_eq_some_iff, ← get?_eq_some_iff, sameLookups]
  obtain ⟨l, ascL⟩ := m
  obtain ⟨l', ascL'⟩ := n
  refine toList_injective ?_
  change ∀ e, e ∈ l ↔ e ∈ l' at sameEntries
  change l = l'
  clear sameLookups
  have irrefl (k : κ) : compare k k ≠ .lt := by simp [ReflCmp.compare_self]
  induction l generalizing l' with
  | nil =>
      cases l' with
      | nil => rfl
      | cons e l' => simpa using sameEntries e
  | cons d l ih =>
      cases l' with
      | nil => simpa using sameEntries d
      | cons e l' =>
          have ⟨belowL, restL⟩ := List.pairwise_cons.1 ascL
          have ⟨belowL', restL'⟩ := List.pairwise_cons.1 ascL'
          have heads : d = e := by
            rcases List.mem_cons.1 ((sameEntries d).1 (List.mem_cons_self ..)) with h | later
            · exact h
            rcases List.mem_cons.1 ((sameEntries e).2 (List.mem_cons_self ..)) with h | later'
            · exact h.symm
            · exact absurd (TransCmp.lt_trans (belowL' d later) (belowL e later')) (irrefl _)
          subst heads
          refine congrArg _ (ih restL l' restL' fun f => ⟨fun inL => ?_, fun inL' => ?_⟩)
          · rcases List.mem_cons.1 ((sameEntries f).1 (List.mem_cons_of_mem _ inL)) with rfl | h
            · exact absurd (belowL _ inL) (irrefl _)
            · exact h
          · rcases List.mem_cons.1 ((sameEntries f).2 (List.mem_cons_of_mem _ inL')) with rfl | h
            · exact absurd (belowL' _ inL') (irrefl _)
            · exact h

end Lawful

end AscMap

end AbstractStore
