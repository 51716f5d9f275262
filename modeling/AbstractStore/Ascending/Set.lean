/-! Finite sets kept as strictly ascending lists.
The listing is the view of a set: two sets with the same members are equal (`AscSet.ext`), and
whatever walks a set meets its members in ascending order. -/

namespace AbstractStore

open Std

structure AscSet (α : Type) [Ord α] where
  toList : List α
  ascending : toList.Pairwise (compare · · = .lt)
  deriving DecidableEq

namespace AscSet

section Order

variable {α : Type} [Ord α]

def empty : AscSet α := ⟨[], .nil⟩

instance : Inhabited (AscSet α) := ⟨empty⟩
instance : EmptyCollection (AscSet α) := ⟨empty⟩
instance : Membership α (AscSet α) := ⟨fun s a => a ∈ s.toList⟩

/-- Sets compare as their listings do, element by element. -/
instance : Ord (AscSet α) := ⟨compareOn toList⟩

def singleton (a : α) : AscSet α := ⟨[a], List.pairwise_singleton ..⟩

def contains (s : AscSet α) (a : α) : Bool := s.toList.any (compare a · == .eq)

def size (s : AscSet α) : Nat := s.toList.length

def isEmpty (s : AscSet α) : Bool := s.toList.isEmpty

def filter (p : α → Bool) (s : AscSet α) : AscSet α := ⟨s.toList.filter p, s.ascending.filter p⟩

def erase (s : AscSet α) (a : α) : AscSet α := s.filter (compare a · != .eq)

def diff (s t : AscSet α) : AscSet α := s.filter (!t.contains ·)

instance : SDiff (AscSet α) := ⟨diff⟩

/-- The least member, and the set without it. -/
def popFirst? : AscSet α → Option (α × AscSet α)
  | ⟨[], _⟩ => none
  | ⟨a :: l, ascending⟩ => some (a, ⟨l, ascending.of_cons⟩)

/-- Place `a` before the first greater element; an element equal to it stays. -/
def place (a : α) : List α → List α
  | [] => [a]
  | b :: l => match compare a b with
    | .lt => a :: b :: l
    | .eq => b :: l
    | .gt => b :: place a l

/-- Whether `place` adds an element: no element equal to `a` comes before the first greater one. -/
def isNew (a : α) : List α → Bool
  | [] => true
  | b :: l => match compare a b with
    | .lt => true
    | .eq => false
    | .gt => isNew a l

theorem toList_injective {s t : AscSet α} (sameList : s.toList = t.toList) : s = t := by
  cases s; cases t; cases sameList; rfl

@[simp] theorem not_mem_empty (a : α) : a ∉ (∅ : AscSet α) := List.not_mem_nil

@[simp] theorem mem_singleton {a b : α} : a ∈ singleton b ↔ a = b := List.mem_singleton

@[simp] theorem mem_toList {s : AscSet α} {a : α} : a ∈ s.toList ↔ a ∈ s := .rfl

@[simp] theorem mem_filter {p : α → Bool} {s : AscSet α} {a : α} :
    a ∈ s.filter p ↔ a ∈ s ∧ p a = true := List.mem_filter

theorem isEmpty_iff {s : AscSet α} : s.isEmpty = true ↔ s = ∅ :=
  ⟨fun noMember => toList_injective (List.isEmpty_iff.1 noMember), fun h => h ▸ rfl⟩

theorem isEmpty_eq_false_iff {s : AscSet α} : s.isEmpty = false ↔ ∃ a, a ∈ s := by
  obtain ⟨_ | ⟨a, l⟩, ascending⟩ := s
  · exact ⟨nofun, fun ⟨_, inside⟩ => absurd inside List.not_mem_nil⟩
  · exact ⟨fun _ => ⟨a, List.mem_cons_self ..⟩, fun _ => rfl⟩

theorem popFirst?_eq_none_iff {s : AscSet α} : s.popFirst? = none ↔ s = ∅ := by
  obtain ⟨_ | ⟨_, _⟩, _⟩ := s
  · exact ⟨fun _ => rfl, fun _ => rfl⟩
  · exact ⟨nofun, nofun⟩

instance [TransOrd α] : TransOrd (AscSet α) := inferInstanceAs (TransCmp (compareOn toList))

instance [LawfulEqOrd α] : LawfulEqOrd (AscSet α) where
  compare_self := ReflOrd.compare_self (α := List α)
  eq_of_compare same := toList_injective (LawfulEqOrd.eq_of_compare same)

end Order

section Equality

variable {α : Type} [Ord α] [LawfulEqOrd α]

@[simp] theorem contains_iff {s : AscSet α} {a : α} : s.contains a = true ↔ a ∈ s := by
  simp [contains, LawfulEqCmp.compare_eq_iff_eq]

@[simp] theorem contains_eq_false_iff {s : AscSet α} {a : α} : s.contains a = false ↔ a ∉ s := by
  rw [← contains_iff, Bool.not_eq_true]

instance (a : α) (s : AscSet α) : Decidable (a ∈ s) := decidable_of_iff _ contains_iff

@[simp] theorem mem_erase {s : AscSet α} {a b : α} : a ∈ s.erase b ↔ a ∈ s ∧ b ≠ a := by
  simp [erase, LawfulEqCmp.compare_eq_iff_eq]

@[simp] theorem mem_diff {s t : AscSet α} {a : α} : a ∈ s \ t ↔ a ∈ s ∧ a ∉ t := by
  change a ∈ s.filter (!t.contains ·) ↔ _
  simp

theorem nodup_toList (s : AscSet α) : s.toList.Nodup :=
  s.ascending.imp fun less same => by simp [same, ReflCmp.compare_self] at less

theorem mem_place {a b : α} {l : List α} : a ∈ place b l ↔ a = b ∨ a ∈ l := by
  induction l with
  | nil => simp [place]
  | cons c l ih =>
      unfold place
      split
      next => simp
      next same => simp [LawfulEqCmp.eq_of_compare same]
      next => simp only [List.mem_cons, ih]; exact or_left_comm

theorem mem_of_popFirst? {s rest : AscSet α} {a : α} (popped : s.popFirst? = some (a, rest)) :
    a ∉ rest ∧ ∀ b, b ∈ s ↔ b = a ∨ b ∈ rest := by
  obtain ⟨_ | ⟨c, l⟩, ascending⟩ := s
  · cases popped
  · cases popped
    refine ⟨fun again => ?_, fun b => List.mem_cons⟩
    simpa [ReflCmp.compare_self] using (List.pairwise_cons.1 ascending).1 a again

end Equality

section Lawful

variable {α : Type} [Ord α] [TransOrd α] [LawfulEqOrd α]

theorem place_ascending {a : α} {l : List α} (ascending : l.Pairwise (compare · · = .lt)) :
    (place a l).Pairwise (compare · · = .lt) := by
  induction l with
  | nil => exact List.pairwise_singleton ..
  | cons b l ih =>
      have ⟨below, rest⟩ := List.pairwise_cons.1 ascending
      unfold place
      split
      next less =>
        refine List.pairwise_cons.2 ⟨fun c hc => ?_, ascending⟩
        rcases List.mem_cons.1 hc with rfl | hc
        · exact less
        · exact TransCmp.lt_trans less (below c hc)
      next => exact ascending
      next greater =>
        refine List.pairwise_cons.2 ⟨fun c hc => ?_, ih rest⟩
        rcases mem_place.1 hc with rfl | hc
        · exact OrientedCmp.gt_iff_lt.1 greater
        · exact below c hc

def insert (s : AscSet α) (a : α) : AscSet α := ⟨place a s.toList, place_ascending s.ascending⟩

/-- What an insertion of `a` answers: whether it adds a member. -/
def adds (s : AscSet α) (a : α) : Bool := isNew a s.toList

def ofList (l : List α) : AscSet α := l.foldl insert ∅

def union (s t : AscSet α) : AscSet α := t.toList.foldl insert s

instance : Union (AscSet α) := ⟨union⟩

@[simp] theorem mem_insert {s : AscSet α} {a b : α} : a ∈ s.insert b ↔ a = b ∨ a ∈ s := mem_place

/-- Behind the first greater element there are only greater ones, so `a` is not missed there. -/
theorem isNew_iff {a : α} {l : List α} (ascending : l.Pairwise (compare · · = .lt)) :
    isNew a l = true ↔ a ∉ l := by
  induction l with
  | nil => simp [isNew]
  | cons b l ih =>
      have ⟨below, rest⟩ := List.pairwise_cons.1 ascending
      unfold isNew
      split
      next less =>
        refine iff_of_true rfl fun inside => ?_
        rcases List.mem_cons.1 inside with rfl | later
        · simp [ReflCmp.compare_self] at less
        · simpa [ReflCmp.compare_self] using TransCmp.lt_trans less (below a later)
      next same => simp [LawfulEqCmp.eq_of_compare same]
      next greater =>
        have differ : a ≠ b := by
          rintro rfl
          simp [ReflCmp.compare_self] at greater
        rw [ih rest, List.mem_cons, not_or]
        exact (and_iff_right differ).symm

theorem adds_iff {s : AscSet α} {a : α} : s.adds a = true ↔ a ∉ s := isNew_iff s.ascending

theorem mem_foldl_insert {l : List α} {s : AscSet α} {a : α} :
    a ∈ l.foldl insert s ↔ a ∈ s ∨ a ∈ l := by
  induction l generalizing s with
  | nil => simp
  | cons b l ih =>
      rw [List.foldl_cons, ih, mem_insert, List.mem_cons, or_left_comm, or_assoc]

@[simp] theorem mem_union {s t : AscSet α} {a : α} : a ∈ s ∪ t ↔ a ∈ s ∨ a ∈ t :=
  mem_foldl_insert

@[simp] theorem mem_ofList {l : List α} {a : α} : a ∈ ofList l ↔ a ∈ l :=
  mem_foldl_insert.trans (or_iff_right (not_mem_empty a))

/-- A strictly ascending list is determined by its members. -/
theorem ascending_ext {l m : List α} (hl : l.Pairwise (compare · · = .lt))
    (hm : m.Pairwise (compare · · = .lt)) (sameMembers : ∀ a, a ∈ l ↔ a ∈ m) : l = m := by
  have irrefl (c : α) : compare c c ≠ .lt := by simp [ReflCmp.compare_self]
  induction l generalizing m with
  | nil =>
      cases m with
      | nil => rfl
      | cons b m => simpa using sameMembers b
  | cons a l ih =>
      cases m with
      | nil => simpa using sameMembers a
      | cons b m =>
          have ⟨belowL, ascL⟩ := List.pairwise_cons.1 hl
          have ⟨belowM, ascM⟩ := List.pairwise_cons.1 hm
          have heads : a = b := by
            rcases List.mem_cons.1 ((sameMembers a).1 (List.mem_cons_self ..)) with h | inM
            · exact h
            rcases List.mem_cons.1 ((sameMembers b).2 (List.mem_cons_self ..)) with h | inL
            · exact h.symm
            · exact absurd (TransCmp.lt_trans (belowM a inM) (belowL b inL)) (irrefl b)
          subst heads
          refine congrArg _ (ih ascL ascM fun c => ⟨fun inL => ?_, fun inM => ?_⟩)
          · rcases List.mem_cons.1 ((sameMembers c).1 (List.mem_cons_of_mem _ inL)) with rfl | h
            · exact absurd (belowL c inL) (irrefl c)
            · exact h
          · rcases List.mem_cons.1 ((sameMembers c).2 (List.mem_cons_of_mem _ inM)) with rfl | h
            · exact absurd (belowM c inM) (irrefl c)
            · exact h

@[ext] theorem ext {s t : AscSet α} (sameMembers : ∀ a, a ∈ s ↔ a ∈ t) : s = t :=
  toList_injective (ascending_ext s.ascending t.ascending sameMembers)

theorem eq_filter_of_subset {s t : AscSet α} (subset : ∀ a, a ∈ s → a ∈ t) :
    s = t.filter s.contains :=
  ext fun a => by simpa using subset a

/-- A set inside another that lacks one of its members is the smaller one. -/
theorem size_lt_of_subset {s t : AscSet α} {a : α} (subset : ∀ b, b ∈ s → b ∈ t)
    (inLarger : a ∈ t) (notInSmaller : a ∉ s) : s.size < t.size := by
  rw [eq_filter_of_subset subset]
  exact List.length_filter_lt_length_iff_exists.2 ⟨a, inLarger, by simpa using notInSmaller⟩

@[simp] theorem ofList_toList (s : AscSet α) : ofList s.toList = s := ext fun _ => by simp

@[simp] theorem union_self (s : AscSet α) : s ∪ s = s := ext fun _ => by simp

@[simp] theorem empty_union (s : AscSet α) : ∅ ∪ s = s := ext fun _ => by simp

theorem union_comm (s t : AscSet α) : s ∪ t = t ∪ s := ext fun _ => by simp [or_comm]

theorem union_assoc (s t u : AscSet α) : s ∪ t ∪ u = s ∪ (t ∪ u) := ext fun _ => by simp [or_assoc]

end Lawful

end AscSet

end AbstractStore
