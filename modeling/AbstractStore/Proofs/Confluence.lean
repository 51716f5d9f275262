import AbstractStore.Object
import AbstractStore.Proofs.Branches
import AbstractStore.Proofs.Monotonicity

/-! Branches that only add.
Where each name has its address and assignments join, a deposit adds a cell, a value or a root and
takes nothing away. So what a run of deposits leaves is told by which deposits are among them
(`Machine.Gathers`): neither their order matters, nor the branch that made them, once the branches
have met. -/

namespace AbstractStore

open Machine

/-- A list that is made up of two others, each of them in its own order. -/
inductive Interleaving {α : Type} : List α → List α → List α → Prop where
  | nil : Interleaving [] [] []
  | left {a : α} {first second whole : List α} (rest : Interleaving first second whole) :
      Interleaving (a :: first) second (a :: whole)
  | right {a : α} {first second whole : List α} (rest : Interleaving first second whole) :
      Interleaving first (a :: second) (a :: whole)

theorem Interleaving.mem_iff {α : Type} {first second whole : List α} {a : α}
    (interleaving : Interleaving first second whole) : a ∈ whole ↔ a ∈ first ∨ a ∈ second := by
  induction interleaving with
  | nil => simp
  | left rest ih => simp only [List.mem_cons, ih, or_assoc]
  | right rest ih => simp only [List.mem_cons, ih, or_left_comm]

/-- What a branch adds to a machine. -/
inductive Deposit (A V : Type) where
  /-- The address is asked for as a part of a module. -/
  | alloc (module : ModuleId) (name : Name)
  | assign (a : A) (v : V)
  | addRoot (a : A)

/-- The address that has a cell after a deposit, where each name of a module has its place. -/
def Deposit.target? {A V : Type} (place : ModuleId → Name → A) : Deposit A V → Option A
  | .alloc module name => some (place module name)
  | .assign a _ => some a
  | .addRoot _ => none

section Holdings

variable {P A V : Type} [Address A] [Value V A] {place : ModuleId → Name → A}

namespace Machine

/-- What a machine holds over another is what deposits have added. -/
structure Gathers (place : ModuleId → Name → A) (deposits : List (Deposit A V))
    (m n : Machine P A V) : Prop where
  cells : ∀ a, n.heap.contains a = true ↔
    m.heap.contains a = true ∨ ∃ deposit ∈ deposits, deposit.target? place = some a
  values : ∀ a v, v ∈ n.heap.valuesAt a ↔ v ∈ m.heap.valuesAt a ∨ .assign a v ∈ deposits
  roots : ∀ a, a ∈ n.stackRoots ↔ a ∈ m.stackRoots ∨ .addRoot a ∈ deposits

namespace Gathers

variable {m n o : Machine P A V} {first second whole : List (Deposit A V)}

theorem nothing (m : Machine P A V) : Gathers place [] m m where
  cells a := by simp
  values a v := by simp
  roots a := by simp

theorem trans (earlier : Gathers place first m n) (later : Gathers place second n o) :
    Gathers place (first ++ second) m o where
  cells a := by
    rw [later.cells, earlier.cells, or_assoc]
    simp only [List.mem_append, or_and_right, exists_or]
  values a v := by rw [later.values, earlier.values, or_assoc, List.mem_append]
  roots a := by rw [later.roots, earlier.roots, or_assoc, List.mem_append]

/-- The deposits alone tell what is held. -/
theorem same (one : Gathers place whole m n) (other : Gathers place whole m o) :
    n.heap = o.heap ∧ n.stackRoots = o.stackRoots := by
  have cells (a : A) : n.heap.contains a = true ↔ o.heap.contains a = true :=
    (one.cells a).trans (other.cells a).symm
  have values (a : A) (v : V) : v ∈ n.heap.valuesAt a ↔ v ∈ o.heap.valuesAt a :=
    (one.values a v).trans (other.values a v).symm
  have below : n.heap ≤ o.heap :=
    Heap.le_iff.2 ⟨fun a => (cells a).1, fun a v => (values a v).1⟩
  have above : o.heap ≤ n.heap :=
    Heap.le_iff.2 ⟨fun a => (cells a).2, fun a v => (values a v).2⟩
  exact ⟨Heap.le_antisymm below above,
    AscSet.ext fun a => (one.roots a).trans (other.roots a).symm⟩

/-- A meeting holds what either branch has gathered. -/
theorem join [AllocationPolicy P A] (left : Gathers place first m n)
    (right : Gathers place second m o)
    (parts : ∀ deposit, deposit ∈ whole ↔ deposit ∈ first ∨ deposit ∈ second) :
    Gathers place whole m (n.join o) where
  cells a := by
    change (n.heap.join o.heap).contains a = true ↔ _
    rw [Heap.contains_join, left.cells, right.cells, or_or_or_comm, or_self]
    simp only [parts, or_and_right, exists_or]
  values a v := by
    change v ∈ (n.heap.join o.heap).valuesAt a ↔ _
    rw [Heap.mem_valuesAt_join, left.values, right.values, or_or_or_comm, or_self, parts]
  roots a := by
    change a ∈ n.stackRoots ∪ o.stackRoots ↔ _
    rw [AscSet.mem_union, left.roots, right.roots, or_or_or_comm, or_self, parts]

end Gathers

/-- The options let assignments join. -/
def Joins (m : Machine P A V) : Prop :=
  m.options.storeMode = none ∨ m.options.storeMode = some .weak

end Machine

end Holdings

/-- A policy that has an address for each name of a module, and joins what is assigned. -/
structure Summarizes (P : Type) {A : Type} [AllocationPolicy P A] (place : ModuleId → Name → A) :
    Prop where
  address : ∀ (p : P) (name : Name) (module : ModuleId),
    (AllocationPolicy.allocate p name module).1 = place module name
  weak : ∀ (p : P) (a : A), AllocationPolicy.storeMode p a = .weak

theorem PerNamePolicy.summarizes : Summarizes PerNamePolicy fun _ name => ⟨name⟩ :=
  ⟨fun _ _ _ => rfl, fun _ _ => rfl⟩

theorem PerModulePolicy.summarizes : Summarizes PerModulePolicy Located.mk :=
  ⟨fun _ _ _ => rfl, fun _ _ => rfl⟩

section Runs

variable {P A V : Type} [Address A] [Value V A] [AllocationPolicy P A]
variable {place : ModuleId → Name → A} {m : Machine P A V}

theorem Machine.Joins.storeMode (joins : m.Joins) (summarizes : Summarizes P place) (a : A) :
    m.storeMode a = .weak := by
  unfold Machine.storeMode
  rcases joins with undeclared | weak
  · rw [undeclared]
    exact summarizes.weak m.policy a
  · rw [weak]
    rfl

namespace Deposit

def perform : Deposit A V → Action P A V Unit
  | .alloc module name => do let _ ← (Source.inModule module (.alloc name)).perform
  | .assign a v => do let _ ← (Step.assign a v).perform
  | .addRoot a => do let _ ← (Step.addRoot a).perform

/-- The machine after deposits made in order. -/
def run (m : Machine P A V) (deposits : List (Deposit A V)) : Machine P A V :=
  deposits.foldl (fun m deposit => (deposit.perform m).2) m

/-- A deposit that the branch at a place makes. -/
def move (i : Nat) : Deposit A V → Move P A V
  | .alloc module name => .obtain i (.inModule module (.alloc name))
  | .assign a v => .act i (.assign a v)
  | .addRoot a => .act i (.addRoot a)

theorem perform_move (pool : Pool P A V) (i : Nat) (deposit : Deposit A V) :
    (deposit.move i : Move P A V).perform pool =
      pool.modify i fun m => (deposit.perform m).2 := by
  cases deposit <;> rfl

theorem run_moves (pool : Pool P A V) (i : Nat) (deposits : List (Deposit A V)) :
    pool.run (deposits.map (·.move i)) = pool.modify i (run · deposits) := by
  induction deposits generalizing pool with
  | nil => exact (List.modify_id i pool).symm
  | cons deposit later ih =>
    change Pool.run ((deposit.move i).perform pool) (later.map (·.move i)) = _
    rw [perform_move, ih, List.modify_modify_eq]
    rfl

theorem gathers_perform (summarizes : Summarizes P place) (joins : m.Joins)
    (deposit : Deposit A V) : Gathers place [deposit] m (deposit.perform m).2 := by
  cases deposit with
  | alloc module name =>
    let handed := (AllocationPolicy.allocate m.policy name module).1
    have there : handed = place module name := summarizes.address m.policy name module
    refine ⟨fun a => ?_, fun a v => ?_, fun a => ?_⟩
    · change (m.heap.reserve handed).contains a = true ↔ _
      rw [Heap.contains_reserve, there, or_comm]
      simp only [List.mem_singleton, exists_eq_left, target?, Option.some.injEq]
      exact or_congr_right eq_comm
    · change v ∈ (m.heap.reserve handed).valuesAt a ↔ _
      rw [Heap.valuesAt_reserve]
      simp
    · change a ∈ m.stackRoots ↔ _
      simp
  | assign b w =>
    refine ⟨fun a => ?_, fun a v => ?_, fun a => ?_⟩
    · change (m.heap.assign b w (m.storeMode b)).contains a = true ↔ _
      rw [Heap.contains_assign, or_comm]
      simp only [List.mem_singleton, exists_eq_left, target?, Option.some.injEq]
      exact or_congr_right eq_comm
    · change v ∈ (m.heap.assign b w (m.storeMode b)).valuesAt a ↔ _
      rw [joins.storeMode summarizes, Heap.mem_valuesAt_assign, or_comm]
      simp [eq_comm]
    · change a ∈ m.stackRoots ↔ _
      simp
  | addRoot b =>
    refine ⟨fun a => ?_, fun a v => ?_, fun a => ?_⟩
    · change m.heap.contains a = true ↔ _
      simp [target?]
    · change v ∈ m.heap.valuesAt a ↔ _
      simp
    · change a ∈ m.stackRoots.insert b ↔ _
      rw [AscSet.mem_insert, or_comm]
      simp

theorem gathers_run (summarizes : Summarizes P place) (joins : m.Joins)
    (deposits : List (Deposit A V)) : Gathers place deposits m (run m deposits) := by
  induction deposits generalizing m with
  | nil => exact .nothing m
  | cons deposit later ih =>
    have after : (deposit.perform m).2.Joins := by
      cases deposit <;> exact joins
    exact (gathers_perform summarizes joins deposit).trans (ih after)

end Deposit

/-- Fork a machine twice and let each branch make deposits of its own. Whichever branch is merged
into the other, its heap and its roots are those of one machine that has made all of the deposits,
interleaved in any way. -/
def Confluent (P : Type) {A : Type} (V : Type) [Address A] [Value V A] [AllocationPolicy P A] :
    Prop :=
  ∀ m : Machine P A V, m.options.storeMode = none ∨ m.options.storeMode = some .weak →
    ∀ first second whole : List (Deposit A V), Interleaving first second whole →
      let left := Deposit.run m first
      let right := Deposit.run m second
      let single := Deposit.run m whole
      Pool.run [m] ([.fork 0, .fork 0] ++ first.map (·.move 1) ++ second.map (·.move 2)) =
          [m, left, right] ∧
        (left.join right).heap = single.heap ∧
        (left.join right).stackRoots = single.stackRoots ∧
        (right.join left).heap = single.heap ∧
        (right.join left).stackRoots = single.stackRoots

theorem Pool.run_append (pool : Pool P A V) (moves later : List (Move P A V)) :
    pool.run (moves ++ later) = (pool.run moves).run later := List.foldl_append

theorem confluent (summarizes : Summarizes P place) : Confluent P V := by
  intro m joins first second whole interleaving left right single
  have forked : Pool.run [m] [.fork 0, .fork 0] = [m, m, m] := rfl
  have atLeft : Gathers place first m left := Deposit.gathers_run summarizes joins first
  have atRight : Gathers place second m right := Deposit.gathers_run summarizes joins second
  have together : Gathers place whole m single := Deposit.gathers_run summarizes joins whole
  have parts (deposit : Deposit A V) : deposit ∈ whole ↔ deposit ∈ first ∨ deposit ∈ second :=
    interleaving.mem_iff
  have met := (atLeft.join atRight parts).same together
  have metAgain := (atRight.join atLeft fun deposit => (parts deposit).trans or_comm).same together
  refine ⟨?_, met.1, met.2, metAgain.1, metAgain.2⟩
  rw [Pool.run_append, Pool.run_append, forked, Deposit.run_moves, Deposit.run_moves]
  rfl

/-- Branches that allocate, assign and add roots meet in the same heap and the same roots, in
whatever order they have done so, where each name has an address and where each name of a module
has one, and assignments join. -/
theorem branches_confluent :
    (∀ (V : Type) [Value V Monovariant], Confluent PerNamePolicy V) ∧
    ∀ (V : Type) [Value V Located], Confluent PerModulePolicy V :=
  ⟨fun _ _ => confluent PerNamePolicy.summarizes, fun _ _ => confluent PerModulePolicy.summarizes⟩

/-- A branch reserves a name that the other fills. -/
def reserving : List (Deposit Located (Object Located)) :=
  [.alloc ⟨"a"⟩ (.user "x"), .addRoot ⟨⟨"a"⟩, .user "x"⟩]

def filling : List (Deposit Located (Object Located)) :=
  [.alloc ⟨"b"⟩ (.user "x"), .assign ⟨⟨"a"⟩, .user "x"⟩ (.reference ⟨⟨"b"⟩, .user "x"⟩)]

theorem branches_confluent_reservingAndFilling :
    let m : Machine PerModulePolicy Located (Object Located) := fresh {} {}
    let whole := [filling[0], reserving[0], filling[1], reserving[1]]
    (m.options.storeMode = none ∨ m.options.storeMode = some .weak) ∧
    Interleaving reserving filling whole ∧
    ((Deposit.run m reserving).join (Deposit.run m filling)).heap = (Deposit.run m whole).heap ∧
    ((Deposit.run m filling).join (Deposit.run m reserving)).heap =
      ((Deposit.run m reserving).join (Deposit.run m filling)).heap := by
  intro m whole
  have interleaving : Interleaving reserving filling whole :=
    .right (.left (.right (.left .nil)))
  obtain ⟨-, met, -, metAgain, -⟩ :=
    branches_confluent.2 (Object Located) m (.inl rfl) _ _ _ interleaving
  exact ⟨.inl rfl, interleaving, met, metAgain.trans met.symm⟩

end Runs

end AbstractStore
