import AbstractStore.Proofs.Programs
import AbstractStore.Proofs.Steps

/-! Draws from the counters of a machine.
Addresses and generated names come from counters that only go on. What an operation draws is told
beforehand (`Op.draw?`); it does just that (`Op.outcome_of_draw`), or leaves the counters and makes
no cell but where it assigns (`Op.idles_of_no_draw`). Whatever a policy and a supply have handed out
they are past, after a draw and after a meeting of branches (`AccountablePolicy`). -/

namespace AbstractStore

open Machine

section Counters

variable {counter other index : UInt64}

/-- A counter has gone past an index. -/
def Passed (counter index : UInt64) : Prop := index.toNat < counter.toNat

/-- A counter can go on without starting over. -/
def HasRoom (counter : UInt64) : Prop := counter.toNat + 1 < UInt64.size

instance : Decidable (HasRoom counter) := inferInstanceAs (Decidable (_ < _))

theorem not_passed_self (counter : UInt64) : ¬ Passed counter counter := Nat.lt_irrefl _

theorem HasRoom.toNat_succ (room : HasRoom counter) : (counter + 1).toNat = counter.toNat + 1 := by
  rw [UInt64.toNat_add, UInt64.toNat_one]
  exact Nat.mod_eq_of_lt room

theorem passed_succ_self (room : HasRoom counter) : Passed (counter + 1) counter := by
  unfold Passed
  rw [room.toNat_succ]
  omega

theorem Passed.succ (passed : Passed counter index) (room : HasRoom counter) :
    Passed (counter + 1) index := by
  unfold Passed at *
  rw [room.toNat_succ]
  omega

theorem toNat_le_max_left (counter other : UInt64) : counter.toNat ≤ (max counter other).toNat := by
  change _ ≤ (if counter ≤ other then other else counter).toNat
  split
  next below => exact below
  next => exact Nat.le_refl _

theorem toNat_le_max_right (counter other : UInt64) : other.toNat ≤ (max counter other).toNat := by
  change _ ≤ (if counter ≤ other then other else counter).toNat
  split
  next => exact Nat.le_refl _
  next above => exact Nat.le_of_not_le above

theorem Passed.max_left (passed : Passed counter index) (other : UInt64) :
    Passed (max counter other) index :=
  Nat.lt_of_lt_of_le passed (toNat_le_max_left counter other)

theorem Passed.max_right (passed : Passed other index) (counter : UInt64) :
    Passed (max counter other) index :=
  Nat.lt_of_lt_of_le passed (toNat_le_max_right counter other)

end Counters

namespace NameSupply

variable {supply more : NameSupply} {name : Name}

/-- A name may be in use, as far as a supply knows: a user's, or one that the supply is past. -/
def Used (supply : NameSupply) : Name → Prop
  | .user _ => True
  | .gensym index => Passed supply.next index

theorem not_used_fresh (supply : NameSupply) : ¬ supply.Used supply.fresh.1 :=
  not_passed_self supply.next

theorem used_fresh (room : HasRoom supply.next) : supply.fresh.2.Used supply.fresh.1 :=
  passed_succ_self room

theorem Used.fresh (used : supply.Used name) (room : HasRoom supply.next) :
    supply.fresh.2.Used name := by
  cases name with
  | user text => trivial
  | gensym index => exact Passed.succ used room

theorem Used.join_left (used : supply.Used name) (more : NameSupply) :
    (supply.join more).Used name := by
  cases name with
  | user text => trivial
  | gensym index => exact Passed.max_left used more.next

theorem Used.join_right (used : more.Used name) (supply : NameSupply) :
    (supply.join more).Used name := by
  cases name with
  | user text => trivial
  | gensym index => exact Passed.max_right used supply.next

end NameSupply

/-- A policy of which it can be told, by its counter and by the supply of names, which addresses may
have been handed out. -/
class AccountablePolicy (P : Type) {A : outParam Type} [AllocationPolicy P A] where
  /-- The next index, where addresses are told apart by one. -/
  counter? : P → Option UInt64
  Issued : P → NameSupply → A → Prop
  /-- What a new name is given has not been handed out. -/
  not_issued_fresh : ∀ (p : P) (names : NameSupply) (module : ModuleId),
    ¬ Issued p names (AllocationPolicy.allocate p names.fresh.1 module).1
  /-- Where there is no index, an address is known by the name that it was asked for by. -/
  issued_allocate : ∀ {p : P} {names : NameSupply} {name : Name} (module : ModuleId),
    (∀ c ∈ counter? p, HasRoom c) → (counter? p = none → names.Used name) →
      Issued (AllocationPolicy.allocate p name module).2 names
        (AllocationPolicy.allocate p name module).1
  issued_of_allocate : ∀ {p : P} {names : NameSupply} {a : A} (name : Name) (module : ModuleId),
    (∀ c ∈ counter? p, HasRoom c) → Issued p names a →
      Issued (AllocationPolicy.allocate p name module).2 names a
  issued_of_fresh : ∀ {p : P} {names : NameSupply} {a : A}, HasRoom names.next →
    Issued p names a → Issued p names.fresh.2 a
  issued_join_left : ∀ {p : P} {names : NameSupply} {a : A} (q : P) (more : NameSupply),
    Issued p names a → Issued (AllocationPolicy.join p q) (names.join more) a
  issued_join_right : ∀ {q : P} {more : NameSupply} {a : A} (p : P) (names : NameSupply),
    Issued q more a → Issued (AllocationPolicy.join p q) (names.join more) a

instance : AccountablePolicy FreshPolicy where
  counter? p := some p.next
  Issued p _ a := Passed p.next a.index
  not_issued_fresh p _ _ := not_passed_self p.next
  issued_allocate _ room _ := passed_succ_self (room _ rfl)
  issued_of_allocate _ _ room issued := issued.succ (room _ rfl)
  issued_of_fresh _ issued := issued
  issued_join_left q _ issued := issued.max_left q.next
  issued_join_right p _ issued := issued.max_right p.next

/-- Addresses that bear the name that they were asked for by have been handed out if it is in use. -/
abbrev AccountablePolicy.byName {P A : Type} [AllocationPolicy P A] (nameOf : A → Name)
    (bears : ∀ (p : P) (name : Name) (module : ModuleId),
      nameOf (AllocationPolicy.allocate p name module).1 = name) : AccountablePolicy P where
  counter? _ := none
  Issued _ names a := names.Used (nameOf a)
  not_issued_fresh p names module := bears p _ module ▸ names.not_used_fresh
  issued_allocate module _ used := (bears _ _ module).symm ▸ used rfl
  issued_of_allocate _ _ _ issued := issued
  issued_of_fresh room issued := issued.fresh room
  issued_join_left _ more issued := issued.join_left more
  issued_join_right _ names issued := issued.join_right names

instance : AccountablePolicy PerNamePolicy := .byName Monovariant.name fun _ _ _ => rfl

instance : AccountablePolicy PerModulePolicy := .byName Located.name fun _ _ _ => rfl

/-- What an operation draws from the counters of a machine. -/
inductive Draw (V : Type) where
  | newName
  | address (name : Name)
  /-- A new name and an address for it, where a value is stored. -/
  | box (v : V)

section Operations

variable {P A V : Type} [Address A] [Value V A]

namespace Op

/-- A name that is bound already draws nothing, and a free variable draws a box if it is recovered. -/
def draw? {β : Type} (m : Machine P A V) : Op P A V β → Option (Draw V)
  | .gensym => some .newName
  | .alloc name => some (.address name)
  | .box v => some (.box v)
  | .lookupOrAlloc name => if (m.lookup name).isSome then none else some (.address name)
  | .freeVariable name => (m.recovery.answerVariable ⟨name, m.module, m.span⟩).map .box
  | .resolve name =>
      if (m.lookup name).isSome then none
      else (m.recovery.answerVariable ⟨name, m.module, m.span⟩).map .box
  | _ => none

/-- The address that an operation hands out with its answer. That of a bound name is none. -/
def handed? {β : Type} (m : Machine P A V) : Op P A V β → Except (Error A) β → Option A
  | .alloc _, answer | .box _, answer | .freeVariable _, answer => answer.toOption
  | .lookupOrAlloc name, answer | .resolve name, answer =>
      if (m.lookup name).isSome then none else answer.toOption
  | _, _ => none

/-- The address that an operation assigns to. -/
def target? {β : Type} : Op P A V β → Option A
  | .assign a _ => some a
  | _ => none

end Op

variable [AllocationPolicy P A] {m : Machine P A V}

/-- A free variable that is recovered is a box, the trace and the journal apart. -/
theorem Machine.freeVariable_eq_box {name : Name} {v : V}
    (answered : m.recovery.answerVariable ⟨name, m.module, m.span⟩ = some v) :
    ∃ trace journal, outcome (freeVariable name) m =
      (.ok (box v m).1, { (box v m).2 with trace, journal }) := by
  simp only [outcome_freeVariable, answered]
  exact ⟨_, _, rfl⟩

namespace Draw

/-- The machine after a draw. -/
def perform (m : Machine P A V) : Draw V → Machine P A V
  | .newName => (gensym m).2
  | .address name => (alloc name m).2
  | .box v => (Machine.box v m).2

/-- The address that is handed out. -/
def address? (m : Machine P A V) : Draw V → Option A
  | .newName => none
  | .address name => some (alloc name m).1
  | .box v => some (Machine.box v m).1

/-- The name that is generated. -/
def name? (m : Machine P A V) : Draw V → Option Name
  | .newName | .box _ => some (gensym m).1
  | .address _ => none

theorem contains_perform {d : Draw V} {a : A} (there : (d.perform m).heap.contains a = true) :
    d.address? m = some a ∨ m.heap.contains a = true := by
  cases d with
  | newName => exact .inr there
  | address name =>
    exact (Heap.contains_reserve.1 there).imp_left fun same => congrArg some same.symm
  | box v =>
    rcases Heap.contains_assign.1 there with same | reserved
    · exact .inl (congrArg some same.symm)
    · exact (Heap.contains_reserve.1 reserved).imp_left fun same => congrArg some same.symm

variable [AccountablePolicy P] {d : Draw V} {a : A} {name : Name}

/-- The counters that a draw moves can go on. -/
def Fits (m : Machine P A V) : Draw V → Prop
  | .newName => HasRoom m.names.next
  | .address _ => ∀ c ∈ AccountablePolicy.counter? m.policy, HasRoom c
  | .box _ => HasRoom m.names.next ∧ ∀ c ∈ AccountablePolicy.counter? m.policy, HasRoom c

instance (m : Machine P A V) : (d : Draw V) → Decidable (d.Fits m)
  | .newName => inferInstanceAs (Decidable (HasRoom _))
  | .address _ => Option.decidableForallMem _
  | .box _ => @instDecidableAnd _ _ inferInstance (Option.decidableForallMem _)

/-- What is asked for an address is in use, or does not matter. -/
def Known (m : Machine P A V) : Draw V → Prop
  | .address name => AccountablePolicy.counter? m.policy = none → m.names.Used name
  | _ => True

/-- Where addresses are told apart by an index it does not matter what they are asked for by. -/
theorem known {V : Type} [Value V Precise] {m : Machine FreshPolicy Precise V} (d : Draw V) :
    d.Known m := by
  cases d with
  | address name => exact fun uncounted => absurd uncounted (Option.some_ne_none _)
  | newName | box => trivial

theorem used_perform (fits : d.Fits m) (used : m.names.Used name) :
    (d.perform m).names.Used name := by
  cases d with
  | newName => exact used.fresh fits
  | address other => exact used
  | box v => exact used.fresh fits.1

theorem issued_perform (fits : d.Fits m) (issued : AccountablePolicy.Issued m.policy m.names a) :
    AccountablePolicy.Issued (d.perform m).policy (d.perform m).names a := by
  cases d with
  | newName => exact AccountablePolicy.issued_of_fresh fits issued
  | address name => exact AccountablePolicy.issued_of_allocate name m.module fits issued
  | box v =>
    exact AccountablePolicy.issued_of_allocate _ m.module fits.2
      (AccountablePolicy.issued_of_fresh fits.1 issued)

theorem used_of_name? (fits : d.Fits m) (generated : d.name? m = some name) :
    (d.perform m).names.Used name := by
  cases d with
  | newName =>
    cases generated
    exact NameSupply.used_fresh fits
  | address other => cases generated
  | box v =>
    cases generated
    exact NameSupply.used_fresh fits.1

theorem issued_of_address? (fits : d.Fits m) (known : d.Known m) (handed : d.address? m = some a) :
    AccountablePolicy.Issued (d.perform m).policy (d.perform m).names a := by
  cases d with
  | newName => cases handed
  | address name =>
    cases handed
    exact AccountablePolicy.issued_allocate m.module fits known
  | box v =>
    cases handed
    exact AccountablePolicy.issued_allocate m.module fits.2 fun _ => NameSupply.used_fresh fits.1

end Draw

namespace Op

variable {β : Type} {op : Op P A V β}

theorem freeVariable_of_draw {name : Name} {d : Draw V}
    (drawn : (m.recovery.answerVariable ⟨name, m.module, m.span⟩).map .box = some d) :
    ∃ trace journal,
      (outcome (Machine.freeVariable name) m).2 = { d.perform m with trace, journal } := by
  obtain ⟨v, answered, rfl⟩ := Option.map_eq_some_iff.1 drawn
  obtain ⟨trace, journal, same⟩ := freeVariable_eq_box answered
  exact ⟨trace, journal, congrArg Prod.snd same⟩

theorem freeVariable_of_no_draw {name : Name}
    (idle : (m.recovery.answerVariable ⟨name, m.module, m.span⟩).map Draw.box = none) :
    (outcome (Machine.freeVariable name) m).2 = m := by
  simp only [outcome_freeVariable, Option.map_eq_none_iff.1 idle]

/-- An operation that draws does just that, the trace and the journal apart. -/
theorem outcome_of_draw {d : Draw V} (drawn : op.draw? m = some d) : ∃ trace journal,
    (outcome op.perform m).2 = { d.perform m with trace, journal } := by
  cases op with
  | gensym | alloc | box =>
    cases drawn
    exact ⟨_, _, rfl⟩
  | lookupOrAlloc name =>
    change ∃ trace journal, (Machine.lookupOrAlloc name m).2 = { d.perform m with trace, journal }
    simp only [draw?] at drawn
    unfold Machine.lookupOrAlloc
    cases found : m.lookup name with
    | some a => simp [found] at drawn
    | none =>
      simp only [found, Option.isSome_none, Bool.false_eq_true, if_false] at drawn
      cases drawn
      exact ⟨_, _, rfl⟩
  | freeVariable name => exact freeVariable_of_draw drawn
  | resolve name =>
    change ∃ trace journal, (outcome (Machine.resolve name) m).2 = _
    simp only [draw?] at drawn
    rw [outcome_resolve]
    cases found : m.lookup name with
    | some a => simp [found] at drawn
    | none =>
      simp only [found, Option.isSome_none, Bool.false_eq_true, if_false] at drawn
      exact freeVariable_of_draw drawn
  | _ => cases drawn

/-- What is handed out is what is drawn. -/
theorem handed?_outcome : op.handed? m (outcome op.perform m).1 =
    (op.draw? m).bind (·.address? m) := by
  have recovered (name : Name) : (outcome (Machine.freeVariable name) m).1.toOption =
      ((m.recovery.answerVariable ⟨name, m.module, m.span⟩).map Draw.box).bind (·.address? m) := by
    cases answered : m.recovery.answerVariable ⟨name, m.module, m.span⟩ with
    | none =>
      simp only [outcome_freeVariable, answered]
      rfl
    | some v =>
      obtain ⟨trace, journal, same⟩ := freeVariable_eq_box answered
      rw [same]
      rfl
  cases op with
  | lookupOrAlloc name =>
    change (if (m.lookup name).isSome then none else some (Machine.lookupOrAlloc name m).1) = _
    rw [Machine.lookupOrAlloc, draw?]
    cases m.lookup name <;> rfl
  | freeVariable name => exact recovered name
  | resolve name =>
    change (if (m.lookup name).isSome then none
      else (outcome (Machine.resolve name) m).1.toOption) = _
    rw [outcome_resolve, draw?]
    cases m.lookup name with
    | none => exact recovered name
    | some a => rfl
  | _ => rfl

/-- What is left of a machine by an operation that draws nothing: its counters are as they were, and
the only new cell is where the operation assigns. -/
structure Idles (op : Op P A V β) (m : Machine P A V) : Prop where
  policy : (outcome op.perform m).2.policy = m.policy
  names : (outcome op.perform m).2.names = m.names
  cells : ∀ a, (outcome op.perform m).2.heap.contains a = true →
    op.target? = some a ∨ m.heap.contains a = true

theorem Idles.of_eq {after : Machine P A V} (eq : (outcome op.perform m).2 = after)
    (policy : after.policy = m.policy) (names : after.names = m.names)
    (heap : after.heap = m.heap) : op.Idles m := by
  subst eq
  exact ⟨policy, names, fun a there => .inr (heap ▸ there)⟩

theorem idles_of_no_draw (idle : op.draw? m = none) : op.Idles m := by
  cases op with
  | gensym | alloc | box => cases idle
  | lookupOrAlloc name =>
    have same : (Machine.lookupOrAlloc name m).2 = m := by
      simp only [draw?] at idle
      unfold Machine.lookupOrAlloc
      cases found : m.lookup name with
      | some a => rfl
      | none => simp [found] at idle
    exact .of_eq same rfl rfl rfl
  | freeVariable name => exact .of_eq (freeVariable_of_no_draw idle) rfl rfl rfl
  | resolve name =>
    have same : (outcome (Machine.resolve name) m).2 = m := by
      simp only [draw?] at idle
      rw [outcome_resolve]
      cases found : m.lookup name with
      | some a => rfl
      | none =>
        simp only [found, Option.isSome_none, Bool.false_eq_true, if_false] at idle
        exact freeVariable_of_no_draw idle
    exact .of_eq same rfl rfl rfl
  | deref a =>
    obtain ⟨trace, journal, same⟩ := deref_eq a m
    exact .of_eq (congrArg Prod.snd same) rfl rfl rfl
  | popScope =>
    have left := outcome_popScope m
    cases found : m.environment.pop? with
    | none =>
      simp only [found] at left
      exact .of_eq (congrArg Prod.snd left) rfl rfl rfl
    | some popped =>
      simp only [found] at left
      exact .of_eq (congrArg Prod.snd left) rfl rfl rfl
  | assign a v =>
    exact ⟨rfl, rfl, fun b there =>
      (Heap.contains_assign.1 there).imp_left fun same => congrArg some same.symm⟩
  | gc | collect => exact ⟨rfl, rfl, fun b there => .inr (Heap.contains_collect.1 there).2⟩
  | lookup | bind | pushScope | addRoot | removeRoot | setModule | setSpan | setRecovery | rebind
  | inspect => exact ⟨rfl, rfl, fun _ there => .inr there⟩

end Op

end Operations

end AbstractStore
