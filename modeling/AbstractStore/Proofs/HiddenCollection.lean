import AbstractStore.Object
import AbstractStore.Proofs.LiveRoots

/-! Collections that no client sees.
A run that collects at some points shadows the run that never collects: the machines differ at most
in cells outside a set that holds all that is alive (`Shadows`), and addresses handed out later are
outside the cells of both (`Issued`). A client that names only live addresses stays inside the set,
so it gets the same answers. -/

namespace AbstractStore

open Machine

def Step.collects {A V : Type} [Ord A] : Step A V → Bool
  | .collect => true
  | _ => false

section Shadow

variable {P A V : Type} [Address A] [Value V A] {S : A → Prop} {p q : Machine P A V}

/-- All that is alive in `p` lies in `S`, and `q` differs from `p` at most in cells elsewhere. -/
structure Shadows (S : A → Prop) (p q : Machine P A V) : Prop where
  control : ∃ heap trace journal, q = { p with heap, trace, journal }
  rooted : ∀ a ∈ p.liveRoots, S a
  closed : ∀ a b, S a → p.heap.Leads a b → S b
  agree : ∀ a, S a → q.heap.lookup a = p.heap.lookup a

namespace Shadows

theorem of_mem_reachable (shadows : Shadows S p q) :
    ∀ a ∈ p.heap.reachable p.liveRoots, S a :=
  Heap.forall_reachable shadows.rooted shadows.closed

theorem narrow (shadows : Shadows S p q) : Shadows (· ∈ p.heap.reachable p.liveRoots) p q where
  control := shadows.control
  rooted _ live := Heap.mem_reachable_of_mem_roots live
  closed _ _ reached next := Heap.mem_reachable_of_leads reached next
  agree a reached := shadows.agree a (shadows.of_mem_reachable a reached)

theorem liveRoots (shadows : Shadows S p q) : q.liveRoots = p.liveRoots := by
  obtain ⟨heap, trace, journal, rfl⟩ := shadows.control
  rfl

theorem sameControl (shadows : Shadows S p q) :
    q.environment = p.environment ∧ q.stackRoots = p.stackRoots ∧ q.policy = p.policy ∧
      q.names = p.names := by
  obtain ⟨heap, trace, journal, rfl⟩ := shadows.control
  exact ⟨rfl, rfl, rfl, rfl⟩

theorem reachable (shadows : Shadows S p q) :
    q.heap.reachable p.liveRoots = p.heap.reachable p.liveRoots :=
  Heap.reachable_congr shadows.narrow.agree

theorem answer_eq {step : Step A V} (shadows : Shadows S p q)
    (inside : ∀ a ∈ step.operands, S a) : step.answer q = step.answer p := by
  obtain ⟨heap, trace, journal, rfl⟩ := shadows.control
  cases step with
  | deref a =>
    have there : heap.lookup a = p.heap.lookup a :=
      shadows.agree a (inside a (List.mem_singleton_self a))
    simp only [Step.answer, reading, there]
    rfl
  | assign | lookup | bind | remove | overwrite | pushScope | popScope | addRoot | removeRoot
  | gc | collect => rfl

variable [AllocationPolicy P A]

theorem collect (shadows : Shadows S p q) :
    Shadows (· ∈ p.heap.reachable p.liveRoots) p (Step.collect.perform q).2 := by
  obtain ⟨trace, journal, same⟩ := Step.collect.perform_eq q
  refine { shadows.narrow with control := ?_, agree := fun a reached => ?_ }
  · obtain ⟨heap, oldTrace, oldJournal, rfl⟩ := shadows.control
    exact ⟨_, _, _, congrArg Prod.snd same⟩
  · rw [same]
    change (q.heap.collect q.liveRoots).lookup a = p.heap.lookup a
    rw [Heap.lookup_collect, shadows.liveRoots, shadows.reachable, if_pos reached]
    exact shadows.narrow.agree a reached

theorem closed_heap {step : Step A V} (shadows : Shadows S p q) {b c : A}
    (inside : ∀ a ∈ step.operands, S a) (shared : S b) (next : (step.heap p).Leads b c) : S c := by
  cases step with
  | assign a v =>
    rcases Heap.leads_assign next with ⟨-, embedded⟩ | old
    · exact inside c (List.mem_cons_of_mem _ (AscSet.mem_ofList.1 embedded))
    · exact shadows.closed b c shared old
  | gc | collect => exact shadows.closed b c shared (Heap.leads_of_leads_collect next)
  | deref | lookup | bind | remove | overwrite | pushScope | popScope | addRoot | removeRoot =>
    exact shadows.closed b c shared next

theorem agree_heap {step : Step A V} (shadows : Shadows S p q) {b : A}
    (plain : step.collects = false) (inside : ∀ a ∈ step.operands, S a) (shared : S b) :
    (step.heap q).lookup b = (step.heap p).lookup b := by
  cases step with
  | assign a v =>
    have mode : q.storeMode a = p.storeMode a := by
      obtain ⟨heap, trace, journal, rfl⟩ := shadows.control
      rfl
    have there := shadows.agree a (inside a (List.mem_cons_self ..))
    simp only [Step.heap, Heap.lookup_assign, Heap.valuesAt, mode, there, shadows.agree b shared]
  | gc roots =>
    have reached : q.heap.reachable roots = p.heap.reachable roots :=
      Heap.reachable_congr fun a reachedA =>
        shadows.agree a (Heap.forall_reachable inside shadows.closed a reachedA)
    simp only [Step.heap, Heap.lookup_collect, reached, shadows.agree b shared]
  | collect => cases plain
  | deref | lookup | bind | remove | overwrite | pushScope | popScope | addRoot | removeRoot =>
    exact shadows.agree b shared

theorem step {step : Step A V} (shadows : Shadows S p q) (plain : step.collects = false)
    (inside : ∀ a ∈ step.operands, S a) :
    (step.perform q).1 = (step.perform p).1 ∧ Shadows S (step.perform p).2 (step.perform q).2 := by
  have answers := shadows.answer_eq inside
  have agree (b : A) (shared : S b) := shadows.agree_heap plain inside shared
  have rooted (b : A) (live : b ∈ (step.perform p).2.liveRoots) : S b := by
    rcases Step.mem_liveRoots live with new | old
    · exact inside b (Step.mem_operands_of_mem_introduced new)
    · exact shadows.rooted b old
  obtain ⟨trace, journal, stepP⟩ := step.perform_eq p
  obtain ⟨traceQ, journalQ, stepQ⟩ := step.perform_eq q
  rw [stepP] at rooted
  rw [stepP, stepQ]
  refine ⟨answers, ?_, rooted, fun b c shared next => shadows.closed_heap inside shared next, agree⟩
  obtain ⟨heap, oldTrace, oldJournal, rfl⟩ := shadows.control
  exact ⟨_, _, _, rfl⟩

end Shadows

end Shadow

section Issue

variable {V : Type} [Value V Precise] {S : Precise → Prop} {n : Nat}
variable {p q : Machine FreshPolicy Precise V}

/-- The first `n` addresses have been handed out, and all that is shared or has a cell on either
side is among them. -/
structure Issued (n : Nat) (S : Precise → Prop) (p q : Machine FreshPolicy Precise V) : Prop where
  next : p.policy = ⟨UInt64.ofNat n⟩
  shared : ∀ a, S a → a.index.toNat < n
  cells : ∀ a, p.heap.contains a = true ∨ q.heap.contains a = true → a.index.toNat < n

namespace Issued

theorem narrow {T : Precise → Prop} (issued : Issued n S p q) (within : ∀ a, T a → S a) :
    Issued n T p q := { issued with shared := fun a shared => issued.shared a (within a shared) }

theorem contains_heap {step : Step Precise V} {m : Machine FreshPolicy Precise V} {a : Precise}
    (there : (step.heap m).contains a = true) : a ∈ step.operands ∨ m.heap.contains a = true := by
  cases step with
  | assign b v =>
    exact (Heap.contains_assign.1 there).imp_left fun same => List.mem_cons.2 (.inl same)
  | gc | collect => exact .inr (Heap.contains_collect.1 there).2
  | deref | lookup | bind | remove | overwrite | pushScope | popScope | addRoot | removeRoot =>
    exact .inr there

theorem collect (issued : Issued n S p q) : Issued n S p (Step.collect.perform q).2 where
  next := issued.next
  shared := issued.shared
  cells a there := by
    obtain ⟨trace, journal, same⟩ := Step.collect.perform_eq q
    rw [same] at there
    exact issued.cells a (there.imp_right fun kept => (Heap.contains_collect.1 kept).2)

theorem step {step : Step Precise V} (issued : Issued n S p q)
    (inside : ∀ a ∈ step.operands, S a) :
    Issued n S (step.perform p).2 (step.perform q).2 := by
  obtain ⟨trace, journal, stepP⟩ := step.perform_eq p
  obtain ⟨traceQ, journalQ, stepQ⟩ := step.perform_eq q
  rw [stepP, stepQ]
  refine ⟨issued.next, issued.shared, fun a there => ?_⟩
  rcases there with there | there
  · rcases contains_heap there with operand | old
    · exact issued.shared a (inside a operand)
    · exact issued.cells a (.inl old)
  · rcases contains_heap there with operand | old
    · exact issued.shared a (inside a operand)
    · exact issued.cells a (.inr old)

/-- What is handed out next has no cell on either side. -/
theorem missing (issued : Issued n S p q) (few : n < UInt64.size) :
    p.policy.next.toNat = n ∧ p.heap.lookup ⟨p.policy.next⟩ = none ∧
      q.heap.lookup ⟨p.policy.next⟩ = none := by
  have counter : p.policy.next.toNat = n := by
    rw [issued.next]
    exact UInt64.toNat_ofNat_of_lt' few
  have absurdCell (there : p.heap.contains ⟨p.policy.next⟩ = true ∨
      q.heap.contains ⟨p.policy.next⟩ = true) : False := by
    have old : p.policy.next.toNat < n := issued.cells _ there
    omega
  refine ⟨counter, ?_, ?_⟩
  · exact Option.eq_none_iff_forall_ne_some.2 fun c found =>
      absurdCell (.inl (Heap.contains_iff.2 ⟨c, found⟩))
  · exact Option.eq_none_iff_forall_ne_some.2 fun c found =>
      absurdCell (.inr (Heap.contains_iff.2 ⟨c, found⟩))

end Issued

/-- An address that is handed out is the same on both sides, and what is stored at it too. -/
theorem Shadows.obtain {source : Source V} (shadows : Shadows S p q) (issued : Issued n S p q)
    (few : n < UInt64.size) (inside : ∀ a ∈ source.operands, S a) :
    (source.perform q).1 = (source.perform p).1 ∧
      Shadows (fun b => b = (source.perform p).1 ∨ S b) (source.perform p).2
        (source.perform q).2 := by
  obtain ⟨-, missingP, missingQ⟩ := issued.missing few
  obtain ⟨k, oldTrace, oldJournal, rfl⟩ := shadows.control
  obtain ⟨trace, journal, sourceP⟩ := source.perform_fresh p
  obtain ⟨traceQ, journalQ, sourceQ⟩ :=
    source.perform_fresh { p with heap := k, trace := oldTrace, journal := oldJournal }
  have agree (b : Precise) (shared : b = ⟨p.policy.next⟩ ∨ S b) :
      (k.reserve ⟨p.policy.next⟩).lookup b = (p.heap.reserve ⟨p.policy.next⟩).lookup b := by
    simp only [Heap.lookup_reserve, Heap.valuesAt, missingP, missingQ]
    rcases shared with rfl | shared
    · simp
    · have same : k.lookup b = p.heap.lookup b := shadows.agree b shared
      rw [same]
  rw [sourceP, sourceQ]
  refine ⟨rfl, ⟨_, _, _, rfl⟩, fun b live => .inr (shadows.rooted b live),
    fun b c shared next => ?_, fun b shared => ?_⟩
  · rcases source.leads_fill next with ⟨-, operand⟩ | reserved
    · exact .inr (inside c operand)
    · have old := Heap.leads_reserve.1 reserved
      rcases shared with rfl | shared
      · exact absurd old (Heap.not_leads_of_lookup_eq_none missingP)
      · exact .inr (shadows.closed b c shared old)
  · exact source.lookup_fill_congr (agree _ (.inl rfl)) (agree b shared)

theorem Issued.obtain (issued : Issued n S p q) (source : Source V) (shadows : Shadows S p q)
    (few : n < UInt64.size) : Issued (n + 1) (fun b => b = (source.perform p).1 ∨ S b)
      (source.perform p).2 (source.perform q).2 := by
  obtain ⟨counter, -, -⟩ := issued.missing few
  obtain ⟨k, oldTrace, oldJournal, rfl⟩ := shadows.control
  obtain ⟨trace, journal, sourceP⟩ := source.perform_fresh p
  obtain ⟨traceQ, journalQ, sourceQ⟩ :=
    source.perform_fresh { p with heap := k, trace := oldTrace, journal := oldJournal }
  rw [sourceP, sourceQ]
  refine ⟨?_, fun b shared => ?_, fun b there => ?_⟩
  · rw [issued.next]
    exact congrArg FreshPolicy.mk (UInt64.ofNat_add n 1).symm
  · rcases shared with rfl | shared
    · change p.policy.next.toNat < n + 1
      omega
    · have old := issued.shared b shared
      omega
  · have old : b = ⟨p.policy.next⟩ ∨ p.heap.contains b = true ∨ k.contains b = true := by
      rcases there with there | there
      · rcases source.contains_fill there with same | kept
        · exact .inl same
        · exact (Heap.contains_reserve.1 kept).imp_right .inl
      · rcases source.contains_fill there with same | kept
        · exact .inl same
        · exact (Heap.contains_reserve.1 kept).imp_right .inr
    rcases old with rfl | old
    · change p.policy.next.toNat < n + 1
      omega
    · have below := issued.cells b old
      omega

end Issue

/-- How a client holds on to an address that it was handed. -/
inductive Place where
  | binding (name : Name)
  | root

def Place.step {A V : Type} [Ord A] (a : A) : Place → Step A V
  | .binding name => .bind name a
  | .root => .addRoot a

/-- A turn of a client: a step, or the way by which it comes by an address that it holds on to at
once. -/
inductive Turn (A V : Type) [Ord A] where
  | act (step : Step A V)
  | keep (source : Source V) (place : Place)

namespace Turn

section Policy

variable {P A V : Type} [Address A] [AllocationPolicy P A] [Value V A]

def perform : Turn A V → Action P A V (Answer A V)
  | .act step => step.perform
  | .keep source place => do
      let a ← source.perform
      let _ ← (place.step a).perform
      return .address (some a)

/-- What a client is answered, turn by turn, and the machine after the turns. -/
def run : List (Turn A V) → Machine P A V → List (Turn A V × Answer A V) × Machine P A V
  | [], m => ([], m)
  | turn :: later, m =>
      let (answer, m) := turn.perform m
      let (rest, m) := run later m
      ((turn, answer) :: rest, m)

def collects : Turn A V → Bool
  | .act step => step.collects
  | .keep .. => false

def keeps : Turn A V → Bool
  | .act _ => false
  | .keep .. => true

def operands : Turn A V → List A
  | .act step => step.operands
  | .keep source _ => source.operands

/-- Each address is reached from the live roots when a turn names it. -/
def UsesLive : List (Turn A V) → Machine P A V → Prop
  | [], _ => True
  | turn :: later, m =>
      (∀ a ∈ turn.operands, a ∈ m.heap.reachable m.liveRoots) ∧ UsesLive later (turn.perform m).2

end Policy

variable {V : Type} [Value V Precise] {S : Precise → Prop} {n : Nat}
variable {p q : Machine FreshPolicy Precise V}

/-- A turn that does not collect is answered alike, and shadows on. -/
theorem shadows_perform {turn : Turn Precise V} (shadows : Shadows S p q) (issued : Issued n S p q)
    (plain : turn.collects = false) (few : n + (if turn.keeps then 1 else 0) ≤ UInt64.size)
    (live : ∀ a ∈ turn.operands, a ∈ p.heap.reachable p.liveRoots) :
    (turn.perform q).1 = (turn.perform p).1 ∧ ∃ T,
      Shadows T (turn.perform p).2 (turn.perform q).2 ∧
      Issued (n + if turn.keeps then 1 else 0) T (turn.perform p).2 (turn.perform q).2 := by
  -- what has died since the last turn leaves the set, so that it holds just what may be named
  have narrow := shadows.narrow
  have issuedLive := issued.narrow shadows.of_mem_reachable
  cases turn with
  | act step =>
    obtain ⟨answered, after⟩ := narrow.step plain live
    exact ⟨answered, _, after, issuedLive.step live⟩
  | keep source place =>
    let a := (source.perform p).1
    obtain ⟨handed, after⟩ := narrow.obtain issuedLive few live
    have issuedAfter := issuedLive.obtain source narrow few
    have held : ∀ b ∈ (place.step a : Step Precise V).operands,
        b = a ∨ b ∈ p.heap.reachable p.liveRoots := by
      intro b operand
      cases place with
      | binding | root => exact .inl (List.mem_singleton.1 operand)
    have bare : (place.step a : Step Precise V).collects = false := by cases place <;> rfl
    obtain ⟨-, final⟩ := after.step bare held
    have stepQ : (keep source place).perform q =
        (.address (some a), ((place.step a).perform (source.perform q).2).2) := by
      change (_, ((place.step (source.perform q).1).perform (source.perform q).2).2) = _
      rw [handed]
    rw [stepQ]
    exact ⟨rfl, _, final, issuedAfter.step held⟩

/-- A run and what is left of it without its collections: the answers agree, turn by turn, and the
one machine shadows the other. -/
theorem shadows_run {turns : List (Turn Precise V)} (shadows : Shadows S p q)
    (issued : Issued n S p q) (live : UsesLive (turns.filter (!·.collects)) p)
    (few : n + (turns.filter (!·.collects)).countP keeps ≤ UInt64.size) :
    (run turns q).1.filter (!·.1.collects) = (run (turns.filter (!·.collects)) p).1 ∧
      ∃ T, Shadows T (run (turns.filter (!·.collects)) p).2 (run turns q).2 := by
  induction turns generalizing S n p q with
  | nil => exact ⟨rfl, S, shadows⟩
  | cons turn later ih =>
    by_cases collects : turn.collects = true
    · have skipped : (turn :: later).filter (!·.collects) = later.filter (!·.collects) :=
        List.filter_cons_of_neg (by simp [collects])
      rw [skipped] at live few ⊢
      have collecting : turn = .act .collect := by
        rcases turn with step | _
        · cases step <;> first | rfl | cases collects
        · cases collects
      subst collecting
      have issuedLive := issued.narrow shadows.of_mem_reachable
      obtain ⟨answers, final⟩ := ih shadows.collect issuedLive.collect live few
      exact ⟨answers, final⟩
    · have plain : turn.collects = false := by simpa using collects
      have left : (turn :: later).filter (!·.collects) = turn :: later.filter (!·.collects) :=
        List.filter_cons_of_pos (by simp [plain])
      rw [left] at live few ⊢
      rw [List.countP_cons] at few
      obtain ⟨answer, T, after, issuedAfter⟩ :=
        shadows_perform shadows issued plain (by omega) live.1
      obtain ⟨answers, final⟩ := ih after issuedAfter live.2 (by omega)
      refine ⟨?_, final⟩
      calc (run (turn :: later) q).1.filter (!·.1.collects)
          = (turn, (turn.perform q).1) ::
              (run later (turn.perform q).2).1.filter (!·.1.collects) :=
            List.filter_cons_of_pos (by simp [plain])
        _ = (turn, (turn.perform p).1) ::
              (run (later.filter (!·.collects)) (turn.perform p).2).1 := by rw [answer, answers]

/-- A client that names only what is alive cannot tell whether its machine collects: with the
collections left out of its turns, the others are answered alike, and the machines end alike but
for cells that nothing alive reaches. The counter of addresses has 64 bits, so no more can be
handed out before it starts over. -/
theorem collections_unobservable (options : Options) (turns : List (Turn Precise V))
    (live : UsesLive (turns.filter (!·.collects))
      (fresh (AllocationPolicy.initial : FreshPolicy) options))
    (few : (turns.filter (!·.collects)).countP keeps ≤ UInt64.size) :
    let new : Machine FreshPolicy Precise V := fresh AllocationPolicy.initial options
    let full := run turns new
    let bare := run (turns.filter (!·.collects)) new
    full.1.filter (!·.1.collects) = bare.1 ∧
      full.2.environment = bare.2.environment ∧ full.2.stackRoots = bare.2.stackRoots ∧
      full.2.policy = bare.2.policy ∧ full.2.names = bare.2.names ∧
      full.2.heap.reachable full.2.liveRoots = bare.2.heap.reachable bare.2.liveRoots ∧
      ∀ a ∈ bare.2.heap.reachable bare.2.liveRoots,
        full.2.heap.lookup a = bare.2.heap.lookup a := by
  let new : Machine FreshPolicy Precise V := fresh AllocationPolicy.initial options
  have shadows : Shadows (fun _ => False) new new :=
    ⟨⟨_, _, _, rfl⟩, fun a live => AscSet.not_mem_empty a live, fun _ _ absent => absent.elim,
      fun _ _ => rfl⟩
  have issued : Issued 0 (fun _ => False) new new := by
    refine ⟨rfl, fun _ absent => absent.elim, fun a there => ?_⟩
    rcases there with there | there <;> cases there
  obtain ⟨answers, T, final⟩ := shadows_run shadows issued live (by omega)
  have reachable := (congrArg _ final.liveRoots).trans final.reachable
  obtain ⟨environment, stackRoots, policy, names⟩ := final.sameControl
  exact ⟨answers, environment, stackRoots, policy, names, reachable, final.narrow.agree⟩

/-- A name is shadowed, its outer binding comes back to light, and a box is let go of, with
collections between. -/
def shadowedName : List (Turn Precise (Object Precise)) :=
  [.keep (.alloc (.user "x")) (.binding (.user "x")), .act (.assign ⟨0⟩ (.integer 1)),
    .keep (.box (.reference ⟨0⟩)) .root, .act .collect, .act .pushScope,
    .keep (.alloc (.user "x")) (.binding (.user "x")), .act (.removeRoot ⟨1⟩), .act .collect,
    .act .popScope, .act (.lookup (.user "x")), .act (.deref ⟨0⟩)]

theorem usesLive_shadowedName :
    UsesLive (shadowedName.filter (!·.collects))
      (fresh (AllocationPolicy.initial : FreshPolicy) {}) := by
  have rooted {m : Machine FreshPolicy Precise (Object Precise)}
      {turn : Turn Precise (Object Precise)}
      (held : ∀ a ∈ turn.operands, m.liveRoots.contains a = true) :
      ∀ a ∈ turn.operands, a ∈ m.heap.reachable m.liveRoots :=
    fun a operand => Heap.mem_reachable_of_mem_roots (AscSet.contains_iff.1 (held a operand))
  have none {m : Machine FreshPolicy Precise (Object Precise)} :
      ∀ a ∈ ([] : List Precise), m.liveRoots.contains a = true := List.forall_mem_nil _
  exact ⟨rooted none, rooted (List.forall_mem_singleton.2 rfl),
    rooted (List.forall_mem_singleton.2 rfl), rooted none, rooted none,
    rooted (List.forall_mem_singleton.2 rfl), rooted none, rooted none,
    rooted (List.forall_mem_singleton.2 rfl), trivial⟩

theorem collections_unobservable_shadowedName :
    UsesLive (shadowedName.filter (!·.collects))
      (fresh (AllocationPolicy.initial : FreshPolicy) {}) ∧
    (shadowedName.filter (!·.collects)).countP keeps ≤ UInt64.size ∧
    let new : Machine FreshPolicy Precise (Object Precise) := fresh AllocationPolicy.initial {}
    (run shadowedName new).1.filter (!·.1.collects) =
      (run (shadowedName.filter (!·.collects)) new).1 := by
  have three : (shadowedName.filter (!·.collects)).countP keeps = 3 := by decide
  have few : (shadowedName.filter (!·.collects)).countP keeps ≤ UInt64.size := by
    rw [three]
    decide
  exact ⟨usesLive_shadowedName, few,
    (collections_unobservable {} shadowedName usesLive_shadowedName few).1⟩

end Turn

end AbstractStore
