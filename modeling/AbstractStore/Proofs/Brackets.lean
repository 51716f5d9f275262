import AbstractStore.Object
import AbstractStore.Proofs.LiveRoots
import AbstractStore.Proofs.Programs
import AbstractStore.Proofs.Reachability
import Mathlib.Data.List.Basic
import Mathlib.Data.List.Induction

/-! Addresses that an evaluator holds while it works.
An evaluator adds a root for a value on its stack and removes it when the value leaves the stack, so
the two are the ends of a bracket, and brackets nest. The roots are a set and do not count: two
brackets of one address hold it together, and the first that closes lets go of it. What this leaves
of the discipline is `Stride.roots_of_brackets`. -/

namespace AbstractStore

open Machine

/-- An end of a bracket about an address. -/
inductive Bracket (A : Type) where
  | opens (a : A)
  | closes (a : A)
  deriving DecidableEq

/-- What is left of a set is the whole set unless something is taken away. -/
theorem AscSet.diff_ofList_eq_iff {A : Type} [Address A] {s : LiveSet A} {l : List A} :
    s \ .ofList l = s ↔ ∀ a ∈ l, a ∉ s := by
  constructor
  · intro whole a listed inside
    rw [← whole, mem_diff, mem_ofList] at inside
    exact inside.2 listed
  · intro none
    refine ext fun a => ?_
    rw [mem_diff, mem_ofList]
    exact and_iff_left_of_imp fun inside listed => none a listed inside

namespace Bracket

section Nesting

variable {A : Type} [DecidableEq A] {ends : List (Bracket A)} {last : Bracket A}
variable {a b : A} {inside inner outer : List A}

def address : Bracket A → A
  | .opens a | .closes a => a

/-- The brackets that are open after one end more, the innermost first. Only the innermost one can
be closed. -/
def nest (inside : List A) : Bracket A → Option (List A)
  | .opens a => some (a :: inside)
  | .closes a => match inside with
      | [] => none
      | b :: outer => if a = b then some outer else none

/-- The brackets that are left open, if each end that closes one closes the innermost. -/
def opened (ends : List (Bracket A)) : Option (List A) := ends.foldlM nest []

/-- The last end of a bracket of an address. -/
def last? (a : A) (ends : List (Bracket A)) : Option (Bracket A) :=
  ends.reverse.find? (·.address = a)

/-- No bracket stands, at any depth, in one of the same address. -/
def Apart (ends : List (Bracket A)) : Prop :=
  ∀ before a after, ends = before ++ .opens a :: after →
    ∀ inside, opened before = some inside → a ∉ inside

theorem nest_closes_eq_some_iff : nest inside (.closes a) = some outer ↔ inside = a :: outer := by
  cases inside with
  | nil => simp [nest]
  | cons b inside =>
    by_cases same : a = b
    · simp [nest, same]
    · simp [nest, same, Ne.symm same]

theorem opened_concat (ends : List (Bracket A)) (last : Bracket A) :
    opened (ends ++ [last]) = (opened ends).bind (nest · last) := by
  rw [opened, List.foldlM_append, opened]
  cases ends.foldlM nest [] with
  | none => rfl
  | some inside => exact bind_pure (nest inside last)

theorem exists_of_opened_concat (nested : opened (ends ++ [last]) = some inner) :
    ∃ inside, opened ends = some inside ∧ nest inside last = some inner :=
  Option.bind_eq_some_iff.1 (opened_concat ends last ▸ nested)

theorem last?_concat (a : A) (ends : List (Bracket A)) (last : Bracket A) :
    last? a (ends ++ [last]) = if last.address = a then some last else last? a ends := by
  rw [last?, List.reverse_concat, List.find?_cons]
  by_cases about : last.address = a <;> simp [about, last?]

theorem last?_eq_none_iff : last? a ends = none ↔ a ∉ ends.map address := by
  simp [last?]

/-- Brackets that are open further out do not matter for those inside. -/
theorem foldlM_nest_append (nested : ends.foldlM nest inside = some inner) (outer : List A) :
    ends.foldlM nest (inside ++ outer) = some (inner ++ outer) := by
  induction ends generalizing inside with
  | nil =>
    cases nested
    rfl
  | cons first ends ih =>
    rw [List.foldlM_cons] at nested ⊢
    obtain ⟨next, step, rest⟩ := Option.bind_eq_some_iff.1 nested
    have shifted : nest (inside ++ outer) first = some (next ++ outer) := by
      cases first with
      | opens a =>
        cases step
        rfl
      | closes a =>
        rw [nest_closes_eq_some_iff] at step ⊢
        rw [step, List.cons_append]
    rw [shifted]
    exact ih rest

theorem opened_append {later : List (Bracket A)} (nested : opened ends = some outer)
    (closed : opened later = some []) : opened (ends ++ later) = some outer := by
  rw [opened, List.foldlM_append]
  change (opened ends).bind (later.foldlM nest ·) = some outer
  rw [nested]
  exact foldlM_nest_append closed outer

theorem opened_bracket (a : A) (closed : opened ends = some []) :
    opened (.opens a :: ends ++ [.closes a]) = some [] := by
  have within : opened (.opens a :: ends) = some [a] := foldlM_nest_append closed [a]
  rw [opened_concat, within]
  exact nest_closes_eq_some_iff.2 rfl

theorem last?_ne_none (nested : opened ends = some inside) (within : a ∈ inside) :
    last? a ends ≠ none := by
  induction ends using List.reverseRecOn generalizing inside with
  | nil =>
    cases nested
    exact absurd within List.not_mem_nil
  | append_singleton ends last ih =>
    rw [last?_concat]
    split
    next => exact Option.some_ne_none last
    next other =>
      obtain ⟨before, earlier, step⟩ := exists_of_opened_concat nested
      refine ih earlier ?_
      cases last with
      | opens b =>
        cases step
        exact (List.mem_cons.1 within).resolve_left fun same => other same.symm
      | closes b =>
        rw [nest_closes_eq_some_iff.1 step]
        exact List.mem_cons_of_mem b within

/-- A bracket stays open until one of its address is closed. -/
theorem mem_of_last? (nested : opened ends = some inside) (held : last? a ends = some (.opens a)) :
    a ∈ inside := by
  induction ends using List.reverseRecOn generalizing inside with
  | nil => cases held
  | append_singleton ends last ih =>
    obtain ⟨before, earlier, step⟩ := exists_of_opened_concat nested
    rw [last?_concat] at held
    split at held
    next =>
      cases held
      cases step
      exact List.mem_cons_self ..
    next other =>
      have within := ih earlier held
      cases last with
      | opens b =>
        cases step
        exact List.mem_cons_of_mem b within
      | closes b =>
        rw [nest_closes_eq_some_iff.1 step] at within
        exact (List.mem_cons.1 within).resolve_left fun same => other same.symm

/-- Where brackets of one address do not nest, none is open twice, so none that is open has been
closed since. -/
theorem last?_of_apart (nested : opened ends = some inside) (apart : Apart ends) :
    inside.Nodup ∧ ∀ a ∈ inside, last? a ends = some (.opens a) := by
  induction ends using List.reverseRecOn generalizing inside with
  | nil =>
    cases nested
    exact ⟨List.nodup_nil, List.forall_mem_nil _⟩
  | append_singleton ends last ih =>
    obtain ⟨before, earlier, step⟩ := exists_of_opened_concat nested
    have apartBefore : Apart ends := fun front a back split =>
      apart front a (back ++ [last]) (by rw [split, List.append_assoc, List.cons_append])
    obtain ⟨distinct, held⟩ := ih earlier apartBefore
    cases last with
    | opens b =>
      cases step
      have new : b ∉ before := apart ends b [] rfl before earlier
      refine ⟨List.nodup_cons.2 ⟨new, distinct⟩, fun a within => ?_⟩
      rw [last?_concat]
      split
      next same => exact congrArg (fun c => some (opens c)) same
      next other =>
        exact held a ((List.mem_cons.1 within).resolve_left fun same => other same.symm)
    | closes b =>
      cases nest_closes_eq_some_iff.1 step
      obtain ⟨gone, rest⟩ := List.nodup_cons.1 distinct
      refine ⟨rest, fun a within => ?_⟩
      have other : b ≠ a := fun same => gone (same ▸ within)
      rw [last?_concat, address, if_neg other]
      exact held a (List.mem_cons_of_mem b within)

/-- The innermost open bracket was opened at some point, and all those opened since are closed. -/
theorem exists_opening (nested : opened ends = some (a :: outer)) : ∃ before body,
    ends = before ++ .opens a :: body ∧ opened before = some outer ∧ opened body = some [] := by
  induction length : ends.length using Nat.strongRecOn generalizing ends a outer with
  | ind n ih =>
    obtain rfl | ⟨front, last, rfl⟩ := List.eq_nil_or_concat' ends
    · cases nested
    · rw [List.length_append, List.length_singleton] at length
      obtain ⟨before, earlier, step⟩ := exists_of_opened_concat nested
      cases last with
      | opens b =>
        cases step
        exact ⟨front, [], rfl, earlier, rfl⟩
      | closes b =>
        -- the bracket that was closed last stood in the one looked for: two openings are undone
        rw [nest_closes_eq_some_iff.1 step] at earlier
        obtain ⟨middle, within, rfl, reopened, closed⟩ :=
          ih front.length (by omega) earlier rfl
        rw [List.length_append, List.length_cons] at length
        obtain ⟨first, body, rfl, openedFirst, closedBody⟩ :=
          ih middle.length (by omega) reopened rfl
        refine ⟨first, body ++ (.opens b :: within ++ [.closes b]), by simp, openedFirst, ?_⟩
        exact opened_append closedBody (opened_bracket b closed)

end Nesting

section Roots

variable {A : Type} [Address A] {ends : List (Bracket A)} {roots : LiveSet A} {a : A}

def act (roots : LiveSet A) : Bracket A → LiveSet A
  | .opens a => roots.insert a
  | .closes a => roots.erase a

/-- The roots do not count: the last end of a bracket of an address decides. -/
theorem mem_foldl_act : a ∈ ends.foldl act roots ↔
    last? a ends = some (.opens a) ∨ last? a ends = none ∧ a ∈ roots := by
  induction ends using List.reverseRecOn with
  | nil => simp [last?]
  | append_singleton ends last ih =>
    rw [List.foldl_append, List.foldl_cons, List.foldl_nil, last?_concat]
    cases last with
    | opens b =>
      rw [act, AscSet.mem_insert, ih]
      by_cases same : b = a
      · simp [address, same]
      · simp [address, same, Ne.symm same]
    | closes b =>
      rw [act, AscSet.mem_erase, ih]
      by_cases same : b = a
      · simp [address, same]
      · simp [address, same]

/-- Where all brackets are closed, no address of any of them is left. -/
theorem foldl_act_of_closed (closed : opened ends = some []) :
    ends.foldl act roots = roots \ .ofList (ends.map address) :=
  AscSet.ext fun a => by
    have notHeld : last? a ends ≠ some (.opens a) := fun held =>
      List.not_mem_nil (mem_of_last? closed held)
    rw [mem_foldl_act, AscSet.mem_diff, AscSet.mem_ofList, last?_eq_none_iff, and_comm]
    exact or_iff_right notHeld

end Roots

end Bracket

/-- Reading an address leaves the roots. -/
theorem Machine.stackRoots_deref {P A V : Type} [Address A] [Value V A] (a : A)
    (m : Machine P A V) : (outcome (deref a) m).2.stackRoots = m.stackRoots := by
  obtain ⟨trace, journal, same⟩ := deref_eq a m
  exact congrArg (·.2.stackRoots) same

/-- A step of a run: what a machine is asked for, or a change of its heap from outside. -/
inductive Stride (P A V : Type) [Ord A] [Ord V] : Type 1 where
  | act {β : Type} (op : Op P A V β)
  | alter (change : Heap A V → Heap A V)

section Ends

variable {P A V : Type} [Ord A] [Ord V]

/-- The end of a bracket that a machine is asked for. -/
def Op.bracket? {β : Type} : Op P A V β → Option (Bracket A)
  | .addRoot a => some (.opens a)
  | .removeRoot a => some (.closes a)
  | _ => none

namespace Stride

def bracket? : Stride P A V → Option (Bracket A)
  | .act op => op.bracket?
  | .alter _ => none

/-- The ends of brackets in a run. -/
def brackets (strides : List (Stride P A V)) : List (Bracket A) := strides.filterMap bracket?

theorem eq_addRoot {stride : Stride P A V} {a : A} (opening : stride.bracket? = some (.opens a)) :
    stride = .act (.addRoot a) := by
  cases stride with
  | act op => cases op <;> cases opening; rfl
  | alter change => cases opening

theorem exists_opening [DecidableEq A] {strides : List (Stride P A V)} {a : A} {outer : List A}
    (nested : Bracket.opened (brackets strides) = some (a :: outer)) : ∃ before body,
      strides = before ++ .act (.addRoot a) :: body ∧
      Bracket.opened (brackets before) = some outer ∧
      Bracket.opened (brackets body) = some [] := by
  obtain ⟨front, back, split, openedFront, closedBack⟩ := Bracket.exists_opening nested
  obtain ⟨before, rest, rfl, rfl, opening⟩ := List.filterMap_eq_append_iff.1 split
  obtain ⟨silent, stride, body, rfl, noEnds, opens, rfl⟩ := List.filterMap_eq_cons_iff.1 opening
  have unmarked : silent.filterMap bracket? = [] := List.filterMap_eq_nil_iff.2 noEnds
  refine ⟨before ++ silent, body, ?_, ?_, closedBack⟩
  · rw [eq_addRoot opens, List.append_assoc]
  · rw [brackets, List.filterMap_append, unmarked, List.append_nil]
    exact openedFront

end Stride

end Ends

section Runs

variable {P A V : Type} [Address A] [AllocationPolicy P A] [Value V A]

theorem Machine.stackRoots_freeVariable (name : Name) (m : Machine P A V) :
    (outcome (freeVariable name) m).2.stackRoots = m.stackRoots := by
  rw [outcome_freeVariable]
  simp only
  cases m.recovery.answerVariable ⟨name, m.module, m.span⟩ <;> rfl

theorem Op.stackRoots_perform {β : Type} (op : Op P A V β) (m : Machine P A V) :
    (outcome op.perform m).2.stackRoots =
      op.bracket?.elim m.stackRoots (Bracket.act m.stackRoots) := by
  cases op with
  | deref a => exact stackRoots_deref a m
  | popScope =>
    rw [perform, outcome_popScope]
    cases m.environment.pop? <;> rfl
  | lookupOrAlloc name =>
    change (Machine.lookupOrAlloc name m).2.stackRoots = m.stackRoots
    unfold Machine.lookupOrAlloc
    cases m.lookup name <;> rfl
  | freeVariable name => exact stackRoots_freeVariable name m
  | resolve name =>
    rw [perform, outcome_resolve]
    cases m.lookup name with
    | some a => rfl
    | none => exact stackRoots_freeVariable name m
  | alloc | gc | collect | assign | lookup | bind | pushScope | gensym | box | addRoot | removeRoot
  | setModule | setSpan | setRecovery | rebind | inspect => rfl

namespace Stride

variable {m : Machine P A V} {a : A}

def perform (m : Machine P A V) : Stride P A V → Machine P A V
  | .act op => (outcome op.perform m).2
  | .alter change => { m with heap := change m.heap }

def run (strides : List (Stride P A V)) (m : Machine P A V) : Machine P A V :=
  strides.foldl perform m

theorem stackRoots_run (strides : List (Stride P A V)) (m : Machine P A V) :
    (run strides m).stackRoots = (brackets strides).foldl Bracket.act m.stackRoots := by
  induction strides generalizing m with
  | nil => rfl
  | cons stride strides ih =>
    refine (ih (perform m stride)).trans ?_
    cases stride with
    | act op =>
      rw [perform, op.stackRoots_perform, brackets, brackets, List.filterMap_cons, bracket?]
      cases op.bracket? <;> rfl
    | alter change => rfl

/-- A collection keeps the cell of every address that the evaluator holds. -/
theorem lookup_collect_of_held (held : a ∈ m.stackRoots) :
    (perform m (.act .collect)).heap.lookup a = m.heap.lookup a := by
  have live : a ∈ m.liveRoots := mem_liveRoots.2 (.inr held)
  change (m.heap.collect m.liveRoots).lookup a = m.heap.lookup a
  rw [Heap.lookup_collect, if_pos (Heap.mem_reachable_of_mem_roots live)]

/-- A bracket that closes leaves the roots that it found, less its own address and those of the
brackets inside it. -/
theorem stackRoots_closed (before : List (Stride P A V)) {body : List (Stride P A V)} (a : A)
    (closed : Bracket.opened (brackets body) = some []) :
    (run (before ++ .act (.addRoot a) :: body ++ [.act (.removeRoot a)]) m).stackRoots =
      (run before m).stackRoots \ .ofList (a :: (brackets body).map Bracket.address) := by
  let bracket : List (Stride P A V) := .act (.addRoot a) :: body ++ [.act (.removeRoot a)]
  have ends : brackets bracket = .opens a :: brackets body ++ [.closes a] :=
    congrArg (List.cons _) List.filterMap_append
  have split : run (before ++ .act (.addRoot a) :: body ++ [.act (.removeRoot a)]) m =
      run bracket (run before m) := by
    rw [List.append_assoc, run, List.foldl_append]
    rfl
  rw [split, stackRoots_run, ends, Bracket.foldl_act_of_closed (Bracket.opened_bracket a closed)]
  refine AscSet.ext fun b => ?_
  rw [AscSet.mem_diff, AscSet.mem_diff, AscSet.mem_ofList, AscSet.mem_ofList, List.map_append,
    List.mem_append]
  refine and_congr_right fun _ => not_congr (or_iff_left_of_imp fun last => ?_)
  rw [List.mem_singleton.1 last]
  exact List.mem_cons_self ..

/-- What explicit roots protect. In a run whose brackets nest, an address with an open bracket is
a root unless a bracket of it has closed since the last one opened, so it is one if no bracket
stands in another of the same address. No collection drops the cell of a root. A bracket that
closes leaves the roots that it found when it opened, less the addresses of the brackets that it
closes and contains; these are the roots that it found unless one of the addresses was among
them. -/
theorem roots_of_brackets (m : Machine P A V) (strides : List (Stride P A V)) (inside : List A)
    (nested : Bracket.opened (brackets strides) = some inside) :
    let reached := run strides m
    (∀ a ∈ inside,
      a ∈ reached.stackRoots ↔ Bracket.last? a (brackets strides) = some (.opens a)) ∧
    (Bracket.Apart (brackets strides) → ∀ a ∈ inside, a ∈ reached.stackRoots) ∧
    (∀ a ∈ reached.stackRoots,
      (perform reached (.act .collect)).heap.lookup a = reached.heap.lookup a) ∧
    (∀ a earlier, strides = earlier ++ [.act (.removeRoot a)] → ∃ before body,
      earlier = before ++ .act (.addRoot a) :: body ∧
      Bracket.opened (brackets before) = some inside ∧
      Bracket.opened (brackets body) = some [] ∧
      let found := (run before m).stackRoots
      let closed := a :: (brackets body).map Bracket.address
      reached.stackRoots = found \ .ofList closed ∧
        (reached.stackRoots = found ↔ ∀ b ∈ closed, b ∉ found)) := by
  intro reached
  have roots : reached.stackRoots = (brackets strides).foldl Bracket.act m.stackRoots :=
    stackRoots_run strides m
  have held (a : A) (within : a ∈ inside) :
      a ∈ reached.stackRoots ↔ Bracket.last? a (brackets strides) = some (.opens a) := by
    rw [roots, Bracket.mem_foldl_act]
    exact or_iff_left fun absent => Bracket.last?_ne_none nested within absent.1
  refine ⟨held, fun apart a within => ?_, fun a => lookup_collect_of_held, ?_⟩
  · exact (held a within).2 ((Bracket.last?_of_apart nested apart).2 a within)
  · intro a earlier split
    have ends : brackets strides = brackets earlier ++ [.closes a] := by
      rw [split]
      exact List.filterMap_append
    obtain ⟨before, opened, step⟩ := Bracket.exists_of_opened_concat (ends ▸ nested)
    rw [Bracket.nest_closes_eq_some_iff.1 step] at opened
    obtain ⟨front, body, opening, openedFront, closedBody⟩ := exists_opening opened
    have left : reached.stackRoots =
        (run front m).stackRoots \ .ofList (a :: (brackets body).map Bracket.address) := by
      rw [← stackRoots_closed front a closedBody, ← opening, ← split]
    exact ⟨front, body, opening, openedFront, closedBody, left, left ▸ AscSet.diff_ofList_eq_iff⟩

/-- Two boxes on the stack of an evaluator, of which the second one leaves. -/
def twoBoxes : List (Stride FreshPolicy Precise (Object Precise)) :=
  [.act (.box (.integer 1)), .act (.addRoot ⟨0⟩), .act (.box (.reference ⟨0⟩)),
    .act (.addRoot ⟨1⟩), .act (.removeRoot ⟨1⟩)]

theorem apart_twoBoxes : Bracket.Apart (brackets twoBoxes) := by
  intro before a after split inside nested
  have ends : [.opens ⟨0⟩, .opens ⟨1⟩, .closes ⟨1⟩] = before ++ .opens a :: after := split
  rcases before with _ | ⟨first, _ | ⟨second, _ | ⟨third, before⟩⟩⟩
  · cases nested
    exact List.not_mem_nil
  · cases ends
    cases nested
    decide
  · cases ends
  · simp at ends

theorem roots_of_brackets_twoBoxes :
    let new : Machine FreshPolicy Precise (Object Precise) := fresh AllocationPolicy.initial {}
    Bracket.opened (brackets twoBoxes) = some [⟨0⟩] ∧ ⟨0⟩ ∈ (run twoBoxes new).stackRoots ∧
      (perform (run twoBoxes new) (.act .collect)).heap.lookup ⟨0⟩ =
        some (.singleton (.integer 1)) := by
  intro new
  have nested : Bracket.opened (brackets twoBoxes) = some [⟨0⟩] := rfl
  obtain ⟨-, apart, kept, -⟩ := roots_of_brackets new twoBoxes [⟨0⟩] nested
  have held := apart apart_twoBoxes ⟨0⟩ (List.mem_singleton_self _)
  have stored : (run twoBoxes new).heap.lookup ⟨0⟩ = some (.singleton (.integer 1)) := by rfl
  exact ⟨nested, held, (kept _ held).trans stored⟩

/-- One variable held twice, where there is one address for each name. -/
def heldTwice : List (Stride PerNamePolicy Monovariant (Object Monovariant)) :=
  [.act (.alloc (.user "x")), .act (.addRoot ⟨.user "x"⟩), .act (.alloc (.user "x")),
    .act (.addRoot ⟨.user "x"⟩), .act (.assign ⟨.user "x"⟩ .unit),
    .act (.removeRoot ⟨.user "x"⟩)]

/-- The outer bracket is open, but the inner one has let go of its address, and a collection drops
what is stored there. -/
theorem heldTwice_not_rooted :
    let new : Machine PerNamePolicy Monovariant (Object Monovariant) :=
      fresh AllocationPolicy.initial {}
    let a : Monovariant := ⟨.user "x"⟩
    let reached := run heldTwice new
    Bracket.opened (brackets heldTwice) = some [a] ∧ a ∉ reached.stackRoots ∧
      reached.heap.lookup a = some (.singleton .unit) ∧
      (perform reached (.act .collect)).heap.lookup a = none ∧
      (run (heldTwice.take 3) new).stackRoots = .singleton a := by
  intro new a reached
  have unheld : reached.liveRoots = ∅ := by decide
  have dropped : (perform reached (.act .collect)).heap.lookup a = none := by
    have unreached : a ∉ reached.heap.reachable reached.liveRoots := fun found =>
      Heap.forall_reachable (P := fun _ => False)
        (unheld ▸ AscSet.not_mem_empty) (fun _ _ absent _ => absent) a found
    exact Heap.lookup_collect.trans (if_neg unreached)
  refine ⟨by decide, by decide, by decide, dropped, by decide⟩

end Stride

end Runs

end AbstractStore
