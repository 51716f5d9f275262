import AbstractStore.Proofs.Branches
import AbstractStore.Proofs.Passivity

/-! The trace in the branches of an analysis.
A branch that is forked goes on from the trace of the branch that it comes from, and one that
another is merged into keeps its own. With that each branch has on its trace what is kept of all
requests that were handled in its past (`Chronicle.kept_of_mem_after`), and other settings for the
trace change nothing else in any branch (`Chronicle.after_untraced`). -/

namespace AbstractStore

open Machine

section Order

variable {P A V : Type} [Ord A] [Ord V]

/-- A branch with all operations that were performed in it and, before it was forked, in the branch
that it comes from. -/
structure Chronicle (P A V : Type) [Ord A] [Ord V] : Type 1 where
  machine : Machine P A V
  past : List (Occasion P A V) := []

inductive Episode (P A V : Type) [Ord A] [Ord V] : Type 1 where
  /-- A new machine joins the branches. -/
  | new (policy : P) (options : Options)
  | run (i : Nat) {α : Type} (program : Program P A V α)
  /-- The heap is changed without a request. -/
  | edit (i : Nat) (change : Heap A V → Heap A V)
  | fork (i : Nat)
  /-- The second branch is merged into the first. -/
  | join (i j : Nat)

namespace Episode

/-- The episode with machines that trace nothing. -/
def untraced : Episode P A V → Episode P A V
  | .new policy options => .new policy options.untraced
  | episode => episode

def Unaware : Episode P A V → Prop
  | .run _ program => program.Unaware
  | _ => True

theorem unaware_of_untraced_eq {course other : List (Episode P A V)}
    (unaware : ∀ episode ∈ course, episode.Unaware)
    (alike : other.map untraced = course.map untraced) : ∀ episode ∈ other, episode.Unaware := by
  have same (episode : Episode P A V) : episode.untraced.Unaware ↔ episode.Unaware := by
    cases episode <;> rfl
  intro episode among
  have shown : episode.untraced ∈ course.map untraced := alike ▸ List.mem_map_of_mem among
  obtain ⟨twin, inside, twins⟩ := List.mem_map.1 shown
  rw [← same, ← twins, same]
  exact unaware twin inside

end Episode

end Order

section Analyses

variable {P A V : Type} [Address A] [Value V A] [AllocationPolicy P A]

namespace Chronicle

/-- The requests that were handled so far. -/
def handled (c : Chronicle P A V) : List (Request A V) := c.past.flatMap Occasion.requests

def run {α : Type} (c : Chronicle P A V) (program : Program P A V α) : Chronicle P A V where
  machine := (outcome program.run c.machine).2
  past := c.past ++ program.occasions c.machine

def edit (c : Chronicle P A V) (change : Heap A V → Heap A V) : Chronicle P A V :=
  { c with machine := { c.machine with heap := change c.machine.heap } }

def join (c other : Chronicle P A V) : Chronicle P A V :=
  { c with machine := c.machine.join other.machine }

/-- What is seen of a branch where nothing is traced. -/
def untraced (c : Chronicle P A V) : Chronicle P A V :=
  ⟨c.machine.untraced, c.past.map Occasion.untraced⟩

/-- The trace is what is kept of all requests that were handled. -/
def Kept (c : Chronicle P A V) : Prop := c.machine.trace = c.machine.options.kept c.handled

end Chronicle

def Episode.perform (branches : List (Chronicle P A V)) : Episode P A V → List (Chronicle P A V)
  | .new policy options => branches ++ [⟨fresh policy options, []⟩]
  | .run i program => branches.modify i (·.run program)
  | .edit i change => branches.modify i (·.edit change)
  | .fork i => branches ++ branches[i]?.toList
  | .join i j => match branches[j]? with
      | some other => branches.modify i (·.join other)
      | none => branches

/-- The branches after a course of episodes. -/
def Chronicle.after (course : List (Episode P A V)) : List (Chronicle P A V) :=
  course.foldl Episode.perform []

namespace Chronicle

variable {c : Chronicle P A V}

theorem handled_run {α : Type} (c : Chronicle P A V) (program : Program P A V α) :
    (c.run program).handled =
      c.handled ++ (program.moments c.machine).filterMap (·.request?) := by
  rw [Program.moments_eq, List.filterMap_flatMap, handled, run, List.flatMap_append]
  rfl

theorem Kept.run {α : Type} (kept : c.Kept) (program : Program P A V α) :
    (c.run program).Kept := by
  obtain ⟨options, trace⟩ := kept_of_spans (program.spans_run c.machine) kept
  have same : (c.run program).machine.options = c.machine.options := options
  rw [Kept, same, handled_run]
  exact trace

/-- At any moment of a program the trace is what is kept of the requests until then. -/
theorem Kept.remembers_at {α : Type} (kept : c.Kept) {program : Program P A V α}
    {earlier later : List (Moment P A V)} {t : Moment P A V}
    (split : program.moments c.machine = earlier ++ t :: later) :
    t.before.Remembers (c.handled ++ earlier.filterMap (·.request?)) := by
  have spans := program.spans_run c.machine
  rw [split] at spans
  obtain ⟨middle, first, found, -⟩ := spans_append_iff.1 spans
  obtain ⟨options, trace⟩ := kept_of_spans first kept
  rw [← found] at options trace
  have same : t.before.options = c.machine.options := options
  refine remembers_of_kept ?_
  rw [same]
  exact trace

theorem kept_of_mem_perform {branches : List (Chronicle P A V)} (all : ∀ c ∈ branches, c.Kept)
    (episode : Episode P A V) : ∀ c ∈ episode.perform branches, c.Kept := by
  cases episode with
  | new policy options =>
    have started : Kept (⟨fresh policy options, []⟩ : Chronicle P A V) := options.kept_nil.symm
    exact List.forall_mem_append.2 ⟨all, List.forall_mem_singleton.2 started⟩
  | run i program => exact forall_modify all fun c _ kept => kept.run program
  | edit i change => exact forall_modify all fun c _ kept => kept
  | fork i => exact forall_fork all i
  | join i j =>
    simp only [Episode.perform]
    cases branches[j]? with
    | some other => exact forall_modify all fun c _ kept => kept
    | none => exact all

theorem kept_of_mem_after (course : List (Episode P A V)) : ∀ c ∈ after course, c.Kept := by
  induction course using List.reverseRecOn with
  | nil => exact fun c among => absurd among List.not_mem_nil
  | append_singleton course episode ih =>
    rw [after, List.foldl_concat]
    exact kept_of_mem_perform ih episode

theorem run_untraced {α : Type} {program : Program P A V α} (unaware : program.Unaware)
    (c : Chronicle P A V) : c.untraced.run program = (c.run program).untraced := by
  have ended : outcome program.run c.machine.untraced = _ := Program.passive_run unaware c.machine
  have performed := Program.occasions_untraced unaware c.machine
  simp only [run, untraced, ended, performed, List.map_append]

theorem handled_untraced (c : Chronicle P A V) : c.untraced.handled = c.handled := by
  simp only [handled, untraced, List.flatMap_map, Occasion.requests_untraced]

theorem perform_untraced {episode : Episode P A V} (unaware : episode.Unaware)
    (branches : List (Chronicle P A V)) :
    episode.untraced.perform (branches.map untraced) =
      (episode.perform branches).map untraced := by
  cases episode with
  | new policy options =>
    simp only [Episode.untraced, Episode.perform, List.map_append]
    rfl
  | run i program => exact (map_modify fun c _ => (run_untraced unaware c).symm).symm
  | edit i change =>
    have alike (c : Chronicle P A V) : (c.edit change).untraced = c.untraced.edit change := rfl
    exact (map_modify fun c _ => alike c).symm
  | fork i =>
    simp only [Episode.untraced, Episode.perform, List.map_append, List.getElem?_map,
      Option.toList_map]
  | join i j =>
    simp only [Episode.untraced, Episode.perform, List.getElem?_map]
    cases branches[j]? with
    | some other =>
      have alike (c : Chronicle P A V) :
        (c.join other).untraced = c.untraced.join other.untraced := rfl
      exact (map_modify fun c _ => alike c).symm
    | none => rfl

theorem after_untraced {course : List (Episode P A V)}
    (unaware : ∀ episode ∈ course, episode.Unaware) :
    after (course.map Episode.untraced) = (after course).map untraced := by
  induction course using List.reverseRecOn with
  | nil => rfl
  | append_singleton course episode ih =>
    have before := ih fun e among => unaware e (List.mem_append_left _ among)
    have last := unaware episode (List.mem_concat_self ..)
    rw [after] at before
    rw [after, after, List.map_append, List.map_singleton, List.foldl_concat, List.foldl_concat,
      before]
    exact perform_untraced last _

end Chronicle

end Analyses

namespace Chronicle

/-- Every branch has the last of the requests that were handled in it on its trace, at any moment of
any program and however the branches were forked and merged: as many as it may keep, and none where
it does not trace. A course of an analysis with other settings for the trace performs the same
operations, which handle the same requests, have the same answers and leave the same machines but
for their traces, as long as no operation looks at them. A fork has the trace of the branch that it
is made from, and a branch that another is merged into keeps its own. The search for a member is a
program that does not look at the trace, and any that ends is one (`Machine.Hunts.run_search`,
`Program.unaware_search`). -/
theorem trace_faithful {P A V : Type} [Address A] [Value V A] [AllocationPolicy P A] :
    (∀ (course : List (Episode P A V)), ∀ c ∈ after course,
      c.machine.Remembers c.handled ∧
      ∀ {α : Type} (program : Program P A V α),
        (c.run program).machine.options = c.machine.options ∧
        (c.run program).machine.Remembers (c.run program).handled ∧
        ∀ earlier t later, program.moments c.machine = earlier ++ t :: later →
          t.before.Remembers (c.handled ++ earlier.filterMap (·.request?))) ∧
    (∀ course other : List (Episode P A V), (∀ episode ∈ course, episode.Unaware) →
      other.map Episode.untraced = course.map Episode.untraced →
      (after other).map untraced = (after course).map untraced ∧
      (after other).map handled = (after course).map handled) ∧
    (∀ {α : Type} (program : Program P A V α), program.Unaware → ∀ m n : Machine P A V,
      m.untraced = n.untraced →
      (outcome program.run m).1 = (outcome program.run n).1 ∧
      (outcome program.run m).2.untraced = (outcome program.run n).2.untraced ∧
      (program.occasions m).map Occasion.untraced =
        (program.occasions n).map Occasion.untraced) ∧
    (∀ (course : List (Episode P A V)) (i : Nat), ∀ c ∈ (after course)[i]?,
      after (course ++ [.fork i]) = after course ++ [c]) ∧
    (∀ c other : Chronicle P A V, (c.join other).machine.trace = c.machine.trace) ∧
    ∀ (a : A) (member : Name),
      (Program.lookupMember a member : Program P A (Object A) _).Unaware ∧
      (Program.lookupMember a member : Program P A (Object A) _).run =
        Machine.lookupMember a member := by
  refine ⟨fun course c among => ?_, fun course other unaware alike => ?_,
    fun program unaware m n alike => ?_, fun course i c there => ?_, fun c other => rfl,
    fun a member => ⟨Program.unaware_lookupMember a member, Program.run_lookupMember a member⟩⟩
  · have kept := kept_of_mem_after course c among
    refine ⟨remembers_of_kept kept, fun program => ⟨?_, remembers_of_kept (kept.run program),
      fun earlier t later split => kept.remembers_at split⟩⟩
    have options := (kept_of_spans (program.spans_run c.machine) kept).1
    exact options
  · have same : (after other).map untraced = (after course).map untraced := by
      rw [← after_untraced unaware, ← alike,
        after_untraced (Episode.unaware_of_untraced_eq unaware alike)]
    have requests := congrArg (List.map handled) same
    simp only [List.map_map, Function.comp_def, handled_untraced] at requests
    exact ⟨same, requests⟩
  · have ended := Program.passive_run unaware n
    rw [← alike, Program.passive_run unaware m] at ended
    obtain ⟨result, left⟩ := Prod.mk.inj ended
    refine ⟨result, left, ?_⟩
    rw [← Program.occasions_untraced unaware, ← Program.occasions_untraced unaware, alike]
  · rw [after, List.foldl_concat, Episode.perform, ← after, Option.mem_def.1 there,
      Option.toList_some]

/-- Boxes a value, collects it and reads its address. -/
def readsGone : Program FreshPolicy Precise (Object Precise) (Cell (Object Precise)) :=
  .act (.box .unit) fun _ => .act .collect fun _ => .act (.deref ⟨0⟩) .done

/-- A branch is forked after a read that failed, and the fork is merged into it. -/
def forked (options : Options) : List (Episode FreshPolicy Precise (Object Precise)) :=
  [.new {} options, .run 0 readsGone, .fork 0, .run 1 (.act (.alloc (.user "x")) .done), .join 0 1]

theorem trace_faithful_forked :
    let limited : Options := { trace := true, traceLimit := some 2 }
    let start : Machine FreshPolicy Precise (Object Precise) := fresh {} limited
    (∀ c ∈ after (forked limited), c.machine.Remembers c.handled) ∧
    (after (forked limited)).map (·.machine.trace) =
      [[.gc ∅, .deref ⟨0⟩], [.deref ⟨0⟩, .alloc (.user "x")]] ∧
    (∃ earlier t later, readsGone.moments start = earlier ++ t :: later ∧
      earlier.filterMap (·.request?) = [.alloc (.gensym 0), .assign ⟨0⟩ .unit] ∧
      t.before.Remembers [.alloc (.gensym 0), .assign ⟨0⟩ .unit]) ∧
    (∀ episode ∈ forked {}, episode.Unaware) ∧
    (after (forked limited)).map untraced = (after (forked {})).map untraced ∧
    start.untraced = fresh {} {} ∧
    (outcome readsGone.run start).1 = (outcome readsGone.run (fresh {} {})).1 := by
  intro limited start
  obtain ⟨remember, courses, programs, -⟩ :=
    trace_faithful (P := FreshPolicy) (A := Precise) (V := Object Precise)
  have unaware : readsGone.Unaware :=
    ⟨trivial, fun _ => ⟨trivial, fun _ => ⟨trivial, fun _ => trivial⟩⟩⟩
  have all : ∀ episode ∈ forked {}, episode.Unaware := by
    simp [forked, Episode.Unaware, unaware, Program.Unaware, Op.Unaware]
  have alike : (forked limited).map Episode.untraced = (forked {}).map Episode.untraced := rfl
  have quiet : start.untraced =
    (fresh {} {} : Machine FreshPolicy Precise (Object Precise)).untraced := rfl
  have traces : (after (forked limited)).map (·.machine.trace) =
      [[.gc ∅, .deref ⟨0⟩], [.deref ⟨0⟩, .alloc (.user "x")]] := by decide +kernel
  refine ⟨fun c among => (remember _ c among).1, traces, ?_, all,
    (courses _ _ all alike).1, quiet, (programs readsGone unaware _ _ quiet).1⟩
  have entered : ⟨start, []⟩ ∈ after [.new {} limited] := List.mem_singleton.2 rfl
  -- The moment after the box is the one that collects.
  have some_later : (readsGone.moments start).drop 2 ≠ [] :=
    List.ne_nil_of_length_pos (by decide +kernel)
  have handled : ((readsGone.moments start).take 2).filterMap (·.request?) =
      [.alloc (.gensym 0), .assign ⟨0⟩ .unit] := by decide +kernel
  obtain ⟨t, later, rest⟩ := List.exists_cons_of_ne_nil some_later
  have split : readsGone.moments start = (readsGone.moments start).take 2 ++ t :: later := by
    rw [← rest, List.take_append_drop]
  refine ⟨_, t, later, split, handled, ?_⟩
  rw [← handled]
  exact ((remember _ _ entered).2 readsGone).2.2 _ t later split

end Chronicle

end AbstractStore
