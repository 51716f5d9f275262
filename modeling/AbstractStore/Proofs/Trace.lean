import AbstractStore.Proofs.Moments

/-! The trace of requests.
A machine that traces has the last of the requests that were handled on its trace, as many as it may
keep (`Options.kept`, `Machine.Remembers`). A moment of a program adds the request that is made at
it, so what is on the trace after some moments is told by their requests (`kept_of_spans`). -/

namespace AbstractStore

open Machine

/-- What is on the trace when these requests were handled. -/
def Options.kept {β : Type} (o : Options) (handled : List β) : List β :=
  if o.trace then keepLast o.traceLimit handled else []

namespace Machine

theorem keepLast_concat {β : Type} (limit : Option Nat) (requests : List β) (r : β) :
    keepLast limit (keepLast limit requests ++ [r]) = keepLast limit (requests ++ [r]) := by
  cases limit with
  | none => rfl
  | some n =>
    have kept : requests.length - n + (requests.length - (requests.length - n) + 1 - n) =
        requests.length + 1 - n := by omega
    have last : requests.length - (requests.length - n) + 1 - n -
        (requests.length - (requests.length - n)) =
          requests.length + 1 - n - requests.length := by omega
    simp only [keepLast, List.length_append, List.length_drop, List.length_singleton,
      List.drop_append, List.drop_drop, kept, last]

theorem keepLast_suffix {β : Type} (limit : Option Nat) (requests : List β) :
    keepLast limit requests <:+ requests := by
  cases limit with
  | none => exact List.suffix_rfl
  | some n => exact List.drop_suffix ..

theorem length_keepLast {β : Type} (limit : Option Nat) (requests : List β) :
    (keepLast limit requests).length =
      limit.elim requests.length fun n => min n requests.length := by
  cases limit with
  | none => rfl
  | some n =>
    simp only [keepLast, List.length_drop, Option.elim]
    omega

end Machine

theorem Options.kept_nil {β : Type} (o : Options) : o.kept ([] : List β) = [] := by
  unfold kept
  split
  next => exact List.suffix_nil.1 (keepLast_suffix ..)
  next => rfl

section Order

variable {P A V : Type} [Ord A] [Ord V]

/-- The trace of a machine that has handled some requests: their last ones, the oldest first, as
many as it may keep. -/
structure Machine.Remembers (m : Machine P A V) (handled : List (Request A V)) : Prop where
  off : m.options.trace = false → m.trace = []
  last : m.options.trace = true → m.trace <:+ handled
  many : m.options.trace = true →
    m.trace.length = m.options.traceLimit.elim handled.length fun limit => min limit handled.length

theorem Machine.remembers_of_kept {m : Machine P A V} {handled : List (Request A V)}
    (same : m.trace = m.options.kept handled) : m.Remembers handled where
  off silent := by rw [same, Options.kept, silent]; rfl
  last traced := by
    rw [same, Options.kept, if_pos traced]
    exact keepLast_suffix ..
  many traced := by
    rw [same, Options.kept, if_pos traced]
    exact length_keepLast ..

/-- A request is kept like those before it. -/
theorem Machine.trace_record {m : Machine P A V} {handled : List (Request A V)}
    (kept : m.trace = m.options.kept handled) (r : Request A V) :
    (m.record r).trace = m.options.kept (handled ++ [r]) := by
  unfold record Options.kept
  unfold Options.kept at kept
  by_cases traced : m.options.trace = true
  · simp only [traced, if_true] at kept ⊢
    rw [kept, keepLast_concat]
  · simp only [traced] at kept ⊢
    exact kept

end Order

/-! ### The requests that the moments record -/

section Moments

variable {P A V : Type} [Address A] [Value V A] [AllocationPolicy P A]

/-- What is recorded at a moment, if it is a request. -/
def Moment.request? : Moment P A V → Option (Request A V)
  | ⟨_, .alloc name⟩ => some (.alloc name)
  | ⟨_, .act (.gc roots)⟩ => some (.gc roots)
  | ⟨m, .act .collect⟩ => some (.gc m.liveRoots)
  | ⟨_, .act (.deref a)⟩ => some (.deref a)
  | ⟨_, .act (.assign a v)⟩ => some (.assign a v)
  | _ => none

theorem Moment.trace_perform (t : Moment P A V) :
    (t.deed.perform t.before).2.trace =
      t.request?.elim t.before.trace fun r => (t.before.record r).trace := by
  obtain ⟨m, deed⟩ := t
  cases deed with
  | alloc name => rfl
  | act step =>
    cases step with
    | deref a =>
      obtain ⟨told, -, same⟩ := deref_journal a m
      have after := congrArg Machine.trace same
      exact after
    | popScope =>
      have left : ((Deed.act .popScope).perform m).2 = (outcome popScope m).2 := rfl
      simp only [left, outcome_popScope]
      cases m.environment.pop? <;> rfl
    | assign | lookup | bind | remove | overwrite | pushScope | addRoot | removeRoot | gc
    | collect => rfl

/-- By induction from the last moment on: the options stay, and each request is kept. -/
theorem kept_of_spans {start finish : Memory P A V} {moments : List (Moment P A V)}
    {handled : List (Request A V)} (spans : Spans start finish moments)
    (kept : start.trace = start.options.kept handled) :
    finish.options = start.options ∧
      finish.trace = start.options.kept (handled ++ moments.filterMap (·.request?)) := by
  induction moments using List.reverseRecOn generalizing finish with
  | nil =>
    rw [show finish = start from spans, List.filterMap_nil, List.append_nil]
    exact ⟨rfl, kept⟩
  | append_singleton moments t ih =>
    obtain ⟨middle, before, rfl, rfl⟩ := spans_append_iff.1 spans
    obtain ⟨options, past⟩ := ih before
    have found : t.before.options = start.options := options
    have recorded : (t.deed.perform t.before).2.memory.trace = _ := t.trace_perform
    refine ⟨(Deed.run_same t.before [t.deed]).2.trans found, ?_⟩
    rw [← found] at past ⊢
    rw [recorded, List.filterMap_append, ← List.append_assoc]
    cases requested : t.request? with
    | none =>
      rw [List.filterMap_cons_none requested, List.filterMap_nil, List.append_nil]
      exact past
    | some r =>
      rw [List.filterMap_cons_some requested, List.filterMap_nil]
      exact trace_record past r

end Moments

end AbstractStore
