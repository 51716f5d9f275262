import AbstractStore.Proofs.Occasions
import AbstractStore.Proofs.Trace

/-! What does not depend on the trace.
With other settings for the trace a program performs the same operations, as long as none of them
looks at it. They have the same answers and leave the same machines but for the trace
(`Program.passive_run`, `Program.occasions_untraced`), and the same requests are handled for them
(`Occasion.requests_untraced`). -/

namespace AbstractStore

open Machine

def Options.untraced (o : Options) : Options := { o with trace := false, traceLimit := none }

section Order

variable {P A V α β : Type} [Ord A] [Ord V]

/-- The machine as it would be if it traced nothing. -/
def Machine.untraced (m : Machine P A V) : Machine P A V :=
  { m with options := m.options.untraced, trace := [] }

/-- An evaluation neither reads the trace nor depends on whether there is one. -/
def Passive (eval : Eval P A V α) : Prop :=
  ∀ m : Machine P A V,
    outcome eval m.untraced = ((outcome eval m).1, (outcome eval m).2.untraced)

/-- An operation does not look at the trace. -/
def Op.Unaware : Op P A V β → Prop
  | .inspect view => ∀ m, view m.untraced = view m
  | _ => True

/-- No operation looks at the trace. -/
def Program.Unaware {α : Type} : Program P A V α → Prop
  | .done _ => True
  | .act op next => op.Unaware ∧ ∀ answer, (next answer).Unaware
  | .within _ body next => body.Unaware ∧ ∀ answer, (next answer).Unaware
  | .define _ body next => body.Unaware ∧ ∀ answer, (next answer).Unaware
  | .delegate _ body next => (∀ a, (body a).Unaware) ∧ ∀ answer, (next answer).Unaware

theorem Setting.enter_untraced (setting : Setting A V) (m : Machine P A V) :
    setting.enter m.untraced = (setting.enter m).untraced := by
  cases setting <;> rfl

namespace Passive

theorem observe {first : Eval P A V β} {next : Except (Error A) β → Eval P A V α}
    (passive : Passive first) (later : ∀ answer, Passive (next answer)) :
    Passive (Machine.observe first >>= next) := by
  intro m
  have continued (m : Machine P A V) : outcome (Machine.observe first >>= next) m =
    outcome (next (outcome first m).1) (outcome first m).2 := rfl
  rw [continued, continued, passive m]
  exact later _ _

theorem popScope : Passive (Machine.popScope : Eval P A V Unit) := by
  intro m
  have same : m.untraced.environment = m.environment := rfl
  rw [outcome_popScope, outcome_popScope, same]
  cases m.environment.pop? <;> rfl

theorem locally {body : Eval P A V α} (passive : Passive body) :
    Passive (Machine.locally body) := by
  intro m
  have entered : (pushScope m.untraced).2 = (pushScope m).2.untraced := rfl
  rw [outcome_locally, outcome_locally, entered, passive]
  -- The scope may be gone, and then the error that it cannot be left is the same.
  simp only [popScope _]
  generalize outcome Machine.popScope (outcome body (pushScope m).2).2 = left
  rcases left with ⟨_ | _, left⟩ <;> rfl

theorem bindName {eval : Eval P A V α} (passive : Passive eval) (name : Name) (a : A) :
    Passive (perform (Machine.bind name a) >>= fun _ => eval) :=
  fun m => passive (Machine.bind name a m).2

theorem withAddressHandler {body : Eval P A V α} (passive : Passive body)
    (handler : Option (AddressHandler A V)) : Passive (Machine.withAddressHandler handler body) :=
  fun m => congrArg (fun ended => (ended.1,
      { ended.2 with recovery := { ended.2.recovery with address := m.recovery.address } }))
    (passive { m with recovery := { m.recovery with address := handler } })

theorem enclose {body : Eval P A V α} (passive : Passive body) (setting : Setting A V) :
    Passive (setting.enclose body) := by
  intro m
  cases setting with
  | plain => exact passive m
  | locally => exact passive.locally m
  | inModule module =>
    exact congrArg (fun ended => (ended.1, { ended.2 with module := m.module }))
      (passive { m with module })
  | strictly => exact passive.withAddressHandler none m
  | recovering handler => exact passive.withAddressHandler (some handler) m
  | recoveringVariables handler =>
    exact congrArg (fun ended => (ended.1,
        { ended.2 with
          recovery := { ended.2.recovery with freeVariable := m.recovery.freeVariable } }))
      (passive { m with recovery := { m.recovery with freeVariable := some handler } })

end Passive

end Order

section Faults

variable {P A V : Type} [Address A] [Value V A]

namespace Passive

theorem resume (fault : AddressFault A) : Passive (Machine.resume fault : Eval P A V _) := by
  intro m
  have same : m.untraced.recovery = m.recovery := rfl
  rw [outcome_resume, outcome_resume, same]
  cases m.recovery.answerAddress fault <;> rfl

theorem deref (a : A) : Passive (Machine.deref a : Eval P A V _) := by
  intro m
  let asked := (m.record (.deref a)).note (.dereferenced a)
  have same : m.untraced.heap = m.heap := rfl
  have noted : (m.untraced.record (.deref a)).note (.dereferenced a) = asked.untraced := rfl
  simp only [outcome_deref, same, noted]
  cases m.heap.lookup a with
  | none => exact resume (.unallocated a) asked
  | some c =>
    by_cases empty : c.isEmpty = true
    · simp only [empty, if_true]
      exact resume (.uninitialized a) asked
    · simp only [empty]
      rfl

end Passive

end Faults

section Evaluations

variable {P A V : Type} [Address A] [Value V A] [AllocationPolicy P A]

namespace Passive

theorem freeVariable (name : Name) : Passive (Machine.freeVariable name : Eval P A V A) := by
  intro m
  have same : m.untraced.recovery = m.recovery := rfl
  have there : m.untraced.module = m.module := rfl
  have place : m.untraced.span = m.span := rfl
  simp only [outcome_freeVariable, same, there, place]
  cases m.recovery.answerVariable ⟨name, m.module, m.span⟩ <;> rfl

theorem resolve (name : Name) : Passive (Machine.resolve name : Eval P A V A) := by
  intro m
  have same : m.untraced.lookup name = m.lookup name := rfl
  rw [outcome_resolve, outcome_resolve, same]
  cases m.lookup name with
  | some a => rfl
  | none => exact freeVariable name m

end Passive

theorem Machine.lookupOrAlloc_untraced (name : Name) (m : Machine P A V) :
    lookupOrAlloc name m.untraced =
      ((lookupOrAlloc name m).1, (lookupOrAlloc name m).2.untraced) := by
  have same : m.untraced.lookup name = m.lookup name := rfl
  unfold lookupOrAlloc
  rw [same]
  cases m.lookup name <;> rfl

theorem Op.passive_perform {β : Type} {op : Op P A V β} (unaware : op.Unaware) :
    Passive op.perform := by
  cases op with
  | deref a => exact .deref a
  | popScope => exact .popScope
  | freeVariable name => exact .freeVariable name
  | resolve name => exact .resolve name
  | lookupOrAlloc name =>
    exact fun m => congrArg (fun placed => (Except.ok placed.1, placed.2))
      (lookupOrAlloc_untraced name m)
  | inspect view => exact fun m => congrArg (fun seen => (Except.ok seen, m.untraced)) (unaware m)
  | alloc | gc | collect | assign | lookup | bind | pushScope | gensym | box | addRoot | removeRoot
  | setModule | setSpan | setRecovery | rebind => exact fun m => rfl

namespace Machine

theorem opened_untraced (announce : Name → A → Event A V) (name : Name) (m : Machine P A V) :
    m.untraced.opened announce name =
      ((m.opened announce name).1, (m.opened announce name).2.untraced) := by
  unfold opened
  rw [lookupOrAlloc_untraced]
  rfl

theorem evaluated_untraced {body : Eval P A V V} (passive : Passive body) (name : Name)
    (m : Machine P A V) : m.untraced.evaluated name body =
      ((m.evaluated name body).1, (m.evaluated name body).2.untraced) := by
  let placed := lookupOrAlloc name m
  unfold evaluated
  rw [lookupOrAlloc_untraced]
  exact (passive.bindName name placed.1).locally (placed.2.note (.defining name placed.1))

end Machine

namespace Passive

theorem define {body : Eval P A V V} (passive : Passive body) (name : Name) :
    Passive (Machine.define name body) := by
  intro m
  rw [outcome_define_eq, outcome_define_eq, evaluated_untraced passive, opened_untraced]
  rcases m.evaluated name body with ⟨e | v, left⟩ <;> rfl

theorem delegate {α : Type} {body : A → Eval P A V α} (passive : ∀ a, Passive (body a))
    (name : Name) : Passive (Machine.delegate name body) := by
  intro m
  let placed := lookupOrAlloc name m
  have delegated (n : Machine P A V) : outcome (Machine.delegate name body) n =
    let placed := lookupOrAlloc name n
    outcome (Machine.locally (perform (Machine.bind name placed.1) >>= fun _ => body placed.1))
      (placed.2.note (.delegating name placed.1)) := rfl
  rw [delegated, delegated, lookupOrAlloc_untraced]
  exact ((passive placed.1).bindName name placed.1).locally
    (placed.2.note (.delegating name placed.1))

end Passive

theorem Program.passive_run {α : Type} {program : Program P A V α} (unaware : program.Unaware) :
    Passive program.run := by
  induction program with
  | done result => exact fun m => rfl
  | act op next ih =>
    exact (Op.passive_perform unaware.1).observe fun answer => ih answer (unaware.2 answer)
  | within setting body next ih_body ih_next =>
    exact ((ih_body unaware.1).enclose setting).observe fun answer =>
      ih_next answer (unaware.2 answer)
  | define name body next ih_body ih_next =>
    exact ((ih_body unaware.1).define name).observe fun answer => ih_next answer (unaware.2 answer)
  | delegate name body next ih_body ih_next =>
    exact (Passive.delegate (fun a => ih_body a (unaware.1 a)) name).observe fun answer =>
      ih_next answer (unaware.2 answer)

/-! ### Operations and their requests -/

theorem Machine.requests_box (v : V) (m : Machine P A V) :
    (momentsOfBox v m).filterMap (·.request?) =
      [.alloc m.names.fresh.1,
        .assign (AllocationPolicy.allocate m.policy m.names.fresh.1 m.module).1 v] := rfl

theorem Machine.requests_freeVariable_untraced (name : Name) (m : Machine P A V) :
    (momentsOfFreeVariable name m.untraced).filterMap (·.request?) =
      (momentsOfFreeVariable name m).filterMap (·.request?) := by
  have same : m.untraced.recovery = m.recovery := rfl
  have there : m.untraced.module = m.module := rfl
  have place : m.untraced.span = m.span := rfl
  simp only [momentsOfFreeVariable, same, there, place]
  cases m.recovery.answerVariable ⟨name, m.module, m.span⟩ with
  | none => rfl
  | some v => exact (requests_box v _).trans (requests_box v _).symm

namespace Occasion

/-- What is seen of an operation where nothing is traced. -/
def untraced (o : Occasion P A V) : Occasion P A V :=
  { o with before := o.before.untraced, after := o.after.untraced }

/-- The requests that are handled for an operation. -/
def requests (o : Occasion P A V) : List (Request A V) := o.moments.filterMap (·.request?)

theorem requests_untraced (o : Occasion P A V) : o.untraced.requests = o.requests := by
  obtain ⟨op, m, answer, after⟩ := o
  cases op with
  | lookupOrAlloc name =>
    have same : m.untraced.lookup name = m.lookup name := rfl
    simp only [requests, moments, untraced, Op.moments, momentsOfLookupOrAlloc, same]
    cases m.lookup name <;> rfl
  | box v => exact (requests_box v m.untraced).trans (requests_box v m).symm
  | freeVariable name => exact m.requests_freeVariable_untraced name
  | resolve name =>
    have same : m.untraced.lookup name = m.lookup name := rfl
    simp only [requests, moments, untraced, Op.moments, momentsOfResolve, same]
    cases m.lookup name with
    | some a => rfl
    | none => exact m.requests_freeVariable_untraced name
  | alloc | gc | collect | deref | assign | lookup | bind | pushScope | popScope | gensym | addRoot
  | removeRoot | setModule | setSpan | setRecovery | rebind | inspect => rfl

end Occasion

theorem Op.occasion_untraced {β : Type} {op : Op P A V β} (unaware : op.Unaware)
    (m : Machine P A V) : op.occasion m.untraced = (op.occasion m).untraced := by
  rw [occasion, passive_perform unaware m]
  rfl

theorem Machine.occasionsOfStore_untraced (a : A) (ended : Except (Error A) V × Machine P A V) :
    occasionsOfStore a (ended.1, ended.2.untraced) =
      (occasionsOfStore a ended).map Occasion.untraced := by
  rcases ended with ⟨e | v, left⟩ <;> rfl

/-- The same operations are performed, with the same answers and effects but for the trace. -/
theorem Program.occasions_untraced {α : Type} {program : Program P A V α}
    (unaware : program.Unaware) (m : Machine P A V) :
    program.occasions m.untraced = (program.occasions m).map Occasion.untraced := by
  induction program generalizing m with
  | done result => rfl
  | act op next ih =>
    simp only [occasions, List.map_cons, Op.occasion_untraced unaware.1,
      Op.passive_perform unaware.1 m, ih _ (unaware.2 _)]
  | within setting body next ih_body ih_next =>
    have ended := (passive_run unaware.1).enclose setting m
    simp only [occasions, List.map_append, setting.enter_untraced, ended, ih_body unaware.1,
      ih_next _ (unaware.2 _)]
  | define name body next ih_body ih_next =>
    have passive := passive_run unaware.1
    have drawn : (Op.lookupOrAlloc name : Op P A V A).Unaware := trivial
    simp only [occasions, List.map_append, List.map_cons, Op.occasion_untraced drawn,
      opened_untraced, evaluated_untraced passive, passive.define name m, ih_body unaware.1,
      ih_next _ (unaware.2 _), occasionsOfStore_untraced]
  | delegate name body next ih_body ih_next =>
    have passive := Passive.delegate (fun a => passive_run (unaware.1 a)) name m
    have drawn : (Op.lookupOrAlloc name : Op P A V A).Unaware := trivial
    simp only [occasions, List.map_append, List.map_cons, Op.occasion_untraced drawn,
      opened_untraced, passive, ih_body _ (unaware.1 _), ih_next _ (unaware.2 _)]

end Evaluations

/-! ### The search for a member -/

namespace Program

variable {P A : Type} [Address A]

theorem unaware_search (member : Name) (horizon visited : LiveSet A) (stack : List A) :
    (search member horizon visited stack : Program P A (Object A) _).Unaware := by
  fun_induction search member horizon visited stack with
  | case1 => trivial
  | case2 visited a stack seen ih => exact ih
  | case3 visited a stack unseen inside ih =>
    refine ⟨trivial, fun answer => ?_⟩
    cases answer with
    | error e => trivial
    | ok c =>
      simp only
      cases glance member [] c.toList with
      | defined found => trivial
      | undefined above => exact ih above
  | case4 visited a stack unseen outside => trivial

theorem unaware_lookupMember (a : A) (member : Name) :
    (lookupMember a member : Program P A (Object A) _).Unaware := by
  refine ⟨fun m => rfl, fun answer => ?_⟩
  cases answer with
  | error e => trivial
  | ok horizon => exact unaware_search member horizon ∅ [a]

end Program

end AbstractStore
