import AbstractStore.Machine.Definition
import AbstractStore.Machine.Members

/-! What an evaluator does, as data.
A program asks a machine for one thing after the other and goes on with the answers, errors among
them. A part of it may be evaluated in a scope, in a module or under a handler of its own, and may
be the body of a definition. The search for a member is a program too (`run_lookupMember`), and with
a horizon of its own so is any search that ends, whatever handlers declare
(`Machine.Hunts.run_search`). -/

namespace AbstractStore

open Machine

/-- What a machine can be asked for, indexed by the kind of answer. -/
inductive Op (P A V : Type) [Ord A] [Ord V] : Type → Type 1 where
  | alloc (name : Name) : Op P A V A
  | gc (roots : LiveSet A) : Op P A V Unit
  | collect : Op P A V Unit
  | deref (a : A) : Op P A V (Cell V)
  | assign (a : A) (v : V) : Op P A V Unit
  | lookup (name : Name) : Op P A V (Option A)
  | bind (name : Name) (a : A) : Op P A V Unit
  | pushScope : Op P A V Unit
  | popScope : Op P A V Unit
  | gensym : Op P A V Name
  | box (v : V) : Op P A V A
  | lookupOrAlloc (name : Name) : Op P A V A
  | freeVariable (name : Name) : Op P A V A
  | resolve (name : Name) : Op P A V A
  | addRoot (a : A) : Op P A V Unit
  | removeRoot (a : A) : Op P A V Unit
  | setModule (module : ModuleId) : Op P A V Unit
  | setSpan (span : Span) : Op P A V Unit
  | setRecovery (recovery : Recovery A V) : Op P A V Unit
  /-- Any change of the bindings. -/
  | rebind (change : Environment A → Environment A) : Op P A V Unit
  /-- Look at the machine. -/
  | inspect {β : Type} (view : Machine P A V → β) : Op P A V β

/-- What is in force while a part of a program is evaluated. -/
inductive Setting (A V : Type) [Ord A] where
  /-- The same as before. -/
  | plain
  | locally
  | inModule (module : ModuleId)
  | strictly
  | recovering (handler : AddressHandler A V)
  | recoveringVariables (handler : VariableHandler V)

inductive Program (P A V : Type) [Ord A] [Ord V] : Type → Type 1 where
  | done {α : Type} (result : Except (Error A) α) : Program P A V α
  | act {α β : Type} (op : Op P A V β) (next : Except (Error A) β → Program P A V α) :
      Program P A V α
  | within {α β : Type} (setting : Setting A V) (body : Program P A V β)
      (next : Except (Error A) β → Program P A V α) : Program P A V α
  | define {α : Type} (name : Name) (body : Program P A V V)
      (next : Except (Error A) (V × A) → Program P A V α) : Program P A V α
  | delegate {α β : Type} (name : Name) (body : A → Program P A V β)
      (next : Except (Error A) β → Program P A V α) : Program P A V α

section Order

variable {P A V α : Type} [Ord A] [Ord V]

/-- What comes of an evaluation from a machine, and the machine that it leaves. -/
def Machine.outcome (eval : Eval P A V α) (m : Machine P A V) :
    Except (Error A) α × Machine P A V := Id.run (eval m)

theorem Machine.outcome_bind {β : Type} (eval : Eval P A V α) (next : α → Eval P A V β)
    (m : Machine P A V) :
    outcome (eval >>= next) m =
      match outcome eval m with
      | (.ok a, after) => outcome (next a) after
      | (.error e, after) => (.error e, after) := by
  have continued : outcome (eval >>= next) m =
    Id.run (ExceptT.bindCont next (outcome eval m).1 (outcome eval m).2) := rfl
  rw [continued]
  rcases outcome eval m with ⟨_ | _, after⟩ <;> rfl

theorem Machine.outcome_popScope (m : Machine P A V) :
    outcome popScope m = match m.environment.pop? with
      | some (_, environment) => (.ok (), { m with environment })
      | none => (.error .scopeUnderflow, m) := rfl

theorem Machine.outcome_locally (body : Eval P A V α) (m : Machine P A V) :
    outcome (locally body) m =
      let (result, after) := outcome body (pushScope m).2
      match outcome popScope after with
      | (.ok (), final) => (result, final)
      | (.error e, final) => (.error e, final) := rfl

/-- Evaluate with an error as one of the answers. -/
def Machine.observe (eval : Eval P A V α) : Eval P A V (Except (Error A) α) := ExceptT.mk fun m =>
  let (result, m) := outcome eval m
  (.ok result, m)

def Setting.enclose (setting : Setting A V) (body : Eval P A V α) : Eval P A V α :=
  match setting with
  | .plain => body
  | .locally => Machine.locally body
  | .inModule module => Machine.inModule module body
  | .strictly => Machine.strictly body
  | .recovering handler => Machine.recovering handler body
  | .recoveringVariables handler => Machine.recoveringVariables handler body

end Order

section Faults

variable {P A V : Type} [Address A] [Value V A]

theorem Machine.outcome_resume (fault : AddressFault A) (m : Machine P A V) :
    outcome (resume fault) m = match m.recovery.answerAddress fault with
      | some v => (.ok (.singleton v), m.note (.resumedFault fault v))
      | none => (.error (.address fault), m) := rfl

theorem Machine.outcome_deref (a : A) (m : Machine P A V) :
    outcome (deref a) m =
      let asked := (m.record (.deref a)).note (.dereferenced a)
      match m.heap.lookup a with
      | none => outcome (resume (.unallocated a)) asked
      | some c =>
        if c.isEmpty then outcome (resume (.uninitialized a)) asked else (.ok c, asked) := rfl

end Faults

variable {P A V : Type} [Address A] [AllocationPolicy P A] [Value V A]

theorem Machine.outcome_freeVariable (name : Name) (m : Machine P A V) :
    outcome (freeVariable name) m =
      let fault : FreeVariable := ⟨name, m.module, m.span⟩
      match m.recovery.answerVariable fault with
      | some v =>
        let (a, after) := box v (m.note (.resumedVariable fault v))
        (.ok a, after)
      | none => (.error (.freeVariable fault), m) := rfl

theorem Machine.outcome_resolve (name : Name) (m : Machine P A V) :
    outcome (resolve name) m = match m.lookup name with
      | some a => (.ok a, m)
      | none => outcome (freeVariable name) m := rfl

def Op.perform {β : Type} : Op P A V β → Eval P A V β
  | .alloc name => Machine.perform (Machine.alloc name)
  | .gc roots => Machine.perform (Machine.gc roots)
  | .collect => Machine.perform Machine.collect
  | .deref a => Machine.deref a
  | .assign a v => Machine.perform (Machine.assign a v)
  | .lookup name => Machine.perform fun m => (m.lookup name, m)
  | .bind name a => Machine.perform (Machine.bind name a)
  | .pushScope => Machine.perform Machine.pushScope
  | .popScope => Machine.popScope
  | .gensym => Machine.perform Machine.gensym
  | .box v => Machine.perform (Machine.box v)
  | .lookupOrAlloc name => Machine.perform (Machine.lookupOrAlloc name)
  | .freeVariable name => Machine.freeVariable name
  | .resolve name => Machine.resolve name
  | .addRoot a => Machine.perform fun m => ((), m.addRoot a)
  | .removeRoot a => Machine.perform fun m => ((), m.removeRoot a)
  | .setModule module => Machine.perform fun m => ((), { m with module })
  | .setSpan span => Machine.perform fun m => ((), { m with span })
  | .setRecovery recovery => Machine.perform fun m => ((), { m with recovery })
  | .rebind change =>
      Machine.perform fun m => ((), { m with environment := change m.environment })
  | .inspect view => Machine.perform fun m => (view m, m)

namespace Program

def run {α : Type} : Program P A V α → Eval P A V α
  | .done result => ExceptT.mk (pure result)
  | .act op next => do (next (← observe op.perform)).run
  | .within setting body next => do (next (← observe (setting.enclose body.run))).run
  | .define name body next => do (next (← observe (Machine.define name body.run))).run
  | .delegate name body next => do
      (next (← observe (Machine.delegate name fun a => (body a).run))).run

theorem outcome_act {α β : Type} (op : Op P A V β)
    (next : Except (Error A) β → Program P A V α) (m : Machine P A V) :
    outcome (act op next).run m =
      let (answer, after) := outcome op.perform m
      outcome (next answer).run after := rfl

section Members

variable {P A : Type} [Address A]

/-- The search for a member, asking for one cell after the other. -/
def search (member : Name) (horizon visited : LiveSet A) (stack : List A) :
    Program P A (Object A) (Finding A) :=
  match stack with
  | [] => .done (.ok .absent)
  | a :: stack =>
      if seen : a ∈ visited then search member horizon visited stack
      else if inside : a ∈ horizon then .act (.deref a) fun
        | .error e => .done (.error e)
        | .ok c => match glance member [] c.toList with
          | .defined found => .done (.ok (.found found))
          | .undefined above =>
              have : (horizon \ visited.insert a).size < (horizon \ visited).size :=
                AscSet.size_lt_of_subset (a := a) (by simp; grind) (by simp [seen, inside])
                  (by simp)
              search member horizon (visited.insert a) (above ++ stack)
      else .done (.ok (.beyond a))
termination_by ((horizon \ visited).size, stack.length)

def lookupMember (a : A) (member : Name) : Program P A (Object A) (Finding A) :=
  .act (.inspect fun m => horizon m a) fun
    | .error e => .done (.error e)
    | .ok horizon => search member horizon ∅ [a]

variable [AllocationPolicy P A]

theorem outcome_search (member : Name) (horizon visited : LiveSet A) (stack : List A)
    (m : Machine P A (Object A)) :
    outcome (search member horizon visited stack).run m =
      Machine.search member horizon visited stack m := by
  fun_induction Machine.search member horizon visited stack m with
  | case1 =>
    rw [search]
    rfl
  | case2 visited m a stack seen ih =>
    rw [search, dif_pos seen]
    exact ih
  | case3 visited m a stack unseen inside e after failed =>
    have asked : outcome (deref a) m = (.error e, after) := failed
    rw [search, dif_neg unseen, dif_pos inside, outcome_act, Op.perform, asked]
    rfl
  | case4 visited m a stack unseen inside c after read found defined =>
    have asked : outcome (deref a) m = (.ok c, after) := read
    rw [search, dif_neg unseen, dif_pos inside, outcome_act, Op.perform, asked]
    simp only [defined]
    rfl
  | case5 visited m a stack unseen inside c after read above undefined _ ih =>
    have asked : outcome (deref a) m = (.ok c, after) := read
    rw [search, dif_neg unseen, dif_pos inside, outcome_act, Op.perform, asked]
    simp only [undefined]
    exact ih
  | case6 visited m a stack unseen outside =>
    rw [search, dif_neg unseen, dif_neg outside]
    rfl

theorem run_lookupMember (a : A) (member : Name) :
    (lookupMember a member : Program P A _ _).run = Machine.lookupMember a member :=
  funext fun m => outcome_search member (horizon m a) ∅ [a] m

end Members

end Program

end AbstractStore
