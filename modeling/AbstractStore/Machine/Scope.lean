import AbstractStore.Machine.State

/-! What is in force while a part of a program is evaluated: the innermost scope, the module and
the handlers. Each is put back when the part has been evaluated, with or without success. -/

namespace AbstractStore.Machine

section Order

variable {P A V α : Type} [Ord A] [Ord V] {μ : Type → Type} [Monad μ]

def lookup (m : Machine P A V) (name : Name) : Option A := m.environment.lookup name

def bind (name : Name) (a : A) : Action P A V Unit := fun m =>
  ((), { m with environment := m.environment.bind name a }.note (.bound name a))

def pushScope : Action P A V Unit := fun m => ((), { m with environment := m.environment.push })

def popScope : Eval P A V Unit := ExceptT.mk fun m =>
  match m.environment.pop? with
  | some (_, environment) => (.ok (), { m with environment })
  | none => (.error .scopeUnderflow, m)

/-- A generated name that this machine has not handed out. -/
def gensym : Action P A V Name := fun m =>
  let (name, names) := m.names.fresh
  (name, { m with names })

/-- Evaluate `body` in a scope of its own. Where that scope cannot be left, this is the error,
whatever came of the body. -/
def locally (body : EvalT P A V μ α) : EvalT P A V μ α := ExceptT.mk fun m => do
  let (_, m) := pushScope m
  let (result, m) ← body.run m
  match Id.run (popScope m) with
  | (.ok (), m) => pure (result, m)
  | (.error e, m) => pure (.error e, m)

def inModule (module : ModuleId) (body : EvalT P A V μ α) : EvalT P A V μ α :=
  ExceptT.mk fun m => do
    let (result, after) ← body.run { m with module }
    pure (result, { after with module := m.module })

/-- Evaluate `body` under a handler for faults at addresses, or under none. -/
def withAddressHandler (handler : Option (AddressHandler A V)) (body : EvalT P A V μ α) :
    EvalT P A V μ α :=
  ExceptT.mk fun m => do
    let (result, after) ← body.run { m with recovery := { m.recovery with address := handler } }
    pure (result,
      { after with recovery := { after.recovery with address := m.recovery.address } })

/-- Evaluate `body` with faults at addresses becoming errors. -/
def strictly (body : EvalT P A V μ α) : EvalT P A V μ α := withAddressHandler none body

/-- Evaluate `body`, resuming faults at addresses with the answers of `handler`. -/
def recovering (handler : AddressHandler A V) (body : EvalT P A V μ α) : EvalT P A V μ α :=
  withAddressHandler (some handler) body

/-- Evaluate `body`, resuming free variables with the answers of `handler`. -/
def recoveringVariables (handler : VariableHandler V) (body : EvalT P A V μ α) :
    EvalT P A V μ α :=
  ExceptT.mk fun m => do
    let (result, after) ←
      body.run { m with recovery := { m.recovery with freeVariable := some handler } }
    pure (result,
      { after with recovery := { after.recovery with freeVariable := m.recovery.freeVariable } })

end Order

end AbstractStore.Machine
