import AbstractStore.Machine.Requests
import AbstractStore.Machine.Scope

/-! What evaluators of syntax call: boxes, variables and definitions.
A definition has its address before its body is evaluated, so that the body can refer to it: a
recursive function and a class that reads itself find the address that they are to be stored at. -/

namespace AbstractStore.Machine

variable {P A V α : Type} [Address A] [AllocationPolicy P A] [Value V A]
variable {μ : Type → Type} [Monad μ]

/-- Store a value at an address of its own. -/
def box (v : V) : Action P A V A := do
  let name ← gensym
  let a ← alloc name
  assign a v
  return a

/-- The address that a name is bound to, or else a newly allocated one, which stays unbound. -/
def lookupOrAlloc (name : Name) : Action P A V A := fun m =>
  match m.lookup name with
  | some a => (a, m)
  | none => alloc name m

/-- Report that a name is unbound. A value that the handler gives for it is boxed. -/
def freeVariable (name : Name) : Eval P A V A := ExceptT.mk fun m =>
  let fault : FreeVariable := ⟨name, m.module, m.span⟩
  match m.recovery.answerVariable fault with
  | some v =>
      let (a, m) := box v (m.note (.resumedVariable fault v))
      (.ok a, m)
  | none => (.error (.freeVariable fault), m)

def resolve (name : Name) : Eval P A V A := ExceptT.mk fun m =>
  match m.lookup name with
  | some a => (.ok a, m)
  | none => freeVariable name m

/-- Define a name by the value of `body`, which is evaluated in a scope that binds the name, and
stored when it has been found. The name is not bound afterwards. -/
def define (name : Name) (body : EvalT P A V μ V) : EvalT P A V μ (V × A) := do
  let a ← perform (lookupOrAlloc name)
  perform fun m => ((), m.note (.defining name a))
  let v ← locally do
    perform (bind name a)
    body
  perform (assign a v)
  return (v, a)

/-- As `define`, but `body` is given the address and stores there what it likes. -/
def delegate (name : Name) (body : A → EvalT P A V μ α) : EvalT P A V μ α := do
  let a ← perform (lookupOrAlloc name)
  perform fun m => ((), m.note (.delegating name a))
  locally do
    perform (bind name a)
    body a

end AbstractStore.Machine
