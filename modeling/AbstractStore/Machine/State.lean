import AbstractStore.Environment
import AbstractStore.Event
import AbstractStore.Heap.Reachable
import AbstractStore.Recovery
import AbstractStore.Request

/-! The state of an abstract interpretation.
A machine is a value: a branch of an analysis is forked by keeping the machine as it is. -/

namespace AbstractStore

structure Options where
  trace : Bool := false
  /-- The most requests that are kept; the oldest are dropped. -/
  traceLimit : Option Nat := none
  /-- How assignments are stored, in the stead of what the policy says. -/
  storeMode : Option StoreMode := none
  deriving DecidableEq

structure Machine (P A V : Type) [Ord A] [Ord V] where
  policy : P
  heap : Heap A V := {}
  environment : Environment A := {}
  names : NameSupply := {}
  /-- Addresses held by the evaluator outside the environment. -/
  stackRoots : LiveSet A := ∅
  module : ModuleId := {}
  span : Span := {}
  recovery : Recovery A V := {}
  options : Options := {}
  trace : List (Request A V) := []
  journal : List (Event A V) := []

/-- A step of an evaluation that cannot fail. -/
abbrev Action (P A V : Type) [Ord A] [Ord V] := StateM (Machine P A V)

/-- An evaluation that may end in an error, among the further effects of an evaluator. What it did
to the machine before the error stays. -/
abbrev EvalT (P A V : Type) [Ord A] [Ord V] (μ : Type → Type) :=
  ExceptT (Error A) (StateT (Machine P A V) μ)

abbrev Eval (P A V : Type) [Ord A] [Ord V] := EvalT P A V Id

namespace Machine

section Order

variable {P A V α : Type} [Ord A] [Ord V] {μ : Type → Type} [Monad μ]

def perform (step : Action P A V α) : EvalT P A V μ α :=
  ExceptT.mk fun m =>
    let (a, m) := step m
    pure (.ok a, m)

/-- An evaluation without further effects as part of one that has some. -/
def attempt (eval : Eval P A V α) : EvalT P A V μ α :=
  ExceptT.mk fun m => pure (Id.run (eval m))

def note (m : Machine P A V) (e : Event A V) : Machine P A V :=
  { m with journal := m.journal ++ [e] }

/-- The last requests of a list, as many as the limit allows. -/
def keepLast {β : Type} (limit : Option Nat) (requests : List β) : List β :=
  match limit with
  | none => requests
  | some n => requests.drop (requests.length - n)

def record (m : Machine P A V) (r : Request A V) : Machine P A V :=
  { m with
    trace :=
      if m.options.trace then keepLast m.options.traceLimit (m.trace ++ [r]) else m.trace }

end Order

variable {P A V : Type} [Address A] [Value V A]

/-- The addresses to keep: all that are bound in the environment or held by the evaluator. -/
def liveRoots (m : Machine P A V) : LiveSet A := m.environment.roots ∪ m.stackRoots

def addRoot (m : Machine P A V) (a : A) : Machine P A V :=
  { m with stackRoots := m.stackRoots.insert a }

def removeRoot (m : Machine P A V) (a : A) : Machine P A V :=
  { m with stackRoots := m.stackRoots.erase a }

end Machine

end AbstractStore
