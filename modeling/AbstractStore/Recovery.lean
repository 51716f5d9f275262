import AbstractStore.Fault
import AbstractStore.Value

/-! Recovery from faults.
A handler is asked for a value to go on with. Tables of rules give handlers: the first rule that
fits a fault decides. -/

namespace AbstractStore

variable {A V : Type}

/-- Answers for faults at addresses. `reach` declares the addresses that its values embed, so that
a search that follows them knows how far they lead. -/
structure AddressHandler (A V : Type) [Ord A] where
  answer : AddressFault A → Option V
  reach : LiveSet A := ∅

abbrev VariableHandler (V : Type) := FreeVariable → Option V

/-- How faults are resumed. Where no handler is installed they become errors. -/
structure Recovery (A V : Type) [Ord A] where
  address : Option (AddressHandler A V) := none
  freeVariable : Option (VariableHandler V) := none

namespace Recovery

variable [Ord A]

def answerAddress (r : Recovery A V) (fault : AddressFault A) : Option V :=
  r.address.bind (·.answer fault)

def answerVariable (r : Recovery A V) (fault : FreeVariable) : Option V :=
  r.freeVariable.bind (· fault)

def literal (r : Recovery A V) : String :=
  Literal.fields "Recovery" [("address", Literal.bool r.address.isSome),
    ("free_variable", Literal.bool r.freeVariable.isSome)]

end Recovery

/-- A rule for faults at addresses: it fits where all that it states holds. -/
structure AddressRule (A V : Type) where
  kind : Option FaultKind := none
  address : Option A := none
  /-- The value to go on with, or `none` to let the fault be. -/
  value : Option V := none

/-- A rule for free variables: it fits where all that it states holds. -/
structure VariableRule (V : Type) where
  name : Option Name := none
  module : Option ModuleId := none
  line : Option UInt64 := none
  value : Option V := none

/-- Whether a condition is met; one that is left out always is. -/
def meets {α : Type} [BEq α] (condition : Option α) (actual : α) : Bool :=
  match condition with
  | none => true
  | some wanted => wanted == actual

namespace AddressRule

def fits [DecidableEq A] (rule : AddressRule A V) (fault : AddressFault A) : Bool :=
  meets rule.kind fault.kind && meets rule.address fault.address

def handler [Address A] [Value V A] (rules : List (AddressRule A V)) : AddressHandler A V where
  answer fault := (rules.find? (·.fits fault)).bind (·.value)
  reach := .ofList ((rules.filterMap (·.value)).flatMap Value.embedded)

end AddressRule

namespace VariableRule

def fits (rule : VariableRule V) (fault : FreeVariable) : Bool :=
  meets rule.name fault.name && meets rule.module fault.module &&
    meets rule.line fault.span.first.line

def handler (rules : List (VariableRule V)) : VariableHandler V :=
  fun fault => (rules.find? (·.fits fault)).bind (·.value)

end VariableRule

end AbstractStore
