import AbstractStore.Fault
import AbstractStore.Value

/-! What a machine tells of its work as it goes. -/

namespace AbstractStore

inductive Level where
  | trace
  | debug
  | warn
  deriving DecidableEq

def Level.label : Level → String
  | .trace => "TRACE"
  | .debug => "DEBUG"
  | .warn => "WARN"

inductive Event (A V : Type) where
  | allocated (name : Name) (a : A)
  | dereferenced (a : A)
  | assigned (a : A) (v : V)
  | bound (name : Name) (a : A)
  /-- A number of addresses was reached from a number of roots. -/
  | reached (roots addresses : Nat)
  /-- A collection from a number of roots kept some of the cells there were before. -/
  | collected (roots kept before : Nat)
  | defining (name : Name) (a : A)
  /-- The body of a definition is given the address and stores what it likes. -/
  | delegating (name : Name) (a : A)
  | resumedFault (fault : AddressFault A) (v : V)
  | resumedVariable (fault : FreeVariable) (v : V)
  deriving DecidableEq

namespace Event

variable {A V : Type}

def level : Event A V → Level
  | .collected .. => .debug
  | .resumedFault .. | .resumedVariable .. => .warn
  | _ => .trace

variable [Address A] [Value V A]

def message : Event A V → String
  | .allocated name a => "alloc " ++ name.label ++ " -> " ++ Address.label a
  | .dereferenced a => "deref " ++ Address.label a
  | .assigned a v => "assign " ++ Address.label a ++ " " ++ Value.literal v
  | .bound name a => "bind " ++ name.label ++ " -> " ++ Address.label a
  | .reached roots addresses => "reachable: " ++ Decimal.text roots ++ " roots reach " ++
      Decimal.text addresses ++ " addresses"
  | .collected roots kept before => "gc: " ++ Decimal.text roots ++ " roots kept " ++
      Decimal.text kept ++ " of " ++ Decimal.text before ++ " cells"
  | .defining name a => "letrec " ++ name.label ++ " at " ++ Address.label a
  | .delegating name a => "letrec_ " ++ name.label ++ " at " ++ Address.label a
  | .resumedFault fault v => "resuming from " ++ fault.label ++ " with " ++ Value.literal v
  | .resumedVariable fault v => "resuming from free variable " ++ fault.name.label ++ " in " ++
      fault.module.label ++ " with " ++ Value.literal v

def line (e : Event A V) : String := e.level.label ++ " " ++ e.message

end Event

end AbstractStore
