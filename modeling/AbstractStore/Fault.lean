import AbstractStore.Address

/-! Faults and errors.
A fault is offered to a recovery handler; one that no handler recovers becomes an error and ends
the branch of the analysis. -/

namespace AbstractStore

inductive FaultKind where
  | unallocated
  | uninitialized
  deriving DecidableEq

inductive AddressFault (A : Type) where
  /-- There is no cell at the address: it was never allocated, or its cell was collected. -/
  | unallocated (a : A)
  /-- The address was allocated and nothing has been assigned to it. -/
  | uninitialized (a : A)
  deriving DecidableEq

/-- A name that is bound in no scope, with the place where it was met. -/
structure FreeVariable where
  name : Name
  module : ModuleId
  span : Span
  deriving DecidableEq

inductive Error (A : Type) where
  | address (fault : AddressFault A)
  | freeVariable (fault : FreeVariable)
  | scopeUnderflow
  /-- A text was to be read as a value and does not stand for one. -/
  | unreadable (reason : Json.DecodeError)
  | custom (text : String)
  deriving DecidableEq

namespace AddressFault

variable {A : Type}

def kind : AddressFault A → FaultKind
  | .unallocated _ => .unallocated
  | .uninitialized _ => .uninitialized

def address : AddressFault A → A
  | .unallocated a => a
  | .uninitialized a => a

variable [Address A]

def label : AddressFault A → String
  | .unallocated a => "unallocated address " ++ Address.label a
  | .uninitialized a => "uninitialized address " ++ Address.label a

def literal : AddressFault A → String
  | .unallocated a => Literal.call "UnallocatedAddress" [Address.literal a]
  | .uninitialized a => Literal.call "UninitializedAddress" [Address.literal a]

open Json in
def codec : Codec (AddressFault A) where
  encode
    | .unallocated a => Shape.holdingTokens "UnallocatedAddress" (Address.codec.encode a)
    | .uninitialized a => Shape.holdingTokens "UninitializedAddress" (Address.codec.encode a)
  decode := Shape.decode fun name =>
    if name = "UnallocatedAddress" then
      some (.holding do return .unallocated (← Address.codec.decode))
    else if name = "UninitializedAddress" then
      some (.holding do return .uninitialized (← Address.codec.decode))
    else none

end AddressFault

namespace FreeVariable

open Json in
def codec : Codec FreeVariable :=
  (Codec.record ((Fields.one "name" Name.codec).and
    ((Fields.one "module" ModuleId.codec).and (.one "span" Span.codec)))).via
    (fun (name, module, span) => ⟨name, module, span⟩) (fun v => (v.name, v.module, v.span))

end FreeVariable

/-- What an error tells the reader. A text that has not even the form of a value has no message,
since the place of its fault is not kept. -/
def Error.message? {A : Type} [Address A] : Error A → Option String
  | .address (.unallocated a) => some ("Unallocated address: " ++ Address.label a)
  | .address (.uninitialized a) => some ("Uninitialized address: " ++ Address.label a)
  | .freeVariable v => some
      ("Free variable " ++ v.name.label ++ " in " ++ v.module.label ++ " at " ++ v.span.label)
  | .scopeUnderflow => some "Attempted to pop the root scope of an environment"
  | .unreadable .malformed => none
  | .unreadable (.refused reason) | .custom reason => some ("Error: " ++ reason)

end AbstractStore
