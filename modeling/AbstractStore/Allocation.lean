import AbstractStore.Address

/-! Allocation policies.
The precision of an analysis lies mostly in how many addresses it makes. An address that stands
for many allocations must not lose what was stored for one of them when another is assigned, so a
policy also says how assignments to its addresses are stored. -/

namespace AbstractStore

/-- How an assignment treats what its address holds already. -/
inductive StoreMode where
  /-- The value replaces what was there. -/
  | strong
  /-- The value joins what was there. -/
  | weak
  deriving DecidableEq

open Json in
def StoreMode.codec : Codec StoreMode where
  encode
    | .strong => Shape.bareTokens "Strong"
    | .weak => Shape.bareTokens "Weak"
  decode := Shape.decode fun name =>
    if name = "Strong" then some (.bare .strong)
    else if name = "Weak" then some (.bare .weak)
    else none

class AllocationPolicy (P : Type) (A : outParam Type) where
  initial : P
  /-- The address for a name, asked for while a module is evaluated, and the policy after it. -/
  allocate : P → Name → ModuleId → A × P
  storeMode : P → A → StoreMode
  /-- The policy after two branches meet: what it hands out next is fresh to both. -/
  join : P → P → P
  codec : Json.Codec P

structure FreshPolicy where
  next : UInt64 := 0
  deriving DecidableEq

structure PerNamePolicy where
  deriving DecidableEq

structure PerModulePolicy where
  deriving DecidableEq

instance : AllocationPolicy FreshPolicy Precise where
  initial := {}
  allocate p _ _ := (⟨p.next⟩, ⟨p.next + 1⟩)
  storeMode _ _ := .strong
  join p q := ⟨max p.next q.next⟩
  codec := (Json.Codec.record (.one "next" .uint64)).via .mk FreshPolicy.next

instance : AllocationPolicy PerNamePolicy Monovariant where
  initial := {}
  allocate p name _ := (⟨name⟩, p)
  storeMode _ _ := .weak
  join p _ := p
  codec := Json.Codec.null.via (fun _ => {}) (fun _ => ())

instance : AllocationPolicy PerModulePolicy Located where
  initial := {}
  allocate p name module := (⟨module, name⟩, p)
  storeMode _ _ := .weak
  join p _ := p
  codec := Json.Codec.null.via (fun _ => {}) (fun _ => ())

end AbstractStore
