import AbstractStore.Address

/-! Lexical environments: frames of bindings, one inside the other.
There is always a root frame, since the innermost frame is a field of its own. -/

namespace AbstractStore

open Std

abbrev Frame (A : Type) := AscMap Name A

structure Environment (A : Type) where
  innermost : Frame A := ∅
  /-- The frames around it, the nearest first. -/
  enclosing : List (Frame A) := []
  deriving DecidableEq

namespace Environment

variable {A : Type}

def frames (e : Environment A) : List (Frame A) := e.innermost :: e.enclosing

def depth (e : Environment A) : Nat := e.frames.length

def push (e : Environment A) : Environment A := ⟨∅, e.frames⟩

/-- Leave the innermost scope. The root scope cannot be left. -/
def pop? (e : Environment A) : Option (Frame A × Environment A) :=
  match e.enclosing with
  | [] => none
  | nearest :: others => some (e.innermost, ⟨nearest, others⟩)

def bind (e : Environment A) (name : Name) (a : A) : Environment A :=
  { e with innermost := e.innermost.insert name a }

def erase (e : Environment A) (name : Name) : Environment A :=
  { e with innermost := e.innermost.erase name }

def lookup (e : Environment A) (name : Name) : Option A := e.frames.findSome? (·.get? name)

def lookupLocal (e : Environment A) (name : Name) : Option A := e.innermost.get? name

def contains (e : Environment A) (name : Name) : Bool := (e.lookup name).isSome

/-- The addresses that the second names of pairs are bound to, under the first ones. Pairs whose
second name is not bound are left out. -/
def resolved (e : Environment A) (pairs : List (Name × Name)) : List (Name × A) :=
  pairs.filterMap fun p => (e.lookup p.2).map (p.1, ·)

/-- Bind the first name of each pair to what the second is bound to. All second names are looked
up before any first one is bound. -/
def overwrite (e : Environment A) (pairs : List (Name × Name)) : Environment A :=
  (e.resolved pairs).foldl (fun e b => e.bind b.1 b.2) e

/-- Every name that is bound in some scope: the keys of all frames, the outermost first, are sorted
and repeats are dropped. -/
def names (e : Environment A) : List Name :=
  let keys := e.frames.reverse.flatMap fun frame => frame.keys.toList
  (keys.mergeSort fun x y => (compare x y).isLE).eraseReps

/-- The visible bindings as one frame: inner scopes hide outer ones. -/
def flatten (e : Environment A) : Frame A :=
  e.frames.foldr (fun frame outer => frame.toList.foldl (fun m b => m.insert b.1 b.2) outer) ∅

theorem lookup_push (e : Environment A) (name : Name) : e.push.lookup name = e.lookup name := rfl

theorem pop?_push (e : Environment A) : e.push.pop? = some (∅, e) := rfl

theorem pop?_eq_none_iff {e : Environment A} : e.pop? = none ↔ e.depth = 1 := by
  obtain ⟨innermost, _ | _⟩ := e <;> simp [pop?, depth, frames]

theorem lookup_bind {e : Environment A} {name other : Name} {a : A} :
    (e.bind name a).lookup other = if name = other then some a else e.lookup other := by
  simp only [lookup, bind, frames, List.findSome?_cons, AscMap.get?_insert,
    LawfulEqCmp.compare_eq_iff_eq]
  by_cases same : name = other <;> simp [same]

section Codec

variable [Address A]

/-- Every address that is bound in any scope, hidden or not. -/
def roots (e : Environment A) : LiveSet A := .ofList (e.frames.flatMap AscMap.values)

theorem mem_roots {e : Environment A} {a : A} : a ∈ e.roots ↔ ∃ f ∈ e.frames, a ∈ f.values := by
  simp [roots]

def frameCodec : Json.Codec (Frame A) := Name.keyed Address.codec

def ofFrames (frames : List (Frame A)) : Except String (Environment A) :=
  match frames.reverse with
  | [] => .error "An environment needs at least a root frame"
  | innermost :: enclosing => .ok ⟨innermost, enclosing⟩

def codec : Json.Codec (Environment A) :=
  (Json.Codec.record (.one "frames" (.list frameCodec))).refine ofFrames (·.frames.reverse)

end Codec

end Environment

end AbstractStore
