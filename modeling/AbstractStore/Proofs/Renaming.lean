import AbstractStore.Object
import AbstractStore.Proofs.LiveRoots

/-! Addresses put in the place of others, in sets, objects, environments and steps.
The map of addresses need not be injective: two addresses of an environment may become one. What a
step does to names and roots is the same before and after (`Step.environment_map` and
`Step.stackRoots_map`), except that a root may stand for several and so must not be let go of. -/

namespace AbstractStore

open Std

section Containers

variable {α β γ : Type} {f : α → β} {g : β → γ}

namespace AscSet

variable [Ord α] [Ord β] [TransOrd β] [LawfulEqOrd β]

def image (f : α → β) (s : AscSet α) : AscSet β := ofList (s.toList.map f)

theorem mem_image {s : AscSet α} {b : β} : b ∈ s.image f ↔ ∃ a ∈ s, f a = b := by
  rw [image, mem_ofList, List.mem_map]
  rfl

theorem image_insert [TransOrd α] [LawfulEqOrd α] {s : AscSet α} {a : α} :
    (s.insert a).image f = (s.image f).insert (f a) := by
  refine ext fun b => ?_
  rw [mem_insert, mem_image, mem_image]
  constructor
  · rintro ⟨c, inserted, rfl⟩
    exact (mem_insert.1 inserted).imp (congrArg f) fun old => ⟨c, old, rfl⟩
  · rintro (rfl | ⟨c, old, rfl⟩)
    · exact ⟨a, mem_insert.2 (.inl rfl), rfl⟩
    · exact ⟨c, mem_insert.2 (.inr old), rfl⟩

theorem image_image [Ord γ] [TransOrd γ] [LawfulEqOrd γ] {s : AscSet α} :
    (s.image f).image g = s.image (g ∘ f) := by
  refine ext fun c => ?_
  simp only [mem_image, Function.comp_apply]
  constructor
  · rintro ⟨_, ⟨a, inside, rfl⟩, rfl⟩
    exact ⟨a, inside, rfl⟩
  · rintro ⟨a, inside, rfl⟩
    exact ⟨f a, ⟨a, inside, rfl⟩, rfl⟩

end AscSet

namespace AscMap

variable {κ : Type} [Ord κ] {k : κ}

/-- The same keys, with other values. -/
def mapValues (f : α → β) (m : AscMap κ α) : AscMap κ β :=
  ⟨m.toList.map fun e => (e.1, f e.2), List.pairwise_map.2 m.ascending⟩

theorem values_mapValues (m : AscMap κ α) : (m.mapValues f).values = m.values.map f := by
  simp [mapValues, values, Function.comp_def]

theorem mapValues_mapValues (m : AscMap κ α) :
    (m.mapValues f).mapValues g = m.mapValues (g ∘ f) :=
  toList_injective (by simp [mapValues, Function.comp_def])

theorem get?_mapValues (m : AscMap κ α) : (m.mapValues f).get? k = (m.get? k).map f := by
  simp only [get?, mapValues, List.find?_map, Option.map_map]
  rfl

theorem mapValues_erase (m : AscMap κ α) : (m.erase k).mapValues f = (m.mapValues f).erase k := by
  refine toList_injective ?_
  simp only [mapValues, erase, filter, List.filter_map]
  rfl

theorem mapValues_insert [TransOrd κ] [LawfulEqOrd κ] (m : AscMap κ α) {a : α} :
    (m.insert k a).mapValues f = (m.mapValues f).insert k (f a) := by
  refine ext fun j => ?_
  rw [get?_mapValues, get?_insert, get?_insert, get?_mapValues]
  split <;> rfl

end AscMap

end Containers

section Addresses

variable {A B C : Type} {f : A → B} {g : B → C} {a b : A} {name : Name}

namespace Object

def map (f : A → B) : Object A → Object B
  | .top => .top
  | .unit => .unit
  | .boolean b => .boolean b
  | .integer i => .integer i
  | .string s => .string s
  | .closure parameters body captured => .closure parameters body (captured.mapValues f)
  | .record members => .record (members.mapValues f)
  | .classDef name superclasses members =>
      .classDef name (superclasses.map f) (members.mapValues f)
  | .reference target => .reference (f target)

theorem embedded_map (o : Object A) : (o.map f).embedded = o.embedded.map f := by
  cases o with
  | closure parameters body captured => exact captured.values_mapValues
  | record members => exact members.values_mapValues
  | classDef name superclasses members =>
    simp only [map, embedded, List.map_append, AscMap.values_mapValues]
  | top | unit | boolean | integer | string | reference => rfl

theorem map_map (o : Object A) : (o.map f).map g = o.map (g ∘ f) := by
  cases o with
  | closure parameters body captured =>
    exact congrArg (closure parameters body) captured.mapValues_mapValues
  | record members => exact congrArg record members.mapValues_mapValues
  | classDef name superclasses members =>
    simp only [map, List.map_map, AscMap.mapValues_mapValues]
  | top | unit | boolean | integer | string | reference => rfl

end Object

namespace Environment

def map (f : A → B) (e : Environment A) : Environment B :=
  ⟨e.innermost.mapValues f, e.enclosing.map (·.mapValues f)⟩

theorem frames_map (e : Environment A) : (e.map f).frames = e.frames.map (·.mapValues f) := rfl

theorem map_bind (e : Environment A) : (e.bind name a).map f = (e.map f).bind name (f a) := by
  simp only [map, bind, AscMap.mapValues_insert]

theorem map_erase (e : Environment A) : (e.erase name).map f = (e.map f).erase name := by
  simp only [map, erase, AscMap.mapValues_erase]

theorem pop?_map (e : Environment A) :
    (e.map f).pop? = e.pop?.map fun p => (p.1.mapValues f, p.2.map f) := by
  obtain ⟨innermost, _ | ⟨nearest, others⟩⟩ := e <;> rfl

theorem lookup_map (e : Environment A) : (e.map f).lookup name = (e.lookup name).map f := by
  rw [lookup, lookup, frames_map, List.findSome?_map, List.map_findSome?]
  simp only [Function.comp_def, AscMap.get?_mapValues]

theorem resolved_map (e : Environment A) (pairs : List (Name × Name)) :
    (e.map f).resolved pairs = (e.resolved pairs).map fun p => (p.1, f p.2) := by
  simp only [resolved, lookup_map, List.map_filterMap, Option.map_map]
  rfl

theorem map_overwrite (e : Environment A) (pairs : List (Name × Name)) :
    (e.overwrite pairs).map f = (e.map f).overwrite pairs := by
  have general (bindings : List (Name × A)) (e : Environment A) :
      (bindings.foldl (fun e p => e.bind p.1 p.2) e).map f =
        (bindings.map fun p => (p.1, f p.2)).foldl (fun e p => e.bind p.1 p.2) (e.map f) := by
    induction bindings generalizing e with
    | nil => rfl
    | cons p bindings ih => rw [List.foldl_cons, ih, map_bind, List.map_cons, List.foldl_cons]
  rw [overwrite, overwrite, resolved_map, general]

theorem mem_roots_map [Address A] [Address B] {e : Environment A} (bound : a ∈ e.roots) :
    f a ∈ (e.map f).roots := by
  obtain ⟨frame, inFrames, inValues⟩ := mem_roots.1 bound
  refine mem_roots.2 ⟨frame.mapValues f, List.mem_map_of_mem inFrames, ?_⟩
  rw [AscMap.values_mapValues]
  exact List.mem_map_of_mem inValues

end Environment

namespace Source

def map (f : A → B) : Source (Object A) → Source (Object B)
  | .alloc name => .alloc name
  | .box o => .box (o.map f)
  | .inModule module source => .inModule module (source.map f)

theorem map_map (source : Source (Object A)) : (source.map f).map g = source.map (g ∘ f) := by
  induction source with
  | alloc name => rfl
  | box o => exact congrArg box o.map_map
  | inModule module source ih => exact congrArg (inModule module) ih

end Source

namespace Step

variable [Ord A] [Address B] [Address C]

def map (f : A → B) : Step A (Object A) → Step B (Object B)
  | .assign a o => .assign (f a) (o.map f)
  | .deref a => .deref (f a)
  | .lookup name => .lookup name
  | .bind name a => .bind name (f a)
  | .remove name => .remove name
  | .overwrite pairs => .overwrite pairs
  | .pushScope => .pushScope
  | .popScope => .popScope
  | .addRoot a => .addRoot (f a)
  | .removeRoot a => .removeRoot (f a)
  | .gc roots => .gc (roots.image f)
  | .collect => .collect

theorem map_map (step : Step A (Object A)) : (step.map f).map g = step.map (g ∘ f) := by
  cases step with
  | assign a o => exact congrArg (assign (g (f a))) o.map_map
  | gc roots => exact congrArg gc AscSet.image_image
  | deref | lookup | bind | remove | overwrite | pushScope | popScope | addRoot | removeRoot
  | collect => rfl

/-- Whether a step lets go of a root. -/
def removesRoot : Step A (Object A) → Bool
  | .removeRoot _ => true
  | _ => false

theorem removesRoot_map (step : Step A (Object A)) :
    (step.map f).removesRoot = step.removesRoot := by cases step <;> rfl

end Step

namespace Step

variable [Address A] [Address B] {step : Step A (Object A)}

theorem environment_map (e : Environment A) :
    (step.map f).environment (e.map f) = (step.environment e).map f := by
  cases step with
  | bind name a => exact e.map_bind.symm
  | remove name => exact e.map_erase.symm
  | overwrite pairs => exact (e.map_overwrite pairs).symm
  | popScope =>
    simp only [map, environment, Environment.pop?_map]
    cases e.pop? <;> rfl
  | assign | deref | lookup | pushScope | addRoot | removeRoot | gc | collect => rfl

theorem stackRoots_map {held : LiveSet A} (keeps : step.removesRoot = false) :
    (step.map f).stackRoots (held.image f) = (step.stackRoots held).image f := by
  cases step with
  | addRoot a => exact AscSet.image_insert.symm
  | removeRoot a => cases keeps
  | assign | deref | lookup | bind | remove | overwrite | pushScope | popScope | gc | collect => rfl

end Step

end Addresses

end AbstractStore
