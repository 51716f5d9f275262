import AbstractStore.Proofs.Steps

/-! Which addresses a machine keeps alive.
A step makes no address a live root but those that it names for that (`Step.mem_liveRoots`), and
whatever an environment tells of a name is among its roots. -/

namespace AbstractStore

namespace AscMap

variable {κ β : Type} [Ord κ] {m : AscMap κ β} {k : κ} {b c : β}

theorem mem_values_erase (bound : c ∈ (m.erase k).values) :
    c ∈ m.values := by
  obtain ⟨e, entry, rfl⟩ := List.mem_map.1 bound
  exact List.mem_map.2 ⟨e, (List.mem_filter.1 entry).1, rfl⟩

variable [Std.LawfulEqOrd κ]

theorem mem_values_of_get? (found : m.get? k = some b) :
    b ∈ m.values :=
  List.mem_map.2 ⟨(k, b), get?_eq_some_iff.1 found, rfl⟩

theorem mem_values_insert [Std.TransOrd κ] (bound : c ∈ (m.insert k b).values) :
    c = b ∨ c ∈ m.values := by
  obtain ⟨e, entry, rfl⟩ := List.mem_map.1 bound
  rcases mem_place entry with rfl | old
  · exact .inl rfl
  · exact .inr (List.mem_map.2 ⟨e, old, rfl⟩)

end AscMap

namespace Environment

variable {A : Type} [Address A] {e outer : Environment A} {name : Name} {a b : A}

theorem mem_roots_iff : a ∈ e.roots ↔ a ∈ e.innermost.values ∨ ∃ f ∈ e.enclosing, a ∈ f.values := by
  simp [mem_roots, frames]

theorem roots_push (e : Environment A) : e.push.roots = e.roots :=
  AscSet.ext fun a => by
    rw [mem_roots_iff, mem_roots]
    exact or_iff_right List.not_mem_nil

theorem mem_roots_of_pop? {f : Frame A} (popped : e.pop? = some (f, outer))
    (bound : a ∈ outer.roots) : a ∈ e.roots := by
  obtain ⟨innermost, _ | ⟨nearest, others⟩⟩ := e
  · cases popped
  · cases popped
    rw [mem_roots] at bound
    exact mem_roots_iff.2 (.inr bound)

theorem mem_roots_bind (bound : b ∈ (e.bind name a).roots) : b = a ∨ b ∈ e.roots := by
  rcases mem_roots_iff.1 bound with inner | outer
  · exact (AscMap.mem_values_insert inner).imp_right fun old => mem_roots_iff.2 (.inl old)
  · exact .inr (mem_roots_iff.2 (.inr outer))

theorem mem_roots_erase (bound : b ∈ (e.erase name).roots) : b ∈ e.roots :=
  mem_roots_iff.2 ((mem_roots_iff.1 bound).imp_left AscMap.mem_values_erase)

theorem mem_roots_of_lookup (found : e.lookup name = some a) : a ∈ e.roots := by
  obtain ⟨f, frame, bound⟩ := List.exists_of_findSome?_eq_some found
  exact mem_roots.2 ⟨f, frame, AscMap.mem_values_of_get? bound⟩

theorem mem_roots_of_mem_resolved {pairs : List (Name × Name)} {p : Name × A}
    (resolves : p ∈ e.resolved pairs) : p.2 ∈ e.roots := by
  obtain ⟨⟨other, name⟩, -, resolved⟩ := List.mem_filterMap.1 resolves
  obtain ⟨a, found, rfl⟩ := Option.map_eq_some_iff.1 resolved
  exact mem_roots_of_lookup found

theorem mem_roots_overwrite {pairs : List (Name × Name)} (bound : b ∈ (e.overwrite pairs).roots) :
    b ∈ e.roots := by
  have general (bindings : List (Name × A)) (f : Environment A)
      (bound : b ∈ (bindings.foldl (fun e p => e.bind p.1 p.2) f).roots) :
      b ∈ f.roots ∨ ∃ p ∈ bindings, p.2 = b := by
    induction bindings generalizing f with
    | nil => exact .inl bound
    | cons p bindings ih =>
      rcases ih (f.bind p.1 p.2) bound with old | ⟨q, later, same⟩
      · rcases mem_roots_bind old with rfl | old
        · exact .inr ⟨p, List.mem_cons_self .., rfl⟩
        · exact .inl old
      · exact .inr ⟨q, List.mem_cons_of_mem _ later, same⟩
  rcases general (e.resolved pairs) e bound with old | ⟨p, resolves, rfl⟩
  · exact old
  · exact mem_roots_of_mem_resolved resolves

end Environment

section Parts

variable {A V : Type} [Address A]

namespace Step

/-- The addresses that a step makes live roots. -/
def introduced : Step A V → List A
  | .bind _ a | .addRoot a => [a]
  | _ => []

theorem mem_operands_of_mem_introduced [Value V A] {step : Step A V} {b : A}
    (new : b ∈ step.introduced) : b ∈ step.operands := by
  cases step with
  | bind | addRoot => exact new
  | assign | deref | lookup | remove | overwrite | pushScope | popScope | removeRoot | gc
  | collect => exact absurd new List.not_mem_nil

theorem mem_roots_environment {step : Step A V} {e : Environment A} {b : A}
    (bound : b ∈ (step.environment e).roots) : b ∈ step.introduced ∨ b ∈ e.roots := by
  cases step with
  | bind name a => exact (Environment.mem_roots_bind bound).imp_left List.mem_singleton.2
  | remove name => exact .inr (Environment.mem_roots_erase bound)
  | overwrite pairs => exact .inr (Environment.mem_roots_overwrite bound)
  | pushScope => exact .inr (e.roots_push ▸ bound)
  | popScope =>
    right
    change b ∈ ((e.pop?.map Prod.snd).getD e).roots at bound
    cases popped : e.pop? with
    | none => simpa [popped] using bound
    | some inner => exact Environment.mem_roots_of_pop? popped (by simpa [popped] using bound)
  | assign | deref | lookup | addRoot | removeRoot | gc | collect => exact .inr bound

theorem mem_stackRoots {step : Step A V} {held : LiveSet A} {b : A}
    (kept : b ∈ step.stackRoots held) : b ∈ step.introduced ∨ b ∈ held := by
  cases step with
  | addRoot a => exact (AscSet.mem_insert.1 kept).imp_left List.mem_singleton.2
  | removeRoot a => exact .inr (AscSet.mem_erase.1 kept).1
  | assign | deref | lookup | bind | remove | overwrite | pushScope | popScope | gc | collect =>
    exact .inr kept

end Step

end Parts

section Whole

variable {P A V : Type} [Address A] [Value V A]

namespace Machine

theorem mem_liveRoots {m : Machine P A V} {a : A} :
    a ∈ m.liveRoots ↔ a ∈ m.environment.roots ∨ a ∈ m.stackRoots := AscSet.mem_union

theorem mem_liveRoots_of_lookup {m : Machine P A V} {name : Name} {a : A}
    (found : m.lookup name = some a) : a ∈ m.liveRoots :=
  mem_liveRoots.2 (.inl (Environment.mem_roots_of_lookup found))

end Machine

variable [AllocationPolicy P A]

/-- An address that is a live root after a step was one before, or the step makes it one. -/
theorem Step.mem_liveRoots {step : Step A V} {m : Machine P A V} {b : A}
    (live : b ∈ (step.perform m).2.liveRoots) : b ∈ step.introduced ∨ b ∈ m.liveRoots := by
  obtain ⟨trace, journal, same⟩ := step.perform_eq m
  rw [same, Machine.mem_liveRoots] at live
  rw [Machine.mem_liveRoots]
  rcases live with bound | kept
  · exact (mem_roots_environment bound).imp_right .inl
  · exact (mem_stackRoots kept).imp_right .inr

end Whole

end AbstractStore
