import AbstractStore.Proofs.Steps

/-! Branches of an analysis side by side.
A pool holds the machines of all branches, known by their places. A branch takes a step, is forked
or is merged into another, in any order. -/

namespace AbstractStore

abbrev Pool (P A V : Type) [Ord A] [Ord V] := List (Machine P A V)

inductive Move (P A V : Type) [Ord A] [Ord V] where
  /-- A machine that has run elsewhere joins the pool. -/
  | enter (m : Machine P A V)
  | act (i : Nat) (step : Step A V)
  | obtain (i : Nat) (source : Source V)
  | fork (i : Nat)
  /-- The second branch is merged into the first. -/
  | join (i j : Nat)

section Policy

variable {P A V : Type} [Address A] [AllocationPolicy P A] [Value V A]

def Move.perform (pool : Pool P A V) : Move P A V → Pool P A V
  | .enter m => pool ++ [m]
  | .act i step => pool.modify i fun m => (step.perform m).2
  | .obtain i source => pool.modify i fun m => (source.perform m).2
  | .fork i => pool ++ pool[i]?.toList
  | .join i j => match pool[j]? with
      | some other => pool.modify i (·.join other)
      | none => pool

def Pool.run (pool : Pool P A V) (moves : List (Move P A V)) : Pool P A V :=
  moves.foldl Move.perform pool

end Policy

/-- A change of one branch touches no other. -/
theorem forall_modify {B : Type*} {Q : B → Prop} {branches : List B} {i : Nat} {f : B → B}
    (all : ∀ b ∈ branches, Q b) (kept : ∀ b ∈ branches[i]?, Q b → Q (f b)) :
    ∀ b ∈ branches.modify i f, Q b := by
  intro b among
  obtain ⟨j, inside, rfl⟩ := List.mem_iff_getElem.1 among
  rw [List.length_modify] at inside
  rw [List.getElem_modify]
  split
  next same =>
    subst same
    exact kept _ (List.getElem?_eq_getElem inside) (all _ (List.getElem_mem inside))
  next => exact all _ (List.getElem_mem inside)

/-- A copy of a branch is as good as the branch. -/
theorem forall_fork {B : Type*} {Q : B → Prop} {branches : List B} (all : ∀ b ∈ branches, Q b)
    (i : Nat) : ∀ b ∈ branches ++ branches[i]?.toList, Q b := by
  refine List.forall_mem_append.2 ⟨all, fun b copied => ?_⟩
  exact all b (List.mem_of_getElem? (Option.mem_toList.1 copied))

theorem map_modify {B C : Type*} {branches : List B} {i : Nat} {f : B → B} {g : C → C}
    {view : B → C}
    (alike : ∀ b ∈ branches[i]?, view (f b) = g (view b)) :
    (branches.modify i f).map view = (branches.map view).modify i g := by
  apply List.ext_getElem?
  intro j
  simp only [List.getElem?_map, List.getElem?_modify]
  by_cases here : i = j
  · subst here
    cases found : branches[i]? with
    | none => rfl
    | some b => simp [alike b found]
  · simp [here]

end AbstractStore
