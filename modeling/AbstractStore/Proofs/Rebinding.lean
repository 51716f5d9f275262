import AbstractStore.Proofs.Entries
import AbstractStore.Proofs.RootFrame
import AbstractStore.Proofs.Visibility

/-! Names that are bound anew, all at once.
The second name of each pair is looked up where nothing has been bound yet, so the pairs do not get
into each other's way: of those for one alias the last that has an address counts
(`Environment.overwrite_eq_some_iff`), and the enclosing scopes are not touched. -/

namespace AbstractStore.Environment

variable {A : Type} {e : Environment A} {pairs : List (Name × Name)} {name : Name} {a : A}

/-- The last pair for a name whose second name is bound, with the address of that. -/
def LastBound (e : Environment A) (pairs : List (Name × Name)) (name : Name) (a : A) : Prop :=
  ∃ before source after, pairs = before ++ (name, source) :: after ∧ e.lookup source = some a ∧
    ∀ later, (name, later) ∈ after → e.lookup later = none

theorem mem_resolved : (name, a) ∈ e.resolved pairs ↔
    ∃ source, (name, source) ∈ pairs ∧ e.lookup source = some a := by
  simp only [resolved, List.mem_filterMap, Option.map_eq_some_iff, Prod.exists, Prod.mk.injEq]
  constructor
  · rintro ⟨other, source, inside, a, found, rfl, rfl⟩
    exact ⟨source, inside, found⟩
  · rintro ⟨source, inside, found⟩
    exact ⟨name, source, inside, a, found, rfl, rfl⟩

theorem forall_resolved_ne : (∀ b ∈ e.resolved pairs, b.1 ≠ name) ↔
    ∀ source, (name, source) ∈ pairs → e.lookup source = none := by
  constructor
  · intro others source inside
    refine Option.eq_none_iff_forall_ne_some.2 fun a found => ?_
    exact others (name, a) (mem_resolved.2 ⟨source, inside, found⟩) rfl
  · rintro unbound ⟨other, a⟩ inside rfl
    obtain ⟨source, pair, found⟩ := mem_resolved.1 inside
    exact nomatch (unbound source pair).symm.trans found

/-- By induction on the pairs: one whose second name is not bound leaves nothing behind. -/
theorem lastEntry_resolved : LastEntry (e.resolved pairs) name a ↔ e.LastBound pairs name a := by
  induction pairs with
  | nil =>
    constructor
    · exact fun last => absurd last.mem List.not_mem_nil
    · rintro ⟨before, source, after, split, -⟩
      simp at split
  | cons p pairs ih =>
    have first : e.LastBound (p :: pairs) name a ↔ e.LastBound pairs name a ∨
        p.1 = name ∧ e.lookup p.2 = some a ∧
          ∀ later, (name, later) ∈ pairs → e.lookup later = none := by
      constructor
      · rintro ⟨before, source, after, split, found, unbound⟩
        cases before with
        | nil =>
          obtain ⟨rfl, rfl⟩ := List.cons.inj split
          exact .inr ⟨rfl, found, unbound⟩
        | cons q before =>
          obtain ⟨rfl, rfl⟩ := List.cons.inj split
          exact .inl ⟨before, source, after, rfl, found, unbound⟩
      · rintro (⟨before, source, after, rfl, found, unbound⟩ | ⟨rfl, found, unbound⟩)
        · exact ⟨p :: before, source, after, rfl, found, unbound⟩
        · exact ⟨[], p.2, pairs, rfl, found, unbound⟩
    rw [first, ← ih, ← forall_resolved_ne]
    cases bound : e.lookup p.2 with
    | none =>
      have left_out : e.resolved (p :: pairs) = e.resolved pairs := by simp [resolved, bound]
      rw [left_out]
      exact (or_iff_left fun impossible => nomatch impossible.2.1).symm
    | some b =>
      have kept : e.resolved (p :: pairs) = (p.1, b) :: e.resolved pairs := by
        simp [resolved, bound]
      rw [kept, lastEntry_cons, Prod.mk.injEq, Option.some_inj, and_assoc]

/-- What is told of a name after the pairs have been bound: once by the innermost scope, once by
all of them. -/
theorem overwrite_eq_some_iff {tell : Environment A → Name → Option A}
    (told : ∀ e name a other,
      tell (bind e name a) other = if name = other then some a else tell e other) :
    tell (e.overwrite pairs) name = some a ↔
      e.LastBound pairs name a ∨
        (∀ source, (name, source) ∈ pairs → e.lookup source = none) ∧ tell e name = some a := by
  rw [← lastEntry_resolved, ← forall_resolved_ne]
  exact foldl_put_eq_some_iff (fun e b other => told e b.1 b.2 other)

/-- All pairs bind at once. A name is bound to what the second name of the last pair for it was
bound to before, of the pairs whose second name was bound at all; one that has no such pair is bound
to what it was. All this happens in the innermost scope, and no other changes. -/
theorem overwrite_simultaneous (e : Environment A) (pairs : List (Name × Name)) :
    (∀ name a, (e.overwrite pairs).lookup name = some a ↔
      e.LastBound pairs name a ∨
        (∀ source, (name, source) ∈ pairs → e.lookup source = none) ∧ e.lookup name = some a) ∧
    (∀ name a, (e.overwrite pairs).lookupLocal name = some a ↔
      e.LastBound pairs name a ∨
        (∀ source, (name, source) ∈ pairs → e.lookup source = none) ∧
          e.lookupLocal name = some a) ∧
    (e.overwrite pairs).enclosing = e.enclosing ∧ (e.overwrite pairs).depth = e.depth :=
  ⟨fun _ _ => overwrite_eq_some_iff fun _ _ _ _ => lookup_bind,
    fun _ _ => overwrite_eq_some_iff fun e _ _ _ => e.lookupLocal_bind,
    enclosing_overwrite e pairs, congrArg (·.length + 1) (enclosing_overwrite e pairs)⟩

/-- Two names change places, the outer one of which is hidden now; a name that is not bound is no
source, so the pair before it counts. -/
example :
    let x := Name.user "x"
    let y := Name.user "y"
    let e : Environment Precise := ⟨.ofList [(x, ⟨1⟩)], [.ofList [(y, ⟨0⟩)]]⟩
    let f := e.overwrite [(x, y), (y, x), (x, .user "z")]
    f.lookup x = some ⟨0⟩ ∧ f.lookup y = some ⟨1⟩ ∧ f.enclosing = e.enclosing := by
  decide +kernel

end AbstractStore.Environment
