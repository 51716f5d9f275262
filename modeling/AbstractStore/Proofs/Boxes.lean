import AbstractStore.Object
import AbstractStore.Proofs.Lineage

/-! Boxes.
A box has a generated name, so where addresses bear names it is at an address of its own as long as
all cells are at addresses that the counters are ahead of (`Branch.Housed`). That is so where a
client asks for addresses by names of users only, and assigns to nothing but what it was handed. -/

namespace AbstractStore

open Machine

section Reading

variable {P A V : Type} [Address A] [Value V A] {m : Machine P A V} {a : A}

theorem Machine.deref_of_lookup {c : Cell V} (found : m.heap.lookup a = some c)
    (holds : c.isEmpty = false) : (outcome (deref a) m).1 = .ok c := by
  obtain ⟨trace, journal, same⟩ := deref_eq a m
  have read : (outcome (deref a) m).1 = m.reading a := congrArg Prod.fst same
  simp only [read, reading, found, holds, Bool.false_eq_true, if_false]

variable [AllocationPolicy P A]

/-- Whether assignments join or not, a box at an address without a cell holds one value. -/
theorem Machine.lookup_box {v : V} (absent : m.heap.contains (box v m).1 = false) :
    (box v m).2.heap.lookup (box v m).1 = some (.singleton v) := by
  have missing : m.heap.lookup (box v m).1 = none := Option.not_isSome_iff_eq_none.1 (by
    rw [← Bool.not_eq_true] at absent
    exact absent)
  have stored : ∃ mode,
      (box v m).2.heap = (m.heap.reserve (box v m).1).assign (box v m).1 v mode := ⟨_, rfl⟩
  obtain ⟨mode, stored⟩ := stored
  rw [stored, Heap.lookup_assign, if_pos rfl]
  cases mode with
  | strong => rfl
  | weak =>
    simp only [Heap.valuesAt, Heap.lookup_reserve, if_true, missing]
    rfl

end Reading

section Runs

variable {P A V : Type} [Address A] [AllocationPolicy P A] [Value V A]

/-- An address is asked for by the name of a user, or by a new name. -/
def Draw.ByUser : Draw V → Prop
  | .address name => name.isGenerated = false
  | _ => True

instance : (d : Draw V) → Decidable d.ByUser
  | .address name => inferInstanceAs (Decidable (name.isGenerated = false))
  | .newName | .box _ => inferInstanceAs (Decidable True)

theorem Draw.ByUser.known [AccountablePolicy P] {d : Draw V} (byUser : d.ByUser)
    (m : Machine P A V) : d.Known m := by
  cases d with
  | address name => cases name with
    | user text => exact fun _ => trivial
    | gensym index => cases byUser
  | newName | box => trivial

/-- What a client does that leaves generated names alone: it asks for addresses by names of users
only, and assigns to what it was handed. -/
structure Op.Tame {β : Type} (b : Branch P A V) (op : Op P A V β) : Prop where
  draws : ∀ d ∈ op.draw? b.machine, d.ByUser
  assigns : ∀ a ∈ op.target?, a ∈ b.addresses

instance {β : Type} (b : Branch P A V) (op : Op P A V β) : Decidable (op.Tame b) :=
  have : Decidable (∀ d ∈ op.draw? b.machine, d.ByUser) := Option.decidableForallMem _
  have : Decidable (∀ a ∈ op.target?, a ∈ b.addresses) := Option.decidableForallMem _
  decidable_of_iff ((∀ d ∈ op.draw? b.machine, d.ByUser) ∧ ∀ a ∈ op.target?, a ∈ b.addresses)
    ⟨fun ⟨draws, assigns⟩ => ⟨draws, assigns⟩, fun tame => ⟨tame.draws, tame.assigns⟩⟩

namespace Branch

/-- An address without a cell, not known to the branch, holds one value afterwards. -/
structure Boxes (b : Branch P A V) (v : V) (a : A) (after : Machine P A V) : Prop where
  absent : b.machine.heap.contains a = false
  unknown : a ∉ b.addresses
  reads : (outcome (deref a) after).1 = .ok (.singleton v)

variable [AccountablePolicy P] {b other : Branch P A V} {v : V} {after : Machine P A V}

/-- The counters are ahead of what a branch knows and of all its cells. -/
structure Housed (b : Branch P A V) : Prop extends b.Ahead where
  cells : ∀ a, b.machine.heap.contains a = true →
    AccountablePolicy.Issued b.machine.policy b.machine.names a

theorem housed_new (policy : P) (options : Options) :
    (new policy options : Branch P A V).Housed where
  toAhead := ahead_new policy options
  cells _ there := absurd there Bool.false_ne_true

theorem Housed.join (housed : b.Housed) (otherHoused : other.Housed) : (b.join other).Housed where
  toAhead := housed.toAhead.join otherHoused.toAhead
  cells a there := by
    rcases Heap.contains_join.1 there with own | merged
    · exact AccountablePolicy.issued_join_left _ _ (housed.cells a own)
    · exact AccountablePolicy.issued_join_right _ _ (otherHoused.cells a merged)

theorem Housed.perform {β : Type} {op : Op P A V β} (housed : b.Housed) (fits : op.Fits b.machine)
    (tame : op.Tame b) : (b.perform op).Housed where
  toAhead := housed.toAhead.perform fits fun d drawn => (tame.draws d drawn).known b.machine
  cells a there := by
    cases drawn : op.draw? b.machine with
    | none =>
      rw [perform_of_no_draw drawn] at there ⊢
      have idles := op.idles_of_no_draw drawn
      rw [idles.policy, idles.names]
      rcases idles.cells a there with target | old
      · exact housed.addresses a (tame.assigns a target)
      · exact housed.cells a old
    | some d =>
      obtain ⟨trace, journal, same⟩ := perform_of_draw drawn
      rw [same] at there ⊢
      rcases Draw.contains_perform there with handed | old
      · exact Draw.issued_of_address? (fits d drawn) ((tame.draws d drawn).known b.machine) handed
      · exact Draw.issued_perform (fits d drawn) (housed.cells a old)

theorem Housed.boxes (housed : b.Housed) (heap : after.heap = (box v b.machine).2.heap) :
    b.Boxes v (box v b.machine).1 after := by
  have new : ¬ AccountablePolicy.Issued b.machine.policy b.machine.names (box v b.machine).1 :=
    AccountablePolicy.not_issued_fresh _ _ _
  have absent : b.machine.heap.contains (box v b.machine).1 = false :=
    Bool.not_eq_true _ ▸ mt (housed.cells _) new
  exact ⟨absent, mt (housed.addresses _) new, deref_of_lookup (heap ▸ lookup_box absent) rfl⟩

end Branch

/-- Whatever branches a tame client has worked on, a box is at an address of its own, and so is a
free variable that is recovered. -/
def ExactBoxes (P : Type) {A : Type} (V : Type) [Address A] [Value V A] [AllocationPolicy P A]
    [AccountablePolicy P] : Prop :=
  ∀ errands : List (Errand P A V),
    Lineage.Meets (fun b op => op.Fits b.machine ∧ op.Tame b) [] errands →
      ∀ b ∈ Lineage.run [] errands,
        (∀ v, b.Boxes v (box v b.machine).1 (box v b.machine).2) ∧
        ∀ name v,
          b.machine.recovery.answerVariable ⟨name, b.machine.module, b.machine.span⟩ = some v →
            (outcome (freeVariable name) b.machine).1 = .ok (box v b.machine).1 ∧
              b.Boxes v (box v b.machine).1 (outcome (freeVariable name) b.machine).2

theorem exactBoxes [AccountablePolicy P] : ExactBoxes P V := by
  have keeps : Lineage.Keeps (fun b op => op.Fits b.machine ∧ op.Tame b)
      (Branch.Housed : Branch P A V → Prop) :=
    ⟨Branch.housed_new, fun housed meets => housed.perform meets.1 meets.2, Branch.Housed.join⟩
  intro errands meets b among
  have housed : b.Housed :=
    keeps.forall_run (fun _ none => absurd none List.not_mem_nil) meets b among
  refine ⟨fun v => housed.boxes rfl, fun name v answered => ?_⟩
  obtain ⟨trace, journal, same⟩ := freeVariable_eq_box answered
  rw [same]
  exact ⟨rfl, housed.boxes rfl⟩

/-- A box is exact and has an address of its own: where each allocation has an address, where each
name has one, and where each name of a module has one, under any options. -/
theorem boxes_exact :
    (∀ (V : Type) [Value V Precise], ExactBoxes FreshPolicy V) ∧
    (∀ (V : Type) [Value V Monovariant], ExactBoxes PerNamePolicy V) ∧
    ∀ (V : Type) [Value V Located], ExactBoxes PerModulePolicy V :=
  ⟨fun _ _ => exactBoxes, fun _ _ => exactBoxes, fun _ _ => exactBoxes⟩

/-- A branch boxes in a module, another elsewhere, and where they have met the first goes on. -/
def boxing : List (Errand PerModulePolicy Located (Object Located)) :=
  [.new {} { storeMode := some .weak }, .act 0 (.alloc (.user "x")),
    .act 0 (.assign ⟨{}, .user "x"⟩ .unit), .fork 0, .act 1 (.box .top), .act 1 .collect,
    .act 0 (.setModule ⟨"m"⟩), .act 0 (.box .unit), .join 0 1, .act 0 (.setModule {}),
    .act 0 (.setRecovery { freeVariable := some fun _ => some .unit }),
    .act 0 (.freeVariable (.user "y"))]

theorem boxes_exact_boxing :
    let b := (Lineage.run [] boxing).head (by decide)
    Lineage.Meets (fun b op => op.Fits b.machine ∧ op.Tame b) [] boxing ∧
    b.addresses = [⟨{}, .user "x"⟩, ⟨⟨"m"⟩, .gensym 0⟩, ⟨{}, .user "x"⟩, ⟨{}, .gensym 0⟩,
      ⟨{}, .gensym 1⟩] ∧
    b.Boxes .top ⟨{}, .gensym 2⟩ (box .top b.machine).2 ∧
    b.machine.recovery.answerVariable ⟨.user "z", b.machine.module, b.machine.span⟩ = some .unit ∧
    (outcome (freeVariable (.user "z")) b.machine).1 = .ok ⟨{}, .gensym 2⟩ ∧
    b.Boxes .unit ⟨{}, .gensym 2⟩ (outcome (freeVariable (.user "z")) b.machine).2 := by
  intro b
  have meets : Lineage.Meets (fun b op => op.Fits b.machine ∧ op.Tame b) [] boxing := by decide
  obtain ⟨boxed, recovered⟩ :=
    boxes_exact.2.2 (Object Located) boxing meets b (List.head_mem (by decide))
  have place (v : Object Located) : (box v b.machine).1 = ⟨{}, .gensym 2⟩ := rfl
  have answered : b.machine.recovery.answerVariable
    ⟨.user "z", b.machine.module, b.machine.span⟩ = some .unit := by decide
  obtain ⟨answer, boxedAgain⟩ := recovered _ _ answered
  exact ⟨meets, by decide, place .top ▸ boxed .top, answered, place .unit ▸ answer,
    place .unit ▸ boxedAgain⟩

end Runs

end AbstractStore
