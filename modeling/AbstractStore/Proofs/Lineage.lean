import AbstractStore.Machine.Branch
import AbstractStore.Object
import AbstractStore.Proofs.Branches
import AbstractStore.Proofs.Draws

/-! What has been handed out in the branches of an analysis.
A branch knows the addresses and names that were handed out in it, in the branch that it was forked
from until then, and in those that were merged into it until they were. The counters of its machine
stay ahead of all that it knows (`Branch.Ahead`), so what it is handed next it does not know. -/

namespace AbstractStore

open Machine

/-- A branch of an analysis with what it knows to have been handed out. -/
structure Branch (P A V : Type) [Ord A] [Ord V] where
  machine : Machine P A V
  addresses : List A := []
  names : List Name := []

inductive Errand (P A V : Type) [Ord A] [Ord V] : Type 1 where
  /-- A new machine joins the branches. -/
  | new (policy : P) (options : Options)
  | act (i : Nat) {β : Type} (op : Op P A V β)
  | fork (i : Nat)
  /-- The second branch is merged into the first. -/
  | join (i j : Nat)

/-- The branches of an analysis, known by their places. -/
abbrev Lineage (P A V : Type) [Ord A] [Ord V] := List (Branch P A V)

section Runs

variable {P A V : Type} [Address A] [AllocationPolicy P A] [Value V A]

namespace Branch

def new (policy : P) (options : Options) : Branch P A V where machine := fresh policy options

/-- A branch comes to know what an operation hands out, and the name of a box too. -/
def perform {β : Type} (b : Branch P A V) (op : Op P A V β) : Branch P A V where
  machine := (outcome op.perform b.machine).2
  addresses := b.addresses ++ (op.handed? b.machine (outcome op.perform b.machine).1).toList
  names := b.names ++ ((op.draw? b.machine).bind (·.name? b.machine)).toList

theorem perform_of_draw {β : Type} {b : Branch P A V} {op : Op P A V β} {d : Draw V}
    (drawn : op.draw? b.machine = some d) : ∃ trace journal,
      b.perform op =
        { machine := { d.perform b.machine with trace, journal }
          addresses := b.addresses ++ (d.address? b.machine).toList
          names := b.names ++ (d.name? b.machine).toList } := by
  obtain ⟨trace, journal, same⟩ := Op.outcome_of_draw drawn
  refine ⟨trace, journal, ?_⟩
  simp only [perform, Op.handed?_outcome, drawn, Option.bind_some, same]

theorem perform_of_no_draw {β : Type} {b : Branch P A V} {op : Op P A V β}
    (idle : op.draw? b.machine = none) :
    b.perform op = { b with machine := (outcome op.perform b.machine).2 } := by
  simp only [perform, Op.handed?_outcome, idle, Option.bind_none, Option.toList_none,
    List.append_nil]

/-- A branch comes to know what is known to one that is merged into it. -/
def join (b other : Branch P A V) : Branch P A V where
  machine := b.machine.join other.machine
  addresses := b.addresses ++ other.addresses
  names := b.names ++ other.names

end Branch

def Errand.perform (lineage : Lineage P A V) : Errand P A V → Lineage P A V
  | .new policy options => lineage ++ [.new policy options]
  | .act i op => lineage.modify i (·.perform op)
  | .fork i => lineage ++ lineage[i]?.toList
  | .join i j => match lineage[j]? with
      | some other => lineage.modify i (·.join other)
      | none => lineage

/-- A condition on operations where they are performed. -/
abbrev Condition (P A V : Type) [Ord A] [Ord V] :=
  {β : Type} → Branch P A V → Op P A V β → Prop

def Errand.Meets (condition : Condition P A V) (lineage : Lineage P A V) : Errand P A V → Prop
  | .act i op => ∀ b ∈ lineage[i]?, condition b op
  | _ => True

instance {condition : Condition P A V}
    [∀ (β : Type) (b : Branch P A V) (op : Op P A V β), Decidable (condition b op)]
    (lineage : Lineage P A V) (errand : Errand P A V) :
    Decidable (errand.Meets condition lineage) :=
  match errand with
  | .act _ _ => Option.decidableForallMem _
  | .new .. | .fork _ | .join .. => inferInstanceAs (Decidable True)

namespace Lineage

variable {condition : Condition P A V} {lineage : Lineage P A V}

def run (lineage : Lineage P A V) (errands : List (Errand P A V)) : Lineage P A V :=
  errands.foldl Errand.perform lineage

/-- Each operation of a run meets the condition when it is performed. -/
def Meets (condition : Condition P A V) : Lineage P A V → List (Errand P A V) → Prop
  | _, [] => True
  | lineage, errand :: later =>
      errand.Meets condition lineage ∧ Meets condition (errand.perform lineage) later

instance Meets.decide [∀ (β : Type) (b : Branch P A V) (op : Op P A V β), Decidable (condition b op)]
    (lineage : Lineage P A V) (errands : List (Errand P A V)) :
    Decidable (Meets condition lineage errands) :=
  match errands with
  | [] => inferInstanceAs (Decidable True)
  | errand :: later =>
      have := Meets.decide (errand.perform lineage) later
      inferInstanceAs (Decidable (errand.Meets condition lineage ∧ _))

/-- What holds of new branches, is kept by operations that meet the condition and by meetings. -/
structure Keeps (condition : Condition P A V) (Q : Branch P A V → Prop) : Prop where
  new : ∀ policy options, Q (.new policy options)
  perform : ∀ {β : Type} {b : Branch P A V} {op : Op P A V β}, Q b → condition b op →
    Q (b.perform op)
  join : ∀ {b other : Branch P A V}, Q b → Q other → Q (b.join other)

variable {Q : Branch P A V → Prop}

theorem Keeps.forall_perform (keeps : Keeps condition Q) {errand : Errand P A V}
    (all : ∀ b ∈ lineage, Q b) (meets : errand.Meets condition lineage) :
    ∀ b ∈ errand.perform lineage, Q b := by
  cases errand with
  | new policy options =>
    exact List.forall_mem_append.2 ⟨all, List.forall_mem_singleton.2 (keeps.new policy options)⟩
  | act i op => exact forall_modify all fun b there own => keeps.perform own (meets b there)
  | fork i => exact forall_fork all i
  | join i j =>
    simp only [Errand.perform]
    cases found : lineage[j]? with
    | none => exact all
    | some other =>
      exact forall_modify all fun b _ own => keeps.join own (all other (List.mem_of_getElem? found))

theorem Keeps.forall_run (keeps : Keeps condition Q) {errands : List (Errand P A V)}
    (all : ∀ b ∈ lineage, Q b) (meets : lineage.Meets condition errands) :
    ∀ b ∈ lineage.run errands, Q b := by
  induction errands generalizing lineage with
  | nil => exact all
  | cons errand later ih => exact ih (keeps.forall_perform all meets.1) meets.2

end Lineage

/-- The counters that an operation moves can go on. -/
def Op.Fits [AccountablePolicy P] {β : Type} (m : Machine P A V) (op : Op P A V β) : Prop :=
  ∀ d ∈ op.draw? m, d.Fits m

instance [AccountablePolicy P] {β : Type} (m : Machine P A V) (op : Op P A V β) :
    Decidable (op.Fits m) := Option.decidableForallMem _

/-- What an operation asks for an address is in use, or does not matter. -/
def Op.Known [AccountablePolicy P] {β : Type} (m : Machine P A V) (op : Op P A V β) : Prop :=
  ∀ d ∈ op.draw? m, d.Known m

namespace Branch

variable [AccountablePolicy P] {b other : Branch P A V}

/-- The counters are ahead of all that a branch knows. -/
structure Ahead (b : Branch P A V) : Prop where
  addresses : ∀ a ∈ b.addresses, AccountablePolicy.Issued b.machine.policy b.machine.names a
  names : ∀ name ∈ b.names, b.machine.names.Used name

theorem ahead_new (policy : P) (options : Options) :
    (new policy options : Branch P A V).Ahead where
  addresses _ known := absurd known List.not_mem_nil
  names _ known := absurd known List.not_mem_nil

theorem Ahead.join (ahead : b.Ahead) (otherAhead : other.Ahead) : (b.join other).Ahead where
  addresses a known := by
    rcases List.mem_append.1 known with own | merged
    · exact AccountablePolicy.issued_join_left _ _ (ahead.addresses a own)
    · exact AccountablePolicy.issued_join_right _ _ (otherAhead.addresses a merged)
  names name known := by
    rcases List.mem_append.1 known with own | merged
    · exact (ahead.names name own).join_left _
    · exact (otherAhead.names name merged).join_right _

theorem Ahead.perform {β : Type} {op : Op P A V β} (ahead : b.Ahead) (fits : op.Fits b.machine)
    (known : op.Known b.machine) : (b.perform op).Ahead := by
  cases drawn : op.draw? b.machine with
  | none =>
    rw [perform_of_no_draw drawn]
    have idles := op.idles_of_no_draw drawn
    refine ⟨fun a among => ?_, fun name among => ?_⟩
    · rw [idles.policy, idles.names]
      exact ahead.addresses a among
    · rw [idles.names]
      exact ahead.names name among
  | some d =>
    obtain ⟨trace, journal, same⟩ := perform_of_draw drawn
    rw [same]
    refine ⟨fun a among => ?_, fun name among => ?_⟩
    · rcases List.mem_append.1 among with old | handed
      · exact Draw.issued_perform (fits d drawn) (ahead.addresses a old)
      · exact Draw.issued_of_address? (fits d drawn) (known d drawn) (Option.mem_toList.1 handed)
    · rcases List.mem_append.1 among with old | generated
      · exact Draw.used_perform (fits d drawn) (ahead.names name old)
      · exact Draw.used_of_name? (fits d drawn) (Option.mem_toList.1 generated)

end Branch

end Runs

/-- Where each address is handed out once, what a branch is handed next is not among what it knows,
after a collection too: neither by itself, nor by the branch that it was forked from, nor by the
branches that have been merged into it. -/
theorem handed_out_once {V : Type} [Value V Precise] (errands : List (Errand FreshPolicy Precise V))
    (meets : Lineage.Meets (fun b op => op.Fits b.machine) [] errands) :
    ∀ b ∈ Lineage.run [] errands,
      (gensym b.machine).1 ∉ b.names ∧ (∀ name, (alloc name b.machine).1 ∉ b.addresses) ∧
      (∀ v, (Machine.box v b.machine).1 ∉ b.addresses) ∧
      ∀ roots name, (alloc name (gc roots b.machine).2).1 ∉ b.addresses := by
  have keeps : Lineage.Keeps (fun b op => op.Fits b.machine)
      (Branch.Ahead : Branch FreshPolicy Precise V → Prop) :=
    ⟨Branch.ahead_new, fun ahead fits => ahead.perform fits fun d _ => d.known, Branch.Ahead.join⟩
  intro b among
  have ahead : b.Ahead := keeps.forall_run (fun _ none => absurd none List.not_mem_nil) meets b among
  have next : Precise.mk b.machine.policy.next ∉ b.addresses :=
    fun known => not_passed_self _ (ahead.addresses _ known)
  exact ⟨fun known => NameSupply.not_used_fresh _ (ahead.names _ known), fun _ => next, fun _ => next,
    fun _ _ => next⟩

/-- Two branches that go on apart, each merged into the other in the end. -/
def crossing : List (Errand FreshPolicy Precise (Object Precise)) :=
  [.new {} {}, .act 0 (.alloc (.user "x")), .fork 0, .act 0 (.box .top), .act 1 .gensym,
    .act 1 (.box .unit), .act 1 (.box .unit), .join 0 1, .act 0 (.gc ∅),
    .act 0 (.alloc (.user "x")), .join 1 0]

theorem handed_out_once_crossing :
    Lineage.Meets (fun b op => op.Fits b.machine) [] crossing ∧
    (Lineage.run [] crossing).map Branch.addresses =
      [[⟨0⟩, ⟨1⟩, ⟨0⟩, ⟨1⟩, ⟨2⟩, ⟨3⟩], [⟨0⟩, ⟨1⟩, ⟨2⟩, ⟨0⟩, ⟨1⟩, ⟨0⟩, ⟨1⟩, ⟨2⟩, ⟨3⟩]] ∧
    ∀ b ∈ Lineage.run [] crossing,
      (gensym b.machine).1 ∉ b.names ∧ (∀ name, (alloc name b.machine).1 ∉ b.addresses) ∧
      (∀ v, (Machine.box v b.machine).1 ∉ b.addresses) ∧
      ∀ roots name, (alloc name (gc roots b.machine).2).1 ∉ b.addresses := by
  have meets : Lineage.Meets (fun b op => op.Fits b.machine) [] crossing := by decide
  exact ⟨meets, by decide, handed_out_once crossing meets⟩

end AbstractStore
