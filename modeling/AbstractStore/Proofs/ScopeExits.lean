import AbstractStore.Proofs.Moments

/-! What is left of the scopes of a program that enters and leaves them as it likes.
A scope is left by a step of its own or at the end of a construct (`Program.departures`). As long as
a program leaves none but those it has entered itself, all scopes around the one it was started in
stay as they are (`Program.suffix_run`). The construct `locally` leaves one scope at the end of its
body. That is the one it has entered exactly if its body has left all of its own. -/

namespace AbstractStore

open Machine

namespace Environment

theorem frames_injective {A : Type} {e f : Environment A} (same : e.frames = f.frames) : e = f := by
  obtain ⟨innermost, enclosing⟩ := List.cons.inj same
  cases e; cases f
  exact congrArg₂ mk innermost enclosing

theorem pop?_of_enclosing {A : Type} {e f : Environment A} (within : e.enclosing = f.frames) :
    e.pop? = some (e.innermost, f) := by
  rw [pop?, within]
  rfl

end Environment

section Order

variable {P A V : Type} [Ord A] [Ord V]

/-- An operation enters a scope, leaves one, or binds in the innermost one at most. -/
def Op.Scopewise {β : Type} : Op P A V β → Prop
  | .rebind change => ∀ e, (change e).enclosing = e.enclosing
  | _ => True

def Program.Scopewise {α : Type} : Program P A V α → Prop
  | .done _ => True
  | .act op next => op.Scopewise ∧ ∀ answer, (next answer).Scopewise
  | .within _ body next => body.Scopewise ∧ ∀ answer, (next answer).Scopewise
  | .define _ body next => body.Scopewise ∧ ∀ answer, (next answer).Scopewise
  | .delegate _ body next => (∀ a, (body a).Scopewise) ∧ ∀ answer, (next answer).Scopewise

/-- The machine that an operation leaves a scope from, if it does. -/
def Op.departures {β : Type} (m : Machine P A V) : Op P A V β → List (Machine P A V)
  | .popScope => [m]
  | _ => []

/-- The machine that a construct leaves its scope from, if it has one of its own. -/
def Setting.departures (ended : Machine P A V) : Setting A V → List (Machine P A V)
  | .locally => [ended]
  | _ => []

/-- Leaving a scope of which there is one more around the others than before leaves the others. -/
theorem Machine.suffix_popScope {m : Machine P A V} {base : List (Frame A)}
    (below : base <:+ m.environment.enclosing) (own : base.length + 1 < m.environment.depth) :
    base <:+ (outcome popScope m).2.environment.enclosing := by
  rw [outcome_popScope]
  rcases m with ⟨_, _, ⟨innermost, _ | ⟨nearest, others⟩⟩⟩
  · exact below
  · rcases List.suffix_cons_iff.1 below with rfl | below
    · exact absurd own (Nat.lt_irrefl _)
    · exact below

theorem Machine.environment_locally {α : Type} (body : Eval P A V α) (m : Machine P A V) :
    (outcome (locally body) m).2.environment =
      (outcome popScope (outcome body (pushScope m).2).2).2.environment := by
  rw [outcome_locally]
  generalize outcome body (pushScope m).2 = ended
  simp only
  generalize outcome popScope ended.2 = left
  rcases left with ⟨_ | _, left⟩ <;> rfl

/-- After a construct the scopes are those that its body has left, but for its own. -/
theorem Setting.suffix_enclose {α : Type} {setting : Setting A V} {body : Eval P A V α}
    {m : Machine P A V} {base : List (Frame A)}
    (below : base <:+ (outcome body (setting.enter m)).2.environment.enclosing)
    (own : ∀ left ∈ setting.departures (outcome body (setting.enter m)).2,
      base.length + 1 < left.environment.depth) :
    base <:+ (outcome (setting.enclose body) m).2.environment.enclosing := by
  cases setting with
  | locally =>
    have left : (outcome (Setting.locally.enclose body) m).2.environment = _ :=
      environment_locally body m
    rw [left]
    exact suffix_popScope below (own _ (List.mem_singleton_self _))
  | plain | inModule | strictly | recovering | recoveringVariables => exact below

end Order

variable {P A V : Type} [Address A] [Value V A] [AllocationPolicy P A]

/-- The machines that a program leaves a scope from, in order. -/
def Program.departures {α : Type} : Program P A V α → Machine P A V → List (Machine P A V)
  | .done _, _ => []
  | .act op next, m =>
      let ended := outcome op.perform m
      op.departures m ++ (next ended.1).departures ended.2
  | .within setting body next, m =>
      let inner := setting.enter m
      let ended := outcome (setting.enclose body.run) m
      body.departures inner ++ setting.departures (outcome body.run inner).2 ++
        (next ended.1).departures ended.2
  | .define name body next, m =>
      let inner := (m.opened .defining name).2
      let ended := outcome (Machine.define name body.run) m
      body.departures inner ++ (outcome body.run inner).2 :: (next ended.1).departures ended.2
  | .delegate name body next, m =>
      let (a, inner) := m.opened .delegating name
      let ended := outcome (Machine.delegate name fun a => (body a).run) m
      (body a).departures inner ++ (outcome (body a).run inner).2 ::
        (next ended.1).departures ended.2

/-- A program leaves no scope but those that it has entered: wherever it leaves one there are more
than it was started with. -/
def Program.LeavesOwn {α : Type} (program : Program P A V α) (m : Machine P A V) : Prop :=
  ∀ left ∈ program.departures m, m.environment.depth < left.environment.depth

section Run

variable {α : Type} {m : Machine P A V} {base : List (Frame A)}

theorem Op.suffix_perform {β : Type} {op : Op P A V β} (scopewise : op.Scopewise)
    (below : base <:+ m.environment.enclosing)
    (own : ∀ left ∈ op.departures m, base.length + 1 < left.environment.depth) :
    base <:+ (outcome op.perform m).2.environment.enclosing := by
  have inside (keeps : op.KeepsScopes) :
      base <:+ (outcome op.perform m).2.environment.enclosing := by
    rwa [(confined_perform keeps m).enclosing]
  cases op with
  | popScope => exact suffix_popScope below (own m (List.mem_singleton_self m))
  | pushScope => exact below.trans (List.suffix_cons ..)
  | rebind change => exact inside scopewise
  | alloc | gc | collect | deref | assign | lookup | bind | gensym | box | lookupOrAlloc
  | freeVariable | resolve | addRoot | removeRoot | setModule | setSpan | setRecovery | inspect =>
    exact inside trivial

theorem Machine.environment_delegate (name : Name) (body : A → Eval P A V α) (m : Machine P A V) :
    (outcome (delegate name body) m).2.environment =
      (outcome popScope (outcome (body (m.opened .delegating name).1)
        (m.opened .delegating name).2).2).2.environment := by
  let a := (lookupOrAlloc name m).1
  let announced := (lookupOrAlloc name m).2.note (.delegating name a)
  exact environment_locally (perform (Machine.bind name a) >>= fun _ => body a) announced

theorem Machine.environment_define (name : Name) (body : Eval P A V V) (m : Machine P A V) :
    (outcome (define name body) m).2.environment =
      (outcome popScope (outcome body (m.opened .defining name).2).2).2.environment := by
  let a := (lookupOrAlloc name m).1
  let announced := (lookupOrAlloc name m).2.note (.defining name a)
  have evaluated : (m.evaluated name body).2.environment = _ :=
    environment_locally (perform (Machine.bind name a) >>= fun _ => body) announced
  have stored : (outcome (define name body) m).2.environment =
      (m.evaluated name body).2.environment := by
    rw [outcome_define_eq]
    rcases m.evaluated name body with ⟨e | v, left⟩ <;> rfl
  exact stored.trans evaluated

theorem Machine.suffix_opened (below : base <:+ m.environment.enclosing)
    (announce : Name → A → Event A V) (name : Name) :
    base <:+ (m.opened announce name).2.environment.enclosing := by
  rw [enclosing_opened]
  exact below.trans (List.suffix_cons ..)

/-- By induction on what the program does next. -/
theorem Program.suffix_run {program : Program P A V α} (scopewise : program.Scopewise)
    (below : base <:+ m.environment.enclosing)
    (own : ∀ left ∈ program.departures m, base.length + 1 < left.environment.depth) :
    base <:+ (outcome program.run m).2.environment.enclosing := by
  induction program generalizing m with
  | done result => exact below
  | act op next ih =>
    rw [departures, List.forall_mem_append] at own
    obtain ⟨ownOp, ownNext⟩ := own
    exact ih _ (scopewise.2 _) (op.suffix_perform scopewise.1 below ownOp) ownNext
  | within setting body next ih_body ih_next =>
    rw [departures, List.forall_mem_append, List.forall_mem_append] at own
    obtain ⟨⟨ownBody, ownExit⟩, ownNext⟩ := own
    have inner := ih_body scopewise.1 (below.trans (setting.enclosing_enter m)) ownBody
    exact ih_next _ (scopewise.2 _) (Setting.suffix_enclose inner ownExit) ownNext
  | define name body next ih_body ih_next =>
    rw [departures, List.forall_mem_append, List.forall_mem_cons] at own
    obtain ⟨ownBody, ownExit, ownNext⟩ := own
    have left := suffix_popScope
      (ih_body scopewise.1 (suffix_opened below .defining name) ownBody) ownExit
    rw [← environment_define] at left
    exact ih_next _ (scopewise.2 _) left ownNext
  | delegate name body next ih_body ih_next =>
    rw [departures, List.forall_mem_append, List.forall_mem_cons] at own
    obtain ⟨ownBody, ownExit, ownNext⟩ := own
    have left := suffix_popScope
      (ih_body _ (scopewise.1 _) (suffix_opened below .delegating name) ownBody) ownExit
    rw [← environment_delegate name fun a => (body a).run] at left
    exact ih_next _ (scopewise.2 _) left ownNext

end Run

/-- Where a part of a program, in a scope of its own, leaves no scopes but those that it has
entered, its result is what comes of the whole, and the scopes around it are as they were. One more
scope is left at its end, the innermost. So of those that it has entered and not left all but one
stay, and its own with them: the scopes are what they were before exactly if it has left all that it
has entered. -/
theorem locally_leaves_innermost {α : Type} {body : Program P A V α} {m : Machine P A V}
    (scopewise : body.Scopewise) (own : body.LeavesOwn (pushScope m).2) :
    let ended := outcome body.run (pushScope m).2
    let final := outcome (locally body.run) m
    final.1 = ended.1 ∧ final.2 = { ended.2 with environment := final.2.environment } ∧
    (∃ inner opened, ended.2.environment.frames = inner :: opened ++ m.environment.frames ∧
      final.2.environment.frames = opened ++ m.environment.frames) ∧
    (final.2.environment = m.environment ↔
      ended.2.environment.depth = (pushScope m).2.environment.depth) := by
  intro ended final
  obtain ⟨opened, split⟩ : m.environment.frames <:+ ended.2.environment.enclosing :=
    Program.suffix_run scopewise List.suffix_rfl own
  obtain ⟨outer, frames⟩ : ∃ outer : Environment A,
      outer.frames = opened ++ m.environment.frames := by
    cases opened with
    | nil => exact ⟨m.environment, rfl⟩
    | cons frame opened => exact ⟨⟨frame, opened ++ m.environment.frames⟩, rfl⟩
  have left : final = (ended.1, { ended.2 with environment := outer }) := by
    have popped := Environment.pop?_of_enclosing (split.symm.trans frames.symm)
    simp only [final, outcome_locally, outcome_popScope, ended] at popped ⊢
    rw [popped]
  have whole : ended.2.environment.frames =
      ended.2.environment.innermost :: opened ++ m.environment.frames := by
    rw [Environment.frames, List.cons_append, split]
  refine ⟨by rw [left], by rw [left], ⟨_, opened, whole, by rw [left, frames]⟩, ?_⟩
  have deep : ended.2.environment.depth = opened.length + m.environment.depth + 1 := by
    rw [Environment.depth, whole, List.length_append, List.length_cons, Environment.depth]
    omega
  have entered : (pushScope m).2.environment.depth = m.environment.depth + 1 := rfl
  have restored : outer = m.environment ↔ opened.length = 0 := by
    rw [List.length_eq_zero_iff]
    constructor
    · rintro rfl
      exact List.append_left_eq_self.1 frames.symm
    · rintro rfl
      exact Environment.frames_injective frames
  rw [left, restored, deep, entered]
  omega

/-- Enters a scope and ends in an error before it can leave it. -/
def opensAndFails : Program FreshPolicy Precise (Object Precise) Unit :=
  .act .pushScope fun _ => .done (.error (.custom "boom"))

/-- The scope that is left is the one that its body has entered, and its own is still there. -/
theorem opensAndFails_leaves_scope :
    let m : Machine FreshPolicy Precise (Object Precise) := fresh {} {}
    opensAndFails.Scopewise ∧ opensAndFails.LeavesOwn (pushScope m).2 ∧
    (outcome (locally opensAndFails.run) m).1 = .error (.custom "boom") ∧
    (outcome (locally opensAndFails.run) m).2.environment.frames = [∅, ∅] ∧
    m.environment.frames = [∅] :=
  ⟨⟨trivial, fun _ => trivial⟩, nofun, rfl, rfl, rfl⟩

/-- Binds a name in a scope that it enters, evaluates what fails in a further one, and leaves its
own before it fails. -/
def leavesAndFails : Program FreshPolicy Precise (Object Precise) Unit :=
  .act .pushScope fun _ => .act (.bind (.user "x") ⟨1⟩) fun _ =>
    .within .locally (.act (.bind (.user "y") ⟨2⟩) fun _ => .done (.error (.custom "inner")))
      fun (_ : Except _ Unit) => .act .popScope fun _ => .done (.error (.custom "outer"))

theorem locally_leaves_innermost_leavesAndFails :
    let m : Machine FreshPolicy Precise (Object Precise) := (bind (.user "x") ⟨7⟩ (fresh {} {})).2
    leavesAndFails.Scopewise ∧ leavesAndFails.LeavesOwn (pushScope m).2 ∧
    (outcome (locally leavesAndFails.run) m).1 = .error (.custom "outer") ∧
    (outcome (locally leavesAndFails.run) m).2.environment = m.environment := by
  intro m
  have scopewise : leavesAndFails.Scopewise :=
    ⟨trivial, fun _ => ⟨trivial, fun _ => ⟨⟨trivial, fun _ => trivial⟩, fun _ =>
      ⟨trivial, fun _ => trivial⟩⟩⟩⟩
  have depths : (leavesAndFails.departures (pushScope m).2).map (·.environment.depth) = [4, 3] := by
    decide +kernel
  have own : leavesAndFails.LeavesOwn (pushScope m).2 := by
    have entered : (pushScope m).2.environment.depth = 2 := rfl
    rw [Program.LeavesOwn, entered, ← List.forall_mem_map (P := fun depth => 2 < depth), depths]
    decide
  have failed : (outcome leavesAndFails.run (pushScope m).2).1 = .error (.custom "outer") := by
    decide +kernel
  obtain ⟨result, -, -, restored⟩ := locally_leaves_innermost scopewise own
  refine ⟨scopewise, own, result.trans failed, restored.2 ?_⟩
  decide +kernel

end AbstractStore
