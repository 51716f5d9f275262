import AbstractStore.Proofs.Moments

/-! The operations of a program, each with the machines before and after it.
Those that a definition asks for itself are among them, so together they have all moments of the
program (`Program.moments_eq`). -/

namespace AbstractStore

open Machine

/-- An operation with its answer, and the machines before and after it. -/
structure Occasion (P A V : Type) [Ord A] [Ord V] : Type 1 where
  {β : Type}
  op : Op P A V β
  before : Machine P A V
  answer : Except (Error A) β
  after : Machine P A V

variable {P A V : Type} [Address A] [Value V A] [AllocationPolicy P A]

def Op.occasion {β : Type} (op : Op P A V β) (m : Machine P A V) : Occasion P A V :=
  ⟨op, m, (outcome op.perform m).1, (outcome op.perform m).2⟩

def Occasion.moments (o : Occasion P A V) : List (Moment P A V) := o.op.moments o.before

/-- What the body of a definition has come to is to be stored, if it has come to a value. -/
def Machine.occasionsOfStore (a : A) (ended : Except (Error A) V × Machine P A V) :
    List (Occasion P A V) :=
  match ended with
  | (.ok v, left) => [(Op.assign a v).occasion left]
  | (.error _, _) => []

/-- The operations of a program that is run from a machine, in order. -/
def Program.occasions {α : Type} : Program P A V α → Machine P A V → List (Occasion P A V)
  | .done _, _ => []
  | .act op next, m =>
      let (answer, after) := outcome op.perform m
      op.occasion m :: (next answer).occasions after
  | .within setting body next, m =>
      let (answer, after) := outcome (setting.enclose body.run) m
      body.occasions (setting.enter m) ++ (next answer).occasions after
  | .define name body next, m =>
      let (a, opened) := m.opened .defining name
      let ended := m.evaluated name body.run
      let (answer, after) := outcome (Machine.define name body.run) m
      (Op.lookupOrAlloc name).occasion m :: body.occasions opened ++ occasionsOfStore a ended ++
        (next answer).occasions after
  | .delegate name body next, m =>
      let (a, opened) := m.opened .delegating name
      let (answer, after) := outcome (Machine.delegate name fun a => (body a).run) m
      (Op.lookupOrAlloc name).occasion m :: (body a).occasions opened ++ (next answer).occasions after

theorem Machine.moments_occasionsOfStore (a : A) (ended : Except (Error A) V × Machine P A V) :
    (occasionsOfStore a ended).flatMap Occasion.moments = momentsOfStore a ended := by
  rcases ended with ⟨e | v, left⟩ <;> rfl

theorem Program.moments_eq {α : Type} (program : Program P A V α) (m : Machine P A V) :
    program.moments m = (program.occasions m).flatMap Occasion.moments := by
  induction program generalizing m with
  | done result => rfl
  | act op next ih => exact congrArg (op.moments m ++ ·) (ih _ _)
  | within setting body next ih_body ih_next =>
    simp only [moments, occasions, List.flatMap_append, ih_body, ih_next]
  | define name body next ih_body ih_next =>
    simp only [moments, occasions, List.flatMap_append, List.flatMap_cons, ih_body, ih_next,
      moments_occasionsOfStore]
    rfl
  | delegate name body next ih_body ih_next =>
    simp only [moments, occasions, List.flatMap_append, List.flatMap_cons, ih_body, ih_next]
    rfl

end AbstractStore
