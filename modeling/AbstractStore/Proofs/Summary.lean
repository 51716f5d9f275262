import AbstractStore.Proofs.Renaming
import Mathlib.Data.Fin.Tuple.Basic

/-! Runs that summarize others.
A client that knows addresses by the order in which it came by them runs on any policy. Where one
policy hands out the same address for several of another and joins what is stored there, its run
covers the other run at every step: nothing that the other binds, holds, stores or reads is
missing. -/

namespace AbstractStore

open Machine

section Cells

variable {A B : Type} [Address A] [Address B] {f : A → B} {a b : A} {o : Object A}
variable {h : Heap A (Object A)} {k : Heap B (Object B)} {mode : StoreMode}

theorem Object.mem_roots_map (embedded : a ∈ Value.roots o) : f a ∈ Value.roots (o.map f) := by
  have image : f a ∈ (o.map f).embedded := by
    rw [Object.embedded_map]
    exact List.mem_map_of_mem (AscSet.mem_ofList.1 embedded)
  exact AscSet.mem_ofList.2 image

namespace Heap

/-- Each cell of `h` has a cell of `k` at the image of its address, and there the images of all of
its values. -/
def Covered (f : A → B) (h : Heap A (Object A)) (k : Heap B (Object B)) : Prop :=
  ∀ a c, h.lookup a = some c → ∃ d, k.lookup (f a) = some d ∧ ∀ o ∈ c, o.map f ∈ d

namespace Covered

theorem mem_valuesAt (covered : Covered f h k) (inCell : o ∈ h.valuesAt a) :
    o.map f ∈ k.valuesAt (f a) := by
  unfold valuesAt at inCell ⊢
  cases found : h.lookup a with
  | none =>
    rw [found] at inCell
    exact absurd inCell (AscSet.not_mem_empty o)
  | some c =>
    obtain ⟨d, image, inside⟩ := covered a c found
    rw [found] at inCell
    rw [image]
    exact inside o inCell

theorem leads (covered : Covered f h k) (next : h.Leads a b) : k.Leads (f a) (f b) := by
  obtain ⟨c, found, o, inCell, embedded⟩ := next
  obtain ⟨d, image, inside⟩ := covered a c found
  exact ⟨d, image, o.map f, inside o inCell, Object.mem_roots_map embedded⟩

theorem reserve (covered : Covered f h k) (a : A) : Covered f (h.reserve a) (k.reserve (f a)) := by
  intro b c found
  rw [lookup_reserve] at found
  by_cases same : f a = f b
  · refine ⟨k.valuesAt (f b), by rw [lookup_reserve, if_pos same, same], fun o inCell => ?_⟩
    have inside : o ∈ h.valuesAt b := by
      split at found
      next here =>
        cases found
        exact here ▸ inCell
      next => rwa [valuesAt, found]
    exact covered.mem_valuesAt inside
  · rw [if_neg fun here => same (congrArg f here)] at found
    rw [lookup_reserve, if_neg same]
    exact covered b c found

/-- Where the covering heap joins what is stored, it does not matter how the covered one stores. -/
theorem assign (covered : Covered f h k) (a : A) (o : Object A) :
    Covered f (h.assign a o mode) (k.assign (f a) (o.map f) .weak) := by
  intro b c found
  rw [lookup_assign] at found
  by_cases same : f a = f b
  · refine ⟨_, by rw [lookup_assign, if_pos same], fun p inCell => ?_⟩
    have stored : p = o ∨ p ∈ h.valuesAt b := by
      split at found
      next here =>
        subst here
        cases found
        cases mode with
        | strong => exact .inl (AscSet.mem_singleton.1 inCell)
        | weak => exact AscSet.mem_insert.1 inCell
      next => exact .inr (by rwa [valuesAt, found])
    rcases stored with rfl | old
    · exact AscSet.mem_insert.2 (.inl rfl)
    · rw [same]
      exact AscSet.mem_insert.2 (.inr (covered.mem_valuesAt old))
  · rw [if_neg fun here => same (congrArg f here)] at found
    rw [lookup_assign, if_neg same]
    exact covered b c found

variable {roots : LiveSet A} {more : LiveSet B}

theorem mem_reachable (covered : Covered f h k) (within : ∀ a ∈ roots, f a ∈ more) :
    ∀ a ∈ h.reachable roots, f a ∈ k.reachable more :=
  forall_reachable (fun a root => mem_reachable_of_mem_roots (within a root))
    fun _ _ reached next => mem_reachable_of_leads reached (covered.leads next)

/-- What a covered heap keeps, the covering heap keeps. -/
theorem collect (covered : Covered f h k) (within : ∀ a ∈ roots, f a ∈ more) :
    Covered f (h.collect roots) (k.collect more) := by
  intro a c found
  rw [lookup_collect] at found
  split at found
  next reached =>
    have kept : f a ∈ k.reachable more := covered.mem_reachable within a reached
    rw [lookup_collect, if_pos kept]
    exact covered a c found
  next => cases found

theorem fill (covered : Covered f h k) (source : Source (Object A)) (a : A) :
    Covered f (source.fill mode h a) ((source.map f).fill .weak k (f a)) := by
  induction source with
  | alloc name => exact covered
  | box o => exact covered.assign a o
  | inModule module source ih => exact ih

end Covered

end Heap

end Cells

section Machines

variable {P A Q B : Type} [Address A] [Address B] {f : A → B}
variable {m : Machine P A (Object A)} {k : Machine Q B (Object B)}

/-- With the addresses of `m` told by `f`, all that `m` knows is in `k`. -/
structure Covers (f : A → B) (m : Machine P A (Object A)) (k : Machine Q B (Object B)) : Prop where
  environment : k.environment = m.environment.map f
  stackRoots : k.stackRoots = m.stackRoots.image f
  cells : ∀ a c, m.heap.lookup a = some c →
    ∃ d, k.heap.lookup (f a) = some d ∧ ∀ o ∈ c, o.map f ∈ d
  reads : ∀ a c, (Id.run (deref a m)).1 = .ok c →
    ∃ d, (Id.run (deref (f a) k)).1 = .ok d ∧ ∀ o ∈ c, o.map f ∈ d

/-- What each step keeps: `m` has no handlers, and `k` stores as its policy says. -/
structure Tracks (f : A → B) (m : Machine P A (Object A)) (k : Machine Q B (Object B)) : Prop where
  environment : k.environment = m.environment.map f
  stackRoots : k.stackRoots = m.stackRoots.image f
  cells : m.heap.Covered f k.heap
  strict : m.recovery.address = none
  undeclared : k.options.storeMode = none

namespace Tracks

theorem fresh {policy : P} {other : Q} {options summary : Options}
    (undeclared : summary.storeMode = none) :
    Tracks f (Machine.fresh policy options) (Machine.fresh other summary) where
  environment := rfl
  stackRoots := rfl
  cells a c found := by cases found
  strict := rfl
  undeclared := undeclared

theorem mem_liveRoots (tracks : Tracks f m k) : ∀ a ∈ m.liveRoots, f a ∈ k.liveRoots := by
  intro a live
  rw [Machine.mem_liveRoots, tracks.environment, tracks.stackRoots]
  rcases Machine.mem_liveRoots.1 live with bound | held
  · exact .inl (Environment.mem_roots_map bound)
  · exact .inr (AscSet.mem_image.2 ⟨a, held, rfl⟩)

theorem reads (tracks : Tracks f m k) {a : A} {c : Cell (Object A)} (read : m.reading a = .ok c) :
    ∃ d, k.reading (f a) = .ok d ∧ ∀ o ∈ c, o.map f ∈ d := by
  have noAnswer (fault : AddressFault A) : m.onFault fault = .error (.address fault) := by
    simp only [onFault, Recovery.answerAddress, tracks.strict, Option.bind_none]
  unfold reading at read
  cases found : m.heap.lookup a with
  | none =>
    rw [found] at read
    simp [noAnswer] at read
  | some cell =>
    rw [found] at read
    by_cases empty : cell.isEmpty = true
    · simp [empty, noAnswer] at read
    · obtain rfl : cell = c := by simpa [empty] using read
      obtain ⟨d, image, inside⟩ := tracks.cells a cell found
      refine ⟨d, ?_, inside⟩
      have nonempty : d.isEmpty = false := by
        obtain ⟨o, inCell⟩ := AscSet.isEmpty_eq_false_iff.1 (Bool.eq_false_iff.2 empty)
        exact AscSet.isEmpty_eq_false_iff.2 ⟨o.map f, inside o inCell⟩
      simp [reading, image, nonempty]

theorem covers (tracks : Tracks f m k) : Covers f m k := by
  refine ⟨tracks.environment, tracks.stackRoots, tracks.cells, fun a c read => ?_⟩
  obtain ⟨trace, journal, derefM⟩ := deref_eq a m
  obtain ⟨traceK, journalK, derefK⟩ := deref_eq (f a) k
  have here : m.reading a = .ok c := (congrArg Prod.fst derefM).symm.trans read
  obtain ⟨d, there, inside⟩ := tracks.reads here
  exact ⟨d, (congrArg Prod.fst derefK).trans there, inside⟩

variable [AllocationPolicy P A] [AllocationPolicy Q B]

theorem step {step : Step A (Object A)} (tracks : Tracks f m k) (keeps : step.removesRoot = false)
    (weak : ∀ (q : Q) (b : B), AllocationPolicy.storeMode q b = .weak) :
    Tracks f (step.perform m).2 ((step.map f).perform k).2 := by
  obtain ⟨trace, journal, stepM⟩ := step.perform_eq m
  obtain ⟨traceK, journalK, stepK⟩ := (step.map f).perform_eq k
  have covered : (step.heap m).Covered f ((step.map f).heap k) := by
    cases step with
    | assign a o =>
      have joins : k.storeMode (f a) = .weak := by
        rw [storeMode, tracks.undeclared, Option.getD_none, weak]
      change (m.heap.assign a o _).Covered f (k.heap.assign (f a) (o.map f) (k.storeMode (f a)))
      rw [joins]
      exact tracks.cells.assign a o
    | gc roots =>
      exact tracks.cells.collect fun a root => AscSet.mem_image.2 ⟨a, root, rfl⟩
    | collect => exact tracks.cells.collect tracks.mem_liveRoots
    | deref | lookup | bind | remove | overwrite | pushScope | popScope | addRoot | removeRoot =>
      exact tracks.cells
  have environment :
      (step.map f).environment k.environment = (step.environment m.environment).map f := by
    rw [tracks.environment]
    exact step.environment_map m.environment
  have stackRoots :
      (step.map f).stackRoots k.stackRoots = (step.stackRoots m.stackRoots).image f := by
    rw [tracks.stackRoots]
    exact step.stackRoots_map keeps
  rw [stepM, stepK]
  exact ⟨environment, stackRoots, covered, tracks.strict, tracks.undeclared⟩

theorem obtain {source : Source (Object A)} (tracks : Tracks f m k)
    (weak : ∀ (q : Q) (b : B), AllocationPolicy.storeMode q b = .weak)
    (told : f (source.perform m).1 = ((source.map f).perform k).1) :
    Tracks f (source.perform m).2 ((source.map f).perform k).2 := by
  obtain ⟨trace, journal, sourceM⟩ := source.perform_eq m
  obtain ⟨traceK, journalK, sourceK⟩ := (source.map f).perform_eq k
  rcases drawnM : source.draw m.policy m.names m.module with ⟨a, policy, names⟩
  rcases drawnK : (source.map f).draw k.policy k.names k.module with ⟨b, policyK, namesK⟩
  rw [drawnM] at sourceM
  rw [drawnK] at sourceK
  rw [sourceM, sourceK] at told ⊢
  obtain rfl : f a = b := told
  have joins : storeMode { k with policy := policyK } (f a) = .weak := by
    rw [storeMode, tracks.undeclared, Option.getD_none, weak]
  simp only [joins]
  exact ⟨tracks.environment, tracks.stackRoots, (tracks.cells.reserve a).fill source a,
    tracks.strict, tracks.undeclared⟩

end Tracks

/-- A script of a client that knows addresses by the order in which it came by them. It lets go of
no root. -/
inductive Script : Nat → Type where
  | empty : Script 0
  | obtain {n : Nat} (earlier : Script n) (source : Source (Object (Fin n))) : Script (n + 1)
  | act {n : Nat} (earlier : Script n) (step : Step (Fin n) (Object (Fin n)))
      (keeps : step.removesRoot = false) : Script n

namespace Script

/-- The addresses that the client came by, and the machine after the script. -/
def run [AllocationPolicy P A] (m : Machine P A (Object A)) :
    {n : Nat} → Script n → (Fin n → A) × Machine P A (Object A)
  | _, .empty => (Fin.elim0, m)
  | _, .obtain earlier source =>
      let before := earlier.run m
      let handed := (source.map before.1).perform before.2
      (Fin.snoc before.1 handed.1, handed.2)
  | _, .act earlier step _ =>
      let before := earlier.run m
      (before.1, ((step.map before.1).perform before.2).2)

/-- A script as far as it has come. -/
inductive Begins {k : Nat} (start : Script k) : {n : Nat} → Script n → Prop where
  | refl : start.Begins start
  | obtain {n : Nat} {earlier : Script n} {source : Source (Object (Fin n))}
      (begins : start.Begins earlier) : start.Begins (earlier.obtain source)
  | act {n : Nat} {earlier : Script n} {step : Step (Fin n) (Object (Fin n))}
      {keeps : step.removesRoot = false} (begins : start.Begins earlier) :
      start.Begins (earlier.act step keeps)

/-- What the client came by in the one run, told by `f`, is what it came by in the other. -/
def Tells [AllocationPolicy P A] [AllocationPolicy Q B] {n : Nat} (script : Script n) (f : A → B)
    (m : Machine P A (Object A)) (k : Machine Q B (Object B)) : Prop :=
  ∀ i, f ((script.run m).1 i) = (script.run k).1 i

section Runs

variable [AllocationPolicy P A] [AllocationPolicy Q B] {n l : Nat}

theorem Tells.of_begins {start : Script l} {script : Script n} (begins : start.Begins script)
    (tells : script.Tells f m k) : start.Tells f m k := by
  induction begins with
  | refl => exact tells
  | obtain begins ih =>
    refine ih fun i => ?_
    have told := tells i.castSucc
    simpa only [run, Fin.snoc_castSucc] using told
  | act begins ih => exact ih tells

theorem tracks_run {script : Script n} (tracks : Tracks f m k)
    (weak : ∀ (q : Q) (b : B), AllocationPolicy.storeMode q b = .weak)
    (tells : script.Tells f m k) : Tracks f (script.run m).2 (script.run k).2 := by
  induction script with
  | empty => exact tracks
  | obtain earlier source ih =>
    have before : earlier.Tells f m k := tells.of_begins (.obtain .refl)
    have handles : (earlier.run k).1 = f ∘ (earlier.run m).1 :=
      funext fun i => (before i).symm
    have told := tells (Fin.last _)
    -- the second run takes, told by `f`, the very steps of the first
    simp only [run, Fin.snoc_last, handles, ← Source.map_map] at told
    simp only [run, handles, ← Source.map_map]
    exact (ih before).obtain weak told
  | act earlier step keeps ih =>
    have handles : (earlier.run k).1 = f ∘ (earlier.run m).1 :=
      funext fun i => (tells i).symm
    simp only [run, handles, ← Step.map_map]
    exact (ih tells).step (step.removesRoot_map.trans keeps) weak

/-- A policy that hands out each address once numbers what the client comes by. -/
theorem handle_fresh (script : Script n) (options : Options) :
    let ran := script.run (fresh ({} : FreshPolicy) options)
    ran.2.policy = ⟨UInt64.ofNat n⟩ ∧ ∀ i, ran.1 i = ⟨UInt64.ofNat i⟩ := by
  induction script with
  | empty => exact ⟨rfl, fun i => i.elim0⟩
  | @obtain n earlier source ih =>
    obtain ⟨policy, handles⟩ := ih
    let before := earlier.run (fresh ({} : FreshPolicy) options)
    obtain ⟨trace, journal, handed⟩ := (source.map before.1).perform_fresh before.2
    rw [policy] at handed
    refine ⟨?_, fun i => ?_⟩
    · change ((source.map before.1).perform before.2).2.policy = _
      rw [handed, UInt64.ofNat_add]
      rfl
    · change (Fin.snoc before.1 ((source.map before.1).perform before.2).1 :
        Fin (n + 1) → Precise) i = _
      rw [handed]
      refine Fin.lastCases ?_ (fun i => ?_) i
      · rw [Fin.snoc_last, Fin.val_last]
      · rw [Fin.snoc_castSucc]
        exact handles i
  | act earlier step keeps ih =>
    let before := earlier.run (fresh ({} : FreshPolicy) options)
    obtain ⟨trace, journal, stepped⟩ := (step.map before.1).perform_eq before.2
    refine ⟨?_, ih.2⟩
    change ((step.map before.1).perform before.2).2.policy = _
    rw [stepped]
    exact ih.1

theorem exists_tells (script : Script n) (few : n ≤ UInt64.size) (options : Options)
    (k : Machine Q B (Object B)) : ∃ f, script.Tells f (fresh ({} : FreshPolicy) options) k := by
  have injective : Function.Injective (script.run (fresh ({} : FreshPolicy) options)).1 := by
    intro i j same
    rw [(script.handle_fresh options).2, (script.handle_fresh options).2] at same
    have indices : (UInt64.ofNat i).toNat = (UInt64.ofNat j).toNat :=
      congrArg (·.index.toNat) same
    rw [UInt64.toNat_ofNat_of_lt' (by omega), UInt64.toNat_ofNat_of_lt' (by omega)] at indices
    exact Fin.ext indices
  let other : B := (AllocationPolicy.allocate k.policy (.user "") k.module).1
  exact ⟨Function.extend _ (script.run k).1 fun _ => other, injective.extend_apply _ _⟩

end Runs

/-- Take a script on a machine that gives each allocation an address of its own, and on one that
gives an address to each name, or to each name of a module, and stores as its policy says. Then a
map tells the addresses of the one run in those of the other, as long as none is handed out twice,
and by each such map the summarizing machine covers the precise one at every step. -/
theorem summary_covers_precise (options summary : Options) (undeclared : summary.storeMode = none)
    {n : Nat} (script : Script n) :
    let precise : Machine FreshPolicy Precise (Object Precise) := fresh {} options
    let perName : Machine PerNamePolicy Monovariant (Object Monovariant) := fresh {} summary
    let perModule : Machine PerModulePolicy Located (Object Located) := fresh {} summary
    (n ≤ UInt64.size →
      (∃ f, script.Tells f precise perName) ∧ ∃ f, script.Tells f precise perModule) ∧
    (∀ f, script.Tells f precise perName → ∀ {l : Nat} (start : Script l), start.Begins script →
      Covers f (start.run precise).2 (start.run perName).2) ∧
    ∀ f, script.Tells f precise perModule → ∀ {l : Nat} (start : Script l), start.Begins script →
      Covers f (start.run precise).2 (start.run perModule).2 := by
  refine ⟨fun few => ⟨script.exists_tells few options _, script.exists_tells few options _⟩,
    fun f tells l start begins => ?_, fun f tells l start begins => ?_⟩
  · exact (tracks_run (.fresh undeclared) (fun _ _ => rfl) (tells.of_begins begins)).covers
  · exact (tracks_run (.fresh undeclared) (fun _ _ => rfl) (tells.of_begins begins)).covers

/-- A name is allocated twice, each time for another object, and the first one is let go of. -/
def sharedName : Script 2 :=
  let first : Script 1 := .act (.obtain .empty (.alloc (.user "x"))) (.assign 0 (.integer 1)) rfl
  let second : Script 2 := .act (.obtain first (.alloc (.user "x"))) (.assign 1 (.boolean true)) rfl
  .act (.act second (.bind (.user "x") 1) rfl) .collect rfl

/-- The address of the name covers both of the precise ones. -/
theorem summary_covers_precise_sharedName :
    let told : Precise → Monovariant := fun _ => ⟨.user "x"⟩
    let precise : Machine FreshPolicy Precise (Object Precise) := fresh {} {}
    let perName : Machine PerNamePolicy Monovariant (Object Monovariant) := fresh {} {}
    ({} : Options).storeMode = none ∧ sharedName.Tells told precise perName ∧
      Covers told (sharedName.run precise).2 (sharedName.run perName).2 := by
  intro told precise perName
  have tells : sharedName.Tells told precise perName := by
    intro i
    match i with
    | 0 => rfl
    | 1 => rfl
  exact ⟨rfl, tells, (summary_covers_precise {} {} rfl sharedName).2.1 told tells sharedName .refl⟩

end Script

end Machines

end AbstractStore
