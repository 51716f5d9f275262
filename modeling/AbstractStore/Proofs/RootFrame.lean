import AbstractStore.Proofs.Branches
import AbstractStore.Proofs.Json.Views
import AbstractStore.Proofs.Programs
import AbstractStore.Proofs.RoundTrip
import AbstractStore.Snapshot
import Mathlib.Data.List.Induction
import Mathlib.Data.List.ModifyLast

/-! Every environment has a root frame.
An environment is held as its innermost frame and those around it, so it cannot be without one. Here
it is set beside a plain list of frames, the root first, which may be empty: what is read from a
text without a check, and what the steps of a client make of a list by its last frame. The two stay
the same (`Tracked.Grounded`), so the list is never empty, and no step is lost on it. -/

namespace AbstractStore

open Machine

namespace Environment

variable {A : Type} {e outer : Environment A} {f : Frame A}

/-- The frames with the root frame first. -/
def stack (e : Environment A) : List (Frame A) := e.frames.reverse

theorem stack_eq (e : Environment A) : e.stack = e.enclosing.reverse ++ [e.innermost] :=
  List.reverse_cons

theorem stack_ne_nil (e : Environment A) : e.stack ≠ [] :=
  e.stack_eq ▸ List.concat_ne_nil e.innermost e.enclosing.reverse

theorem length_stack (e : Environment A) : e.stack.length = e.depth := List.length_reverse

theorem stack_push (e : Environment A) : e.push.stack = e.stack ++ [∅] := List.reverse_cons

theorem stack_of_pop? (popped : e.pop? = some (f, outer)) : e.stack = outer.stack ++ [f] := by
  obtain ⟨innermost, _ | ⟨nearest, others⟩⟩ := e
  · cases popped
  · cases popped
    exact List.reverse_cons

theorem modifyLast_stack (e : Environment A) (change : Frame A → Frame A) :
    e.stack.modifyLast change = stack { e with innermost := change e.innermost } := by
  rw [stack_eq, stack_eq, List.modifyLast_concat]

/-- The innermost frame is where the last one of the list is looked for. -/
theorem getElem?_stack (e : Environment A) : e.stack[e.stack.length - 1]? = some e.innermost := by
  rw [stack_eq, List.length_append, List.length_singleton, Nat.add_sub_cancel,
    List.getElem?_concat_length]

theorem lookupLocal_bind {name other : Name} {a : A} :
    (e.bind name a).lookupLocal other = if name = other then some a else e.lookupLocal other := by
  simp only [lookupLocal, bind, AscMap.get?_insert, Std.LawfulEqCmp.compare_eq_iff_eq]

theorem stack_of_ofFrames {frames : List (Frame A)} (packed : ofFrames frames = .ok e) :
    e.stack = frames := by
  unfold ofFrames at packed
  split at packed
  next => cases packed
  next innermost enclosing reversed =>
    cases packed
    exact List.reverse_eq_iff.2 reversed.symm

theorem enclosing_overwrite (e : Environment A) (pairs : List (Name × Name)) :
    (e.overwrite pairs).enclosing = e.enclosing := by
  have bound (bindings : List (Name × A)) (e : Environment A) :
      (bindings.foldl (fun e b => e.bind b.1 b.2) e).enclosing = e.enclosing := by
    induction bindings generalizing e with
    | nil => rfl
    | cons b bindings ih => exact ih (e.bind b.1 b.2)
  exact bound (e.resolved pairs) e

section Codec

variable [Address A]

/-- Frames in a text, none of which need be there. -/
def framesCodec : Json.Codec (List (Frame A)) := .record (.one "frames" (.list frameCodec))

theorem readsAs_framesCodec :
    (codec : Json.Codec (Environment A)).decode.ReadsAs stack framesCodec.decode :=
  Json.Codec.refine_readsAs (.refl _) fun _ _ => stack_of_ofFrames

end Codec

end Environment

section Snapshots

variable {T A V : Type} [Address A] [Value V A]

open Json in
/-- A snapshot in a text, with the frames of its environment unchecked. -/
def Snapshot.framesCodec (term : Codec T) (value : Codec V) :
    Codec (T × LiveSet A × List (Frame A) × Heap A V) :=
  .record ((Fields.one "term" term).and ((Fields.one "roots" LiveSet.codec).and
    ((Fields.one "environment" Environment.framesCodec).and (.one "heap" (Heap.codec value)))))

open Json in
theorem Snapshot.readsAs_framesCodec (term : Codec T) (value : Codec V) :
    (Snapshot.codec term value : Codec (Snapshot T A V)).decode.ReadsAs
      (fun s => (s.term, s.roots, s.environment.stack, s.heap))
      (Snapshot.framesCodec term value).decode := by
  have parts := (Fields.ReadsAs.one "term" (.refl term.decode)).and
    ((Fields.ReadsAs.one "roots" (.refl (LiveSet.codec (A := A)).decode)).and
      ((Fields.ReadsAs.one "environment" (Environment.readsAs_framesCodec (A := A))).and
        (.one "heap" (.refl (Heap.codec (A := A) value).decode))))
  exact Codec.via_readsAs parts.record fun _ => rfl

end Snapshots

namespace Step

section Frames

variable {A V : Type} [Ord A]

/-- What a name is bound to in the last frame that binds it. -/
def seek (frames : List (Frame A)) (name : Name) : Option A :=
  frames.reverse.findSome? (·.get? name)

/-- A list of frames after a step. What concerns its last frame is lost where there is none. -/
def frames (frames : List (Frame A)) : Step A V → List (Frame A)
  | .bind name a => frames.modifyLast (·.insert name a)
  | .remove name => frames.modifyLast (·.erase name)
  | .overwrite pairs =>
      (pairs.filterMap fun p => (seek frames p.2).map (p.1, ·)).foldl
        (fun frames b => frames.modifyLast (·.insert b.1 b.2)) frames
  | .pushScope => frames ++ [∅]
  | .popScope => if frames.length ≤ 1 then frames else frames.dropLast
  | _ => frames

/-- The number of scopes that a step enters. -/
def entered : Step A V → Nat
  | .pushScope => 1
  | _ => 0

/-- The number of scopes that a step leaves. -/
def left (e : Environment A) : Step A V → Nat
  | .popScope => if e.pop?.isSome then 1 else 0
  | _ => 0

theorem stack_overwrite (e : Environment A) (pairs : List (Name × Name)) :
    (e.overwrite pairs).stack = frames e.stack (.overwrite pairs : Step A V) := by
  have bound (bindings : List (Name × A)) (e : Environment A) :
      (bindings.foldl (fun e b => e.bind b.1 b.2) e).stack =
        bindings.foldl (fun frames b => frames.modifyLast (·.insert b.1 b.2)) e.stack := by
    induction bindings generalizing e with
    | nil => rfl
    | cons b bindings ih =>
      rw [List.foldl_cons, List.foldl_cons, ih, Environment.modifyLast_stack]
      rfl
  have sought (name : Name) : seek e.stack name = e.lookup name := by
    rw [seek, Environment.stack, List.reverse_reverse]
    rfl
  rw [frames]
  simp only [sought]
  exact bound (e.resolved pairs) e

end Frames

variable {A V : Type} [Address A]

/-- A step does to an environment what it does to the list of its frames. -/
theorem stack_environment (step : Step A V) (e : Environment A) :
    (step.environment e).stack = step.frames e.stack := by
  cases step with
  | bind name a => exact (e.modifyLast_stack (·.insert name a)).symm
  | remove name => exact (e.modifyLast_stack (·.erase name)).symm
  | overwrite pairs => exact stack_overwrite e pairs
  | pushScope => exact e.stack_push
  | popScope =>
    rw [environment, frames]
    cases popped : e.pop? with
    | none =>
      have root : e.stack.length ≤ 1 :=
        e.length_stack ▸ (Environment.pop?_eq_none_iff.1 popped).le
      rw [if_pos root]
      rfl
    | some inner =>
      have split : e.stack = inner.2.stack ++ [inner.1] := Environment.stack_of_pop? popped
      have positive := List.length_pos_of_ne_nil inner.2.stack_ne_nil
      have deep : ¬ e.stack.length ≤ 1 := by
        rw [split, List.length_append, List.length_singleton]
        omega
      rw [if_neg deep, split, List.dropLast_concat]
      rfl
  | assign | deref | lookup | addRoot | removeRoot | gc | collect => rfl

theorem depth_environment (step : Step A V) (e : Environment A) :
    (step.environment e).depth + step.left e = e.depth + step.entered := by
  cases step with
  | popScope => obtain ⟨innermost, _ | ⟨nearest, others⟩⟩ := e <;> rfl
  | overwrite pairs => exact congrArg (·.length + 1) (e.enclosing_overwrite pairs)
  | assign | deref | lookup | bind | remove | pushScope | addRoot | removeRoot | gc | collect => rfl

end Step

/-- The root scope alone cannot be left, and the attempt changes nothing. -/
theorem Machine.popScope_refused_iff {P A V : Type} [Ord A] [Ord V] (m : Machine P A V) :
    ((outcome popScope m).1 = .error .scopeUnderflow ↔ m.environment.depth = 1) ∧
      (m.environment.depth = 1 → (outcome popScope m).2 = m) := by
  rw [outcome_popScope, ← Environment.pop?_eq_none_iff]
  cases m.environment.pop? with
  | none => exact ⟨⟨fun _ => rfl, fun _ => rfl⟩, fun _ => rfl⟩
  | some inner => exact ⟨⟨nofun, nofun⟩, nofun⟩

/-- An environment, beside the list of its frames as a client follows it, the number of frames that
there were at first, and the numbers of scopes entered and left since. -/
structure Tracked (A : Type) where
  environment : Environment A
  frames : List (Frame A)
  initial : Nat
  entered : Nat := 0
  left : Nat := 0

/-- What a client does with environments. -/
inductive Handling (A V : Type) [Ord A] where
  | new
  | decode (text : String)
  /-- Take the environment out of a snapshot. -/
  | decodeSnapshot (text : String)
  | clone (i : Nat)
  | act (i : Nat) (step : Step A V)

namespace Tracked

section Steps

variable {A V : Type} {t : Tracked A} {e : Environment A} {frames : List (Frame A)}

def start (e : Environment A) (frames : List (Frame A)) : Tracked A where
  environment := e
  frames
  initial := frames.length

/-- The environment consists of the frames that are followed, and its depth is accounted for. -/
structure Grounded (t : Tracked A) : Prop where
  stack : t.environment.stack = t.frames
  depth : t.environment.depth + t.left = t.initial + t.entered

theorem grounded_start (stack : e.stack = frames) : (start e frames).Grounded where
  stack
  depth := by rw [start, ← stack, e.length_stack]

variable [Address A]

def act (t : Tracked A) (step : Step A V) : Tracked A where
  environment := step.environment t.environment
  frames := step.frames t.frames
  initial := t.initial
  entered := t.entered + step.entered
  left := t.left + step.left t.environment

theorem Grounded.act (grounded : t.Grounded) (step : Step A V) : (t.act step).Grounded where
  stack := by rw [Tracked.act, step.stack_environment, grounded.stack]
  depth := by
    have before := grounded.depth
    have after := step.depth_environment t.environment
    simp only [Tracked.act]
    omega

end Steps

section Texts

variable {T A V : Type} [Address A] [Value V A] {t : Tracked A}

/-- An environment in a text, beside the frames that the text has; these are none if they cannot be
read without the check. -/
def decoded (text : String) : Option (Tracked A) :=
  match Environment.codec.ofText text with
  | .ok e => some (start e ((Environment.framesCodec.ofText text).toOption.getD []))
  | .error _ => none

/-- The environment of a snapshot in a text, beside the frames that the text has for it. -/
def decodedSnapshot (term : Json.Codec T) (value : Json.Codec V) (text : String) :
    Option (Tracked A) :=
  match (Snapshot.codec term value).ofText text with
  | .ok s => some (start s.environment
      (((Snapshot.framesCodec term value).ofText text).toOption.elim [] (·.2.2.1)))
  | .error _ => none

theorem grounded_decoded {text : String} (read : decoded text = some t) : t.Grounded := by
  unfold decoded at read
  split at read
  next e decodes =>
    cases read
    have unchecked : Environment.framesCodec.ofText text = .ok e.stack :=
      Environment.readsAs_framesCodec.runText decodes
    refine grounded_start ?_
    rw [unchecked]
    rfl
  next => cases read

theorem grounded_decodedSnapshot {term : Json.Codec T} {value : Json.Codec V} {text : String}
    (read : decodedSnapshot term value text = some t) : t.Grounded := by
  unfold decodedSnapshot at read
  split at read
  next s decodes =>
    cases read
    have unchecked : (Snapshot.framesCodec term value).ofText text = .ok _ :=
      (Snapshot.readsAs_framesCodec term value).runText decodes
    refine grounded_start ?_
    rw [unchecked]
    rfl
  next => cases read

/-- What an environment is written as is read back with all its frames. -/
theorem decoded_toText (address : (Address.codec : Json.Codec A).Faithful) (e : Environment A) :
    decoded (Environment.codec.toText e) = some (start e e.stack) := by
  have decodes : Environment.codec.ofText (Environment.codec.toText e) = .ok e :=
    (Environment.faithful_codec address).readsBack e
  have unchecked : Environment.framesCodec.ofText (Environment.codec.toText e) = .ok e.stack :=
    Environment.readsAs_framesCodec.runText decodes
  rw [decoded, decodes, unchecked]
  rfl

end Texts

end Tracked

namespace Handling

variable {T A V : Type} [Address A] [Value V A] {term : Json.Codec T} {value : Json.Codec V}
variable {pool : List (Tracked A)}

/-- What becomes of environments that are known by their places. -/
def perform (term : Json.Codec T) (value : Json.Codec V) (pool : List (Tracked A)) :
    Handling A V → List (Tracked A)
  | .new => pool ++ [.start {} [∅]]
  | .decode text => pool ++ (Tracked.decoded text).toList
  | .decodeSnapshot text => pool ++ (Tracked.decodedSnapshot term value text).toList
  | .clone i => pool ++ pool[i]?.toList
  | .act i step => pool.modify i (·.act step)

def run (term : Json.Codec T) (value : Json.Codec V) (handlings : List (Handling A V)) :
    List (Tracked A) := handlings.foldl (perform term value) []

theorem grounded_perform (grounded : ∀ t ∈ pool, t.Grounded) (handling : Handling A V) :
    ∀ t ∈ handling.perform term value pool, t.Grounded := by
  have added {found : Option (Tracked A)} (new : ∀ t, found = some t → t.Grounded) :
      ∀ t ∈ pool ++ found.toList, t.Grounded :=
    List.forall_mem_append.2 ⟨grounded, fun t among => new t (Option.mem_toList.1 among)⟩
  cases handling with
  | new =>
    exact List.forall_mem_append.2
      ⟨grounded, List.forall_mem_singleton.2 (Tracked.grounded_start rfl)⟩
  | decode text => exact added fun t => Tracked.grounded_decoded
  | decodeSnapshot text => exact added fun t => Tracked.grounded_decodedSnapshot
  | clone i => exact added fun t there => grounded t (List.mem_of_getElem? there)
  | act i step => exact forall_modify grounded fun t _ held => held.act step

theorem grounded_run (handlings : List (Handling A V)) :
    ∀ t ∈ run term value handlings, t.Grounded := by
  induction handlings using List.reverseRecOn with
  | nil => exact List.forall_mem_nil _
  | append_singleton handlings handling ih =>
    rw [run, List.foldl_append]
    exact grounded_perform ih handling

/-- Every environment has a root frame, whatever text it comes from and whatever is done to it. It
has as many frames as it had at first and has entered scopes since, less those it has left. The root
scope alone cannot be left, and the attempt changes nothing. So the last frame is there to be looked
at, and what is bound in it is found, with all other names as before. -/
theorem root_frame_kept {P : Type} (term : Json.Codec T) (value : Json.Codec V)
    (handlings : List (Handling A V)) (t : Tracked A) (among : t ∈ run term value handlings) :
    t.environment.stack = t.frames ∧ t.frames ≠ [] ∧
    t.environment.depth = t.frames.length ∧
    t.environment.depth + t.left = t.initial + t.entered ∧
    (t.environment.pop? = none ↔ t.environment.depth = 1) ∧
    (∀ m : Machine P A V, m.environment = t.environment →
      ((outcome popScope m).1 = .error .scopeUnderflow ↔ t.environment.depth = 1) ∧
      (t.environment.depth = 1 → (outcome popScope m).2 = m)) ∧
    (∀ f outer, t.environment.pop? = some (f, outer) → t.frames = outer.stack ++ [f]) ∧
    t.frames[t.frames.length - 1]? = some t.environment.innermost ∧
    ∀ name a, let bound := t.environment.bind name a
      bound.lookup name = some a ∧ bound.lookupLocal name = some a ∧
      ∀ other, other ≠ name → bound.lookup other = t.environment.lookup other ∧
        bound.lookupLocal other = t.environment.lookupLocal other := by
  obtain ⟨stack, depth⟩ := grounded_run handlings t among
  refine ⟨stack, stack ▸ t.environment.stack_ne_nil, ?_, depth, Environment.pop?_eq_none_iff,
    fun m same => same ▸ m.popScope_refused_iff, ?_, ?_, ?_⟩
  · rw [← stack, Environment.length_stack]
  · intro f outer popped
    rw [← stack]
    exact Environment.stack_of_pop? popped
  · rw [← stack]
    exact t.environment.getElem?_stack
  · intro name a bound
    refine ⟨?_, ?_, fun other differ => ⟨?_, ?_⟩⟩
    · rw [Environment.lookup_bind, if_pos rfl]
    · rw [Environment.lookupLocal_bind, if_pos rfl]
    · rw [Environment.lookup_bind, if_neg differ.symm]
    · rw [Environment.lookupLocal_bind, if_neg differ.symm]

/-- A bound name in the root frame, and a frame around it. -/
def twoFrames : Environment Precise := ⟨∅, [AscMap.insert ∅ (.user "x") ⟨0⟩]⟩

theorem root_frame_kept_twoFrames :
    let text := Environment.codec.toText twoFrames
    let run := run .null (Object.codec : Json.Codec (Object Precise))
      [.decode text, .act 0 .popScope, .clone 0, .act 0 .popScope]
    let t := ((Tracked.start twoFrames twoFrames.stack).act
      (.popScope : Step Precise (Object Precise)))
    t ∈ run ∧ t.environment.stack = t.frames ∧ t.environment.depth = 1 ∧
      (t.environment.bind (.user "x") ⟨7⟩).lookup (.user "x") = some ⟨7⟩ := by
  intro text run t
  have decodes : Tracked.decoded text = some (.start twoFrames twoFrames.stack) :=
    Tracked.decoded_toText Precise.faithful_codec twoFrames
  have first : perform .null Object.codec [] (.decode text : Handling Precise (Object Precise)) =
      [.start twoFrames twoFrames.stack] := by
    rw [perform, decodes]
    rfl
  have among : t ∈ run := by
    change t ∈ List.foldl (perform .null Object.codec) (perform .null Object.codec [] (.decode text))
      [.act 0 .popScope, .clone 0, .act 0 .popScope]
    rw [first]
    exact List.mem_cons_of_mem _ (List.mem_singleton_self t)
  obtain ⟨stack, -, -, -, -, -, -, -, visible⟩ :=
    root_frame_kept (P := FreshPolicy) .null Object.codec _ t among
  exact ⟨among, stack, rfl, (visible (.user "x") ⟨7⟩).1⟩

end Handling

end AbstractStore
