import AbstractStore.Proofs.Json.Extents
import AbstractStore.Proofs.Programs
import AbstractStore.Proofs.Regularity

/-! Texts that are read as environments.
A text either is one environment, or begins with the form of an environment that has no frame, or is
malformed (`environment_texts`). The second is told from the third by where the first fault lies:
that there is no frame is found out once the form has been closed and before what stands behind it
is looked at. -/

namespace AbstractStore

open Std Json Codec Machine

namespace Environment

theorem ofFrames_eq_ok_iff {A : Type} {frames : List (Frame A)} {e : Environment A} :
    ofFrames frames = .ok e ↔ frames = e.frames.reverse := by
  rw [← List.reverse_eq_iff]
  unfold ofFrames
  cases frames.reverse with
  | nil => simp [Environment.frames]
  | cons innermost enclosing =>
    obtain ⟨f, fs⟩ := e
    simp [Environment.frames]

theorem ofFrames_eq_error_iff {A : Type} {frames : List (Frame A)} {reason : String} :
    ofFrames frames = .error reason ↔
      frames = [] ∧ reason = "An environment needs at least a root frame" := by
  rw [← List.reverse_eq_nil_iff]
  unfold ofFrames
  cases frames.reverse with
  | nil => simp [eq_comm]
  | cons innermost enclosing => simp

variable {A : Type} [Address A]

/-- How texts are read as environments: the frames of one, the outermost first, or the fault. -/
structure Texts (A : Type) [Address A] : Prop where
  reads : ∀ text (e : Environment A), codec.ofText text = .ok e ↔ ∃ items,
    ListsUnder "frames" text items ∧ List.Forall₂ frameCodec.Reads items e.frames.reverse
  accepts : ∀ text, (∃ e : Environment A, codec.ofText text = .ok e) ↔
    ∃ (items : List (List Token)) (frames : List (Frame A)), ListsUnder "frames" text items ∧
      List.Forall₂ frameCodec.Reads items frames ∧ 1 ≤ items.length
  refuses : ∀ text, (codec : Codec (Environment A)).ofText text =
      .error (.refused "An environment needs at least a root frame") ↔
    ∃ pre post, text = pre ++ post ∧ ListsUnder "frames" pre []
  otherwise : ∀ text, (¬ ∃ (items : List (List Token)) (frames : List (Frame A)),
      ListsUnder "frames" text items ∧ List.Forall₂ frameCodec.Reads items frames ∧
        1 ≤ items.length) →
    (¬ ∃ pre post, text = pre ++ post ∧ ListsUnder "frames" pre []) →
    (codec : Codec (Environment A)).ofText text = .error .malformed
  unchanged : ∀ {P V α : Type} [Value V A] (next : Environment A → Eval P A V α)
      (m : Machine P A V) (text : String) (e : DecodeError),
    (codec : Codec (Environment A)).ofText text = .error e →
    outcome (ExceptT.mk (pure ((codec.ofText text).mapError .unreadable)) >>= next) m =
      (.error (.unreadable e), m)

theorem reads_frames_iff (address : (Address.codec : Codec A).Regular) {v : List Token}
    {frames : List (Frame A)} : (Codec.record (.one "frames" (.list frameCodec))).Reads v frames ↔
      ∃ items, Arranges ["frames"] [listTokens items] v ∧
        List.Forall₂ frameCodec.Reads items frames := by
  have frame := regular_frameCodec address
  refine (reads_record_iff (.one "frames" frame.list)).trans ?_
  constructor
  · rintro ⟨_, arranged, w, rfl, reads⟩
    obtain ⟨items, rfl, each⟩ := (reads_list_iff frame).1 reads
    exact ⟨items, arranged, each⟩
  · rintro ⟨items, arranged, each⟩
    exact ⟨_, arranged, _, rfl, (reads_list_iff frame).2 ⟨items, rfl, each⟩⟩

theorem ofText_eq_ok_iff (address : (Address.codec : Codec A).Regular) {text : String}
    {e : Environment A} : codec.ofText text = .ok e ↔ ∃ items, ListsUnder "frames" text items ∧
      List.Forall₂ frameCodec.Reads items e.frames.reverse := by
  have regular := Regular.record (.one "frames" (regular_frameCodec address).list)
  refine ofText_refine_eq_ok_iff.trans ?_
  simp only [ofFrames_eq_ok_iff, exists_eq_right, regular.ofText_eq_ok_iff,
    reads_frames_iff address]
  rfl

/-- The items of a list with a frame are those of some environment. -/
theorem exists_ofText_eq_ok_iff (address : (Address.codec : Codec A).Regular) {text : String} :
    (∃ e : Environment A, codec.ofText text = .ok e) ↔
      ∃ (items : List (List Token)) (frames : List (Frame A)), ListsUnder "frames" text items ∧
        List.Forall₂ frameCodec.Reads items frames ∧ 1 ≤ items.length := by
  constructor
  · rintro ⟨e, read⟩
    obtain ⟨items, lists, each⟩ := (ofText_eq_ok_iff address).1 read
    refine ⟨items, _, lists, each, ?_⟩
    rw [each.length_eq, List.length_reverse]
    exact Nat.succ_pos _
  · rintro ⟨items, frames, lists, each, some_frame⟩
    cases packed : ofFrames frames with
    | ok e =>
      obtain rfl := ofFrames_eq_ok_iff.1 packed
      exact ⟨e, (ofText_eq_ok_iff address).2 ⟨items, lists, each⟩⟩
    | error reason =>
      obtain ⟨rfl, -⟩ := ofFrames_eq_error_iff.1 packed
      rw [each.length_eq] at some_frame
      cases some_frame

/-- The form of an environment ends with the bracket or the brace that it begins with. -/
theorem isClosing_of_arranges {names : List String} {values : List (List Token)} {v : List Token}
    (arranges : Arranges names values v) : ∀ t ∈ v.getLast?, t.isClosing := by
  intro t last
  cases arranges with
  | listing =>
    have ends : (listTokens values).getLast? = some .closeBracket := List.getLast?_concat ..
    cases ends.symm.trans last
    rfl
  | @object fields =>
    have ends : (objectTokens fields).getLast? = some .closeBrace := List.getLast?_concat ..
    cases ends.symm.trans last
    rfl

theorem ofText_eq_refused_iff (address : (Address.codec : Codec A).Regular) {text : String} :
    (codec : Codec (Environment A)).ofText text =
      .error (.refused "An environment needs at least a root frame") ↔
    ∃ pre post, text = pre ++ post ∧ ListsUnder "frames" pre [] := by
  have regular := Regular.record (.one "frames" (regular_frameCodec address).list)
  have empty {v : List Token} (arranged : Arranges ["frames"] [listTokens []] v) : IsValue v :=
    arranged.isValue (List.forall_mem_singleton.2 (.list nofun))
  refine (ofText_refine_eq_refused_iff regular).trans ?_
  constructor
  · rintro ⟨v, rest, frames, split, reads, packed⟩
    obtain ⟨rfl, -⟩ := ofFrames_eq_error_iff.1 packed
    obtain ⟨items, arranged, each⟩ := (reads_frames_iff address).1 reads
    cases each
    obtain ⟨pre, post, same, all⟩ :=
      (exists_tokens_eq_append_iff (empty arranged).isStray_eq_false
        (isClosing_of_arranges arranged)).1 ⟨rest, split⟩
    exact ⟨pre, post, same, by rwa [ListsUnder, all]⟩
  · rintro ⟨pre, post, same, arranged⟩
    obtain ⟨rest, split⟩ :=
      (exists_tokens_eq_append_iff (empty arranged).isStray_eq_false
        (isClosing_of_arranges arranged)).2 ⟨pre, post, same, rfl⟩
    exact ⟨_, rest, [], split, (reads_frames_iff address).2 ⟨[], arranged, .nil⟩,
      ofFrames_eq_error_iff.2 ⟨rfl, rfl⟩⟩

/-- A text is read as an environment exactly if it is the form of one with a frame, and is refused
exactly if it begins with the form of one without a frame. Any other one is malformed. Whatever an
evaluation would go on to do with the environment that it reads, the one of its machine stays as it
is where the text is none. -/
theorem environment_texts (address : (Address.codec : Codec A).Regular) : Texts A where
  reads text e := ofText_eq_ok_iff address
  accepts text := exists_ofText_eq_ok_iff address
  refuses text := ofText_eq_refused_iff address
  otherwise text notRead notRefused := by
    have regular := Regular.record (.one "frames" (regular_frameCodec address).list)
    cases outcome : (codec : Codec (Environment A)).ofText text with
    | ok e => exact absurd ((exists_ofText_eq_ok_iff address).1 ⟨e, outcome⟩) notRead
    | error e =>
      rcases ofText_refine_eq_error regular outcome with rfl | ⟨frames, reason, packed, rfl⟩
      · rfl
      · obtain ⟨-, rfl⟩ := ofFrames_eq_error_iff.1 packed
        exact absurd ((ofText_eq_refused_iff address).1 outcome) notRefused
  unchanged next m text e failed := by
    rw [outcome_bind, failed]
    rfl

/-- That there is no frame is found out after a field that is passed over, and before the comma. -/
theorem environment_texts_rootless : (Address.codec : Codec Precise).Regular ∧
    (codec : Codec (Environment Precise)).ofText "\n\x7b\"seen\": null, \"frames\": []\x7d ," =
      .error (.refused "An environment needs at least a root frame") := by
  have texts := environment_texts Precise.regular_codec
  refine ⟨Precise.regular_codec, (texts.refuses _).2
    ⟨"\n\x7b\"seen\": null, \"frames\": []\x7d", " ,", by decide +kernel, ?_⟩⟩
  have read : tokens "\n\x7b\"seen\": null, \"frames\": []\x7d" =
      objectTokens [("seen", [.null]), ("frames", listTokens [])] := by decide +kernel
  rw [ListsUnder, read]
  refine .object rfl (.refl _) fun x inside other => ?_
  rcases List.mem_cons.1 inside with rfl | inside
  · exact .scalar rfl
  · cases List.mem_singleton.1 inside
    exact absurd (List.mem_singleton_self _) other

end Environment

end AbstractStore
