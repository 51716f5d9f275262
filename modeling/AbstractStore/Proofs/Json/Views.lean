import AbstractStore.Proofs.Json.Faithful

/-! Decoders of which one is stricter than the other.
A decoder that checks what it has read takes fewer texts than one that does not, and what it takes
the other reads too, as a view of the value (`Decoder.ReadsAs`). This passes on to all that is read
in parts, so that a check deep inside a structure can be told from the outside. -/

namespace AbstractStore.Json

namespace Decoder

variable {α β γ δ σ τ : Type}

/-- What the first decoder reads the second one reads too, as `view` shows it. -/
def ReadsAs (d : Decoder α) (view : α → β) (e : Decoder β) : Prop :=
  ∀ ts a rest, d.run ts = .ok (a, rest) → e.run ts = .ok (view a, rest)

namespace ReadsAs

variable {d : Decoder α} {e : Decoder β} {view : α → β} {shown : γ → δ}

theorem refl (d : Decoder α) : d.ReadsAs id d := fun _ _ _ read => read

theorem pure {a : α} {b : β} (same : view a = b) :
    (Pure.pure a : Decoder α).ReadsAs view (Pure.pure b) := by
  intro ts a' rest read
  cases read
  rw [same]
  rfl

theorem fail (error : DecodeError) (e : Decoder β) :
    (fail error : Decoder α).ReadsAs view e := fun _ _ _ read => nomatch read

theorem bind {f : α → Decoder γ} {g : β → Decoder δ} (first : d.ReadsAs view e)
    (next : ∀ a, (f a).ReadsAs shown (g (view a))) : (d >>= f).ReadsAs shown (e >>= g) := by
  intro ts c rest read
  rw [run_bind] at read ⊢
  cases start : d.run ts with
  | error => simp [start] at read
  | ok found =>
    obtain ⟨a, middle⟩ := found
    rw [first ts a middle start]
    exact next a middle c rest (by simpa [start] using read)

/-- What comes after the first decoder only adds to the view of what it has read. -/
theorem andThen {f : α → Decoder γ} {shown : γ → β} (first : d.ReadsAs view e)
    (next : ∀ a, (f a).ReadsAs shown (Pure.pure (view a))) : (d >>= f).ReadsAs shown e := by
  intro ts c rest read
  have same := first.bind next ts c rest read
  rw [run_bind] at same
  split at same
  next => cases same
  next found => exact found.trans same

section Objects

variable {field : σ → String → Decoder σ} {other : τ → String → Decoder τ} {view : σ → τ}

theorem laterFields (fields : ∀ s key, (field s key).ReadsAs view (other (view s) key)) {s t : σ}
    {ts rest : List Token} (read : laterFields field s ts = .ok (t, rest)) :
    Decoder.laterFields other (view s) ts = .ok (view t, rest) := by
  fun_induction Decoder.laterFields field s ts with
  | case1 =>
    cases read
    rw [Decoder.laterFields]
  | case2 => cases read
  | case3 s key ts s' after value shorter ih =>
    have same := fields s key ts s' after value
    rw [Decoder.laterFields]
    split
    next error failed => cases failed.symm.trans same
    next b middle found =>
      cases found.symm.trans same
      exact ih read
  | case4 => cases read

theorem object (fields : ∀ s key, (field s key).ReadsAs view (other (view s) key)) (start : σ) :
    (object field start).ReadsAs view (object other (view start)) := by
  intro ts s rest read
  unfold Decoder.object at read ⊢
  simp only at read ⊢
  split at read
  next =>
    cases read
    rfl
  next =>
    split at read
    next => cases read
    next value =>
      simp only [fields _ _ _ _ _ value]
      exact laterFields fields read
  next => cases read

end Objects

theorem runText (reads : d.ReadsAs view e) {text : String} {a : α}
    (read : d.runText text = .ok a) : e.runText text = .ok (view a) := by
  unfold Decoder.runText at read ⊢
  cases found : d.run (tokens text) with
  | error => simp [found] at read
  | ok taken =>
    obtain ⟨b, rest⟩ := taken
    rw [reads _ b rest found]
    cases rest with
    | nil =>
      simp only [found] at read
      cases read
      rfl
    | cons => simp [found] at read

end ReadsAs

end Decoder

namespace Fields

variable {α β γ δ : Type} {f : Fields α} {g : Fields β} {f' : Fields γ} {g' : Fields δ}
variable {view : α → β} {shown : γ → δ}

theorem fill_and_left {s : f.Slots} {key : String} {d : Decoder f.Slots}
    (known : f.fill s key = some d) (s' : g.Slots) :
    (f.and g).fill (s, s') key = some do return (← d, s') := by
  simp only [Fields.and, known]

theorem fill_and_right {s : f.Slots} {key : String} (unknown : f.fill s key = none)
    (s' : g.Slots) :
    (f.and g).fill (s, s') key = (g.fill s' key).map fun d => do return (s, ← d) := by
  simp only [Fields.and, unknown]
  cases g.fill s' key <;> rfl

/-- The fields of a structure, read one by one as those of another: what the slots of the first
hold, those of the second hold as `slots` shows it. -/
structure ReadsAs (f : Fields α) (view : α → β) (g : Fields β) (slots : f.Slots → g.Slots) :
    Prop where
  blank : slots f.blank = g.blank
  known : ∀ s key d, f.fill s key = some d →
    ∃ e, g.fill (slots s) key = some e ∧ d.ReadsAs slots e
  unknown : ∀ s key, f.fill s key = none → g.fill (slots s) key = none
  finish : ∀ s a, f.finish s = some a → g.finish (slots s) = some (view a)
  inOrder : f.inOrder.ReadsAs view g.inOrder

namespace ReadsAs

theorem one (name : String) {c : Codec α} {d : Codec β} (reads : c.decode.ReadsAs view d.decode) :
    (Fields.one name c).ReadsAs view (.one name d) (Option.map view) where
  blank := rfl
  known slot key e filled := by
    unfold Fields.one at filled ⊢
    simp only at filled ⊢
    split at filled
    next named =>
      cases filled
      refine ⟨_, if_pos named, ?_⟩
      cases slot with
      | none => exact reads.bind fun a => .pure rfl
      | some => exact .fail _ _
    next => cases filled
  unknown slot key missed := by
    unfold Fields.one at missed ⊢
    simp only at missed ⊢
    split at missed
    next => cases missed
    next other => exact if_neg other
  finish slot a finished := congrArg (Option.map view) finished
  inOrder := reads

theorem and {slots : f.Slots → g.Slots} {slots' : f'.Slots → g'.Slots}
    (first : f.ReadsAs view g slots) (second : f'.ReadsAs shown g' slots') :
    (f.and f').ReadsAs (Prod.map view shown) (g.and g') (Prod.map slots slots') where
  blank := congrArg₂ Prod.mk first.blank second.blank
  known := by
    rintro ⟨s, s'⟩ key d filled
    cases left : f.fill s key with
    | some e =>
      cases (fill_and_left left s').symm.trans filled
      obtain ⟨e', known, reads⟩ := first.known s key e left
      exact ⟨_, fill_and_left known (slots' s'), reads.bind fun _ => .pure rfl⟩
    | none =>
      rw [fill_and_right left s'] at filled
      obtain ⟨e, right, rfl⟩ := Option.map_eq_some_iff.1 filled
      obtain ⟨e', known, reads⟩ := second.known s' key e right
      have filled' := fill_and_right (g := g') (first.unknown s key left) (slots' s')
      rw [known] at filled'
      exact ⟨_, filled', reads.bind fun _ => .pure rfl⟩
  unknown := by
    rintro ⟨s, s'⟩ key missed
    cases left : f.fill s key with
    | some e => cases (fill_and_left left s').symm.trans missed
    | none =>
      rw [fill_and_right left s'] at missed
      have missed' := second.unknown s' key (Option.map_eq_none_iff.1 missed)
      exact (fill_and_right (first.unknown s key left) (slots' s')).trans
        (congrArg (Option.map _) missed')
  finish := by
    rintro ⟨s, s'⟩ ⟨a, c⟩ finished
    obtain ⟨b, left, rest⟩ := Option.bind_eq_some_iff.1 finished
    obtain ⟨b', right, both⟩ := Option.bind_eq_some_iff.1 rest
    cases both
    have shownLeft := first.finish s a left
    have shownRight := second.finish s' c right
    change (g.finish (slots s) >>= fun x => g'.finish (slots' s') >>= fun y => some (x, y)) = _
    rw [shownLeft, shownRight]
    rfl
  inOrder := first.inOrder.bind fun _ => (Decoder.ReadsAs.refl _).bind fun _ =>
    second.inOrder.bind fun _ => .pure rfl

theorem readField {slots : f.Slots → g.Slots} (reads : f.ReadsAs view g slots) (s : f.Slots)
    (key : String) : (f.readField s key).ReadsAs slots (g.readField (slots s) key) := by
  unfold Fields.readField
  cases filled : f.fill s key with
  | some d =>
    obtain ⟨e, known, same⟩ := reads.known s key d filled
    rw [known]
    exact same
  | none =>
    rw [reads.unknown s key filled]
    exact (Decoder.ReadsAs.refl Decoder.skip).bind fun _ => .pure rfl

theorem record {slots : f.Slots → g.Slots} (reads : f.ReadsAs view g slots) :
    (Codec.record f).decode.ReadsAs view (Codec.record g).decode := by
  have asObject : f.ofObject.ReadsAs view g.ofObject := by
    rw [ofObject_eq, ofObject_eq, ← reads.blank]
    refine (Decoder.ReadsAs.object reads.readField f.blank).bind fun s => ?_
    cases finished : f.finish s with
    | none => exact .fail _ _
    | some a =>
      rw [reads.finish s a finished]
      exact .pure rfl
  have asListing : f.ofListing.ReadsAs view g.ofListing :=
    (Decoder.ReadsAs.refl _).bind fun _ => reads.inOrder.bind fun _ =>
      (Decoder.ReadsAs.refl _).bind fun _ => .pure rfl
  intro ts a rest read
  change (Fields.decode f).run ts = .ok (a, rest) at read
  change (Fields.decode g).run ts = .ok (view a, rest)
  unfold Fields.decode at read ⊢
  simp only at read ⊢
  split at read
  next => exact asListing _ _ _ read
  next => exact asObject _ _ _ read

end ReadsAs

end Fields

namespace Codec

variable {α β γ : Type} {view : α → γ} {shown : β → γ} {c : Codec α} {d : Codec γ}

/-- A value that is packed shows what it has been packed from. -/
theorem via_readsAs {pack : α → β} {unpack : β → α} (reads : c.decode.ReadsAs view d.decode)
    (packs : ∀ a, shown (pack a) = view a) :
    (c.via pack unpack).decode.ReadsAs shown d.decode :=
  reads.andThen fun a => .pure (packs a)

theorem refine_readsAs {pack : α → Except String β} {unpack : β → α}
    (reads : c.decode.ReadsAs view d.decode)
    (packs : ∀ a b, pack a = .ok b → shown b = view a) :
    (c.refine pack unpack).decode.ReadsAs shown d.decode := by
  refine reads.andThen fun a => ?_
  cases packed : pack a with
  | error reason => exact .fail _ _
  | ok b => exact .pure (packs a b packed)

end Codec

end AbstractStore.Json
