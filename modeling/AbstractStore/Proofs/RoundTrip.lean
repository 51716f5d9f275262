import AbstractStore.Object
import AbstractStore.Proofs.Json.Faithful
import AbstractStore.Request
import AbstractStore.Snapshot

/-! Whatever is written as JSON is read back as it was.
Names come first, since they are spelled as strings with an escape of their own, and are the keys
of objects. Addresses, values, heaps and environments are put together of codecs that are faithful
to theirs. -/

namespace AbstractStore

open Std Json Codec

namespace Name

theorem index?_digits (index : UInt64) : index? (Decimal.digits index.toNat) = some index := by
  obtain ⟨c, cs, split, digit⟩ := Decimal.exists_isDigit_digits index.toNat
  have value := Decimal.value?_digits index.toNat
  rw [split] at value ⊢
  unfold index?
  split
  next rest same =>
    obtain rfl := (List.cons.inj same).1
    exact absurd digit (by decide)
  next => simp [value, index.toNat_lt_size]

theorem ofSpelling_spelling (n : Name) : ofSpelling n.spelling = n := by
  cases n with
  | user text =>
    by_cases escaped : needsEscape text.toList = true
    · have spelled : (spelling (.user text)).toList = '\\' :: text.toList := by
        simp [spelling, escaped]
      simp [ofSpelling, spelled]
    · have spelled : spelling (.user text) = text := by simp [spelling, escaped]
      obtain ⟨notGenerated, notEscape⟩ :
          ¬ gensymPrefix.toList <+: text.toList ∧ ¬ ['\\'] <+: text.toList := by
        simpa [needsEscape] using escaped
      rw [spelled, ofSpelling]
      split
      next rest begun => exact absurd ⟨rest, begun.symm⟩ notEscape
      next =>
        cases found : gensymPrefix.toList.isPrefixOf? text.toList with
        | none => rfl
        | some rest =>
          exact absurd ⟨rest, List.isPrefixOf?_eq_some_iff_append_eq.1 found⟩ notGenerated
  | gensym index =>
    have spelled : (spelling (.gensym index)).toList =
        gensymPrefix.toList ++ Decimal.digits index.toNat := by
      simp [spelling, Decimal.text]
    have found : gensymPrefix.toList.isPrefixOf? (spelling (.gensym index)).toList =
        some (Decimal.digits index.toNat) := by
      rw [spelled]
      exact List.isPrefixOf?_eq_some_iff_append_eq.2 rfl
    unfold ofSpelling
    split
    next rest begun => simp [spelled, gensymPrefix] at begun
    next => simp only [found, index?_digits]

theorem faithful_codec : codec.Faithful := Faithful.string.via ofSpelling_spelling

example : codec.toText (.user "_gensym7") = "\"\\\\_gensym7\"" := by cbv

theorem faithful_keyed {β : Type} {c : Codec β} (faithful : c.Faithful) : (keyed c).Faithful :=
  faithful.keyed ofSpelling_spelling

end Name

theorem ModuleId.faithful_codec : codec.Faithful :=
  (Faithful.string.field "path").record.via fun _ => rfl

theorem Position.faithful_codec : codec.Faithful :=
  (((Faithful.uint64.field "line").and (Faithful.uint64.field "column") (by simp)).record).via
    fun _ => rfl

theorem Span.faithful_codec : codec.Faithful :=
  (((Position.faithful_codec.field "start").and (Position.faithful_codec.field "end")
    (by simp)).record).via fun _ => rfl

theorem FreeVariable.faithful_codec : codec.Faithful :=
  ((Name.faithful_codec.field "name").and ((ModuleId.faithful_codec.field "module").and
    (Span.faithful_codec.field "span") (by simp)) (by simp)).record.via fun _ => rfl

section Address

theorem Precise.faithful_codec : (Address.codec : Codec Precise).Faithful :=
  Faithful.uint64.via fun _ => rfl

theorem Monovariant.faithful_codec : (Address.codec : Codec Monovariant).Faithful :=
  Name.faithful_codec.via fun _ => rfl

theorem Located.faithful_codec : (Address.codec : Codec Located).Faithful :=
  ((ModuleId.faithful_codec.field "module").and (Name.faithful_codec.field "name")
    (by simp)).record.via fun _ => rfl

theorem Cell.faithful_codec {A V : Type} [Value V A] {value : Codec V} (values : value.Faithful) :
    (Cell.codec value).Faithful :=
  (values.set.field "values").record.via fun _ => rfl

variable {A V : Type} [Address A] {value : Codec V}

theorem LiveSet.faithful_codec (address : (Address.codec : Codec A).Faithful) :
    (LiveSet.codec : Codec (LiveSet A)).Faithful :=
  (address.set.field "addresses").record.via fun _ => rfl

theorem Environment.faithful_codec (address : (Address.codec : Codec A).Faithful) :
    (Environment.codec : Codec (Environment A)).Faithful :=
  (((Name.faithful_keyed address).list.field "frames").record).refine fun e => by
    simp [ofFrames, frames]

theorem AddressFault.faithful_codec (address : (Address.codec : Codec A).Faithful) :
    (AddressFault.codec : Codec (AddressFault A)).Faithful := by
  refine .of_shapes fun fault => ?_
  cases fault with
  | unallocated a => exact address.holding rfl a
  | uninitialized a => exact address.holding rfl a

theorem Object.faithful_bindings (address : (Address.codec : Codec A).Faithful) :
    (Object.bindings : Codec (AscMap Name A)).Faithful := Name.faithful_keyed address

theorem Object.faithful_closureFields (address : (Address.codec : Codec A).Faithful) :
    (Object.closureFields : Fields (List Name × UInt64 × AscMap Name A)).Faithful
      ["parameters", "body", "environment"] :=
  (Name.faithful_codec.list.field "parameters").and ((Faithful.uint64.field "body").and
    ((faithful_bindings address).field "environment") (by simp)) (by simp)

theorem Object.faithful_classFields (address : (Address.codec : Codec A).Faithful) :
    (Object.classFields : Fields (Name × List A × AscMap Name A)).Faithful
      ["name", "superclasses", "scope"] :=
  (Name.faithful_codec.field "name").and ((address.list.field "superclasses").and
    ((faithful_bindings address).field "scope") (by simp)) (by simp)

theorem Object.faithful_codec (address : (Address.codec : Codec A).Faithful) :
    (Object.codec : Codec (Object A)).Faithful := by
  have members := faithful_bindings address
  have closures := (faithful_closureFields address).record
  have classes := (faithful_classFields address).record
  refine .of_shapes fun o => ?_
  cases o with
  | top => exact .bare rfl
  | unit => exact .bare rfl
  | boolean b => exact Faithful.bool.holding rfl b
  | integer i => exact Faithful.int64.holding rfl i
  | string s => exact Faithful.string.holding rfl s
  | closure parameters body captured =>
    refine .holding rfl (fun rest => ?_) (closures.legible (parameters, body, captured))
    have read := (faithful_closureFields address).decode_run (parameters, body, captured) rest
    simp [Codec.record, read]
  | record bindings => exact members.holding rfl bindings
  | classDef name superclasses bindings =>
    refine .holding rfl (fun rest => ?_) (classes.legible (name, superclasses, bindings))
    have read := (faithful_classFields address).decode_run (name, superclasses, bindings) rest
    simp [Codec.record, read]
  | reference target => exact address.holding rfl target

theorem Request.faithful_codec (address : (Address.codec : Codec A).Faithful)
    (values : value.Faithful) : (Request.codec value : Codec (Request A V)).Faithful := by
  refine .of_shapes fun r => ?_
  cases r with
  | alloc name =>
    have inner : Shape.Writes allocatorShape? (.alloc name : Request A V)
        (Shape.holdingTokens "Alloc" (Name.codec.encode name)) :=
      Name.faithful_codec.holding rfl name
    exact .holding rfl inner.reads inner.legible
  | gc roots =>
    have inner : Shape.Writes allocatorShape? (.gc roots : Request A V)
        (Shape.holdingTokens "Gc" (LiveSet.codec.encode roots)) :=
      (LiveSet.faithful_codec address).holding rfl roots
    exact .holding rfl inner.reads inner.legible
  | deref a =>
    have inner : Shape.Writes (cellShape? value) (.deref a : Request A V)
        (Shape.holdingTokens "Deref" (Address.codec.encode a)) :=
      address.holding rfl a
    exact .holding rfl inner.reads inner.legible
  | assign a v =>
    have inner : Shape.Writes (cellShape? value) (.assign a v : Request A V)
        (Shape.holdingTokens "Assign" ((Address.codec.pair value).encode (a, v))) :=
      .holding rfl (fun rest => by simp [(address.pair values).reads])
        ((address.pair values).legible (a, v))
    exact .holding rfl inner.reads inner.legible

variable [Value V A]

theorem Heap.faithful_codec (address : (Address.codec : Codec A).Faithful)
    (values : value.Faithful) : (Heap.codec value).Faithful :=
  ((address.entries (Cell.faithful_codec values)).field "cells").record.via fun _ => rfl

theorem Snapshot.faithful_codec {T : Type} {term : Codec T} (terms : term.Faithful)
    (address : (Address.codec : Codec A).Faithful) (values : value.Faithful) :
    (Snapshot.codec term value : Codec (Snapshot T A V)).Faithful :=
  ((terms.field "term").and ((LiveSet.faithful_codec address |>.field "roots").and
    ((Environment.faithful_codec address |>.field "environment").and
      ((Heap.faithful_codec address values).field "heap") (by simp)) (by simp)) (by simp)).record.via
    fun _ => rfl

theorem Response.faithful_codec (address : (Address.codec : Codec A).Faithful)
    (values : value.Faithful) : (Response.codec value).Faithful := by
  refine .of_shapes fun r => ?_
  cases r with
  | address a => exact address.holding rfl a
  | cell c => exact (Cell.faithful_codec values).holding rfl c
  | done => exact .bare rfl

/-- What is written of each kind of value is read back, for one kind of addresses. -/
structure RoundTrips (A : Type) [Address A] : Prop where
  object : (Object.codec : Codec (Object A)).ReadsBack
  cell : (Cell.codec Object.codec : Codec (Cell (Object A))).ReadsBack
  liveSet : (LiveSet.codec : Codec (LiveSet A)).ReadsBack
  environment : (Environment.codec : Codec (Environment A)).ReadsBack
  heap : (Heap.codec Object.codec : Codec (Heap A (Object A))).ReadsBack
  snapshot : (Snapshot.codec .string Object.codec : Codec (Snapshot String A (Object A))).ReadsBack
  request : (Request.codec Object.codec : Codec (Request A (Object A))).ReadsBack
  response : (Response.codec Object.codec : Codec (Response A (Object A))).ReadsBack
  addressFault : (AddressFault.codec : Codec (AddressFault A)).ReadsBack

theorem roundTrips {A : Type} [Address A] (address : (Address.codec : Codec A).Faithful) :
    RoundTrips A := by
  have objects := Object.faithful_codec address
  exact {
    object := objects.readsBack
    cell := (Cell.faithful_codec objects).readsBack
    liveSet := (LiveSet.faithful_codec address).readsBack
    environment := (Environment.faithful_codec address).readsBack
    heap := (Heap.faithful_codec address objects).readsBack
    snapshot := (Snapshot.faithful_codec .string address objects).readsBack
    request := (Request.faithful_codec address objects).readsBack
    response := (Response.faithful_codec address objects).readsBack
    addressFault := (AddressFault.faithful_codec address).readsBack }

end Address

/-- Every value is read back from its text, whatever the kind of addresses. -/
theorem json_round_trip :
    RoundTrips Precise ∧ RoundTrips Monovariant ∧ RoundTrips Located ∧
    FreeVariable.codec.ReadsBack ∧ Span.codec.ReadsBack ∧ Name.codec.ReadsBack :=
  ⟨roundTrips Precise.faithful_codec, roundTrips Monovariant.faithful_codec,
    roundTrips Located.faithful_codec, FreeVariable.faithful_codec.readsBack,
    Span.faithful_codec.readsBack, Name.faithful_codec.readsBack⟩

end AbstractStore
