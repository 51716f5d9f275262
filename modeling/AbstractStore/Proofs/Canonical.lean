import AbstractStore.Environment
import AbstractStore.Heap
import AbstractStore.Proofs.Entries
import AbstractStore.Proofs.Regularity
import Mathlib.Data.List.Perm.Basic

/-! Collections as JSON.
A set, a heap or a map by names may be given in many texts. Which one it is read as depends on the
members listed in a set, and on the last of the entries for each key in a map
(`collections_canonical`). It is written in one way alone, in ascending order. -/

namespace AbstractStore

open Std Json Codec

section Items

variable {α β : Type} {r : α → β → Prop} {xs ys : List α} {as bs : List β}

theorem exists_forall₂_of_forall (each : ∀ x ∈ xs, ∃ a, r x a) : ∃ as, List.Forall₂ r xs as := by
  induction xs with
  | nil => exact ⟨[], .nil⟩
  | cons x xs ih =>
    obtain ⟨⟨a, first⟩, later⟩ := List.forall_mem_cons.1 each
    obtain ⟨as, others⟩ := ih later
    exact ⟨a :: as, .cons first others⟩

theorem mem_iff_of_forall₂ (unique : ∀ x a b, r x a → r x b → a = b) (all : List.Forall₂ r xs as)
    {a : β} : a ∈ as ↔ ∃ x ∈ xs, r x a := by
  induction all with
  | nil => simp
  | @cons x b xs as first _ ih =>
    have here : a = b ↔ r x a :=
      ⟨fun same => same ▸ first, fun read => unique x a b read first⟩
    rw [List.mem_cons, List.exists_mem_cons_iff, here, ih]

/-- The same items in other orders and numbers stand for the same members. -/
theorem exists_forall₂_of_mem_iff (unique : ∀ x a b, r x a → r x b → a = b)
    (all : List.Forall₂ r xs as) (same : ∀ x, x ∈ xs ↔ x ∈ ys) :
    ∃ bs, List.Forall₂ r ys bs ∧ ∀ a, a ∈ as ↔ a ∈ bs := by
  have each : ∀ y ∈ ys, ∃ a, r y a := by
    have each : ∀ x ∈ xs, ∃ a, r x a :=
      ((List.forall₂_and_left _ _).1 (all.imp fun x a read => ⟨⟨a, read⟩, read⟩)).1
    exact fun y inside => each y ((same y).2 inside)
  obtain ⟨bs, all'⟩ := exists_forall₂_of_forall each
  refine ⟨bs, all', fun a => ?_⟩
  rw [mem_iff_of_forall₂ unique all, mem_iff_of_forall₂ unique all']
  exact exists_congr fun x => and_congr_left fun _ => same x

end Items

section Sets

variable {α : Type} [Ord α] [TransOrd α] [LawfulEqOrd α]

/-- How sets are read from texts and written as texts, as the list under a name. -/
structure SetTexts (name : String) (item : Codec α) (c : Codec (AscSet α)) : Prop where
  decodes : ∀ text items as, ListsUnder name text items → List.Forall₂ item.Reads items as →
    ∃ s, c.ofText text = .ok s ∧ ∀ a, a ∈ s ↔ a ∈ as
  only : ∀ text s, c.ofText text = .ok s →
    ∃ items as, ListsUnder name text items ∧ List.Forall₂ item.Reads items as
  /-- Neither the order nor the number of the items counts, nor where the list stands. -/
  anyOrder : ∀ text text' items items', ListsUnder name text items → ListsUnder name text' items' →
    (∀ v ∈ items, IsValue v) → (∀ v, v ∈ items ↔ v ∈ items') → c.ofText text = c.ofText text'
  ascending : ∀ s, ∃ l : List α, l.Pairwise (compare · · = .lt) ∧ (∀ a, a ∈ l ↔ a ∈ s) ∧
    c.encode s = objectTokens [(name, listTokens (l.map item.encode))]
  determined : ∀ s t, (∀ a, a ∈ s ↔ a ∈ t) → c.toText s = c.toText t

variable {name : String} {item : Codec α}

theorem ofText_set_iff (regular : item.Regular) {text : String} {s : AscSet α} :
    ((Codec.record (.one name item.set)).via id id).ofText text = .ok s ↔
      ∃ items as, ListsUnder name text items ∧ List.Forall₂ item.Reads items as ∧
        s = .ofList as := by
  have whole : Regular ((Codec.record (.one name item.set)).via (id : _ → AscSet α) id) :=
    (Regular.record (.one name regular.set)).via
  rw [whole.ofText_eq_ok_iff, reads_field_iff regular.set]
  constructor
  · rintro ⟨w, t, arranged, reads, rfl⟩
    obtain ⟨items, as, rfl, each, rfl⟩ := (reads_set_iff regular).1 reads
    exact ⟨items, as, arranged, each, rfl⟩
  · rintro ⟨items, as, arranged, each, rfl⟩
    exact ⟨listTokens items, .ofList as, arranged,
      (reads_set_iff regular).2 ⟨items, as, rfl, each, rfl⟩, rfl⟩

/-- The items of a text can be told from it, so they are the ones that are read. -/
theorem ofText_set_of_mem_iff (regular : item.Regular) {text text' : String}
    {items items' : List (List Token)} {s : AscSet α} (lists : ListsUnder name text items)
    (lists' : ListsUnder name text' items') (values : ∀ v ∈ items, IsValue v)
    (same : ∀ v, v ∈ items ↔ v ∈ items')
    (read : ((Codec.record (.one name item.set)).via id id).ofText text = .ok s) :
    ((Codec.record (.one name item.set)).via id id).ofText text' = .ok s := by
  obtain ⟨others, as, also, each, rfl⟩ := (ofText_set_iff regular).1 read
  have given : listTokens items = listTokens others :=
    lists.singleton_inj also (.list values) (.list (regular.values each))
  obtain rfl := listTokens_inj values (regular.values each) given
  obtain ⟨bs, each', sameMembers⟩ :=
    exists_forall₂_of_mem_iff (fun _ _ _ reads reads' => reads.unique reads') each same
  have sameSet : AscSet.ofList as = .ofList bs := AscSet.ext fun a =>
    AscSet.mem_ofList.trans ((sameMembers a).trans AscSet.mem_ofList.symm)
  exact (ofText_set_iff regular).2 ⟨items', bs, lists', each', sameSet⟩

theorem setTexts (name : String) (regular : item.Regular) :
    SetTexts name item ((Codec.record (.one name item.set)).via id id) where
  decodes text items as lists each := ⟨.ofList as,
    (ofText_set_iff regular).2 ⟨items, as, lists, each, rfl⟩, fun _ => AscSet.mem_ofList⟩
  only text s read := by
    obtain ⟨items, as, lists, each, -⟩ := (ofText_set_iff regular).1 read
    exact ⟨items, as, lists, each⟩
  anyOrder text text' items items' lists lists' values same := by
    have whole : Regular ((Codec.record (.one name item.set)).via (id : _ → AscSet α) id) :=
      (Regular.record (.one name regular.set)).via
    have values' : ∀ v ∈ items', IsValue v := fun v inside => values v ((same v).2 inside)
    exact whole.ofText_congr fun s =>
      ⟨ofText_set_of_mem_iff regular lists lists' values same,
        ofText_set_of_mem_iff regular lists' lists values' fun v => (same v).symm⟩
  ascending s := ⟨s.toList, s.ascending, fun _ => .rfl, rfl⟩
  determined s t members := congrArg _ (AscSet.ext members)

end Sets

section Heaps

variable {A V : Type} [Address A] [Value V A] {value : Codec V}

/-- An address with its cell. -/
abbrev cellEntry (A : Type) [Address A] {V : Type} [Value V A] (value : Codec V) :
    Codec (A × Cell V) := .pair Address.codec (Cell.codec value)

/-- How heaps are read from texts and written as texts, as lists of addresses with their cells. -/
structure HeapTexts (A : Type) {V : Type} [Address A] [Value V A] (value : Codec V) : Prop where
  entries : ∀ v a c, (cellEntry A value).Reads v (a, c) ↔
    ∃ x y, v = listTokens [x, y] ∧ Address.codec.Reads x a ∧ (Cell.codec value).Reads y c
  decodes : ∀ text items l, ListsUnder "cells" text items →
    List.Forall₂ (cellEntry A value).Reads items l → ∃ h : Heap A V,
      (Heap.codec value).ofText text = .ok h ∧ ∀ a c, h.lookup a = some c ↔ LastEntry l a c
  only : ∀ text (h : Heap A V), (Heap.codec value).ofText text = .ok h →
    ∃ items l, ListsUnder "cells" text items ∧ List.Forall₂ (cellEntry A value).Reads items l
  /-- Pairs with different addresses may change places. -/
  anyOrder : ∀ text text' items items' l l', ListsUnder "cells" text items →
    ListsUnder "cells" text' items' → List.Forall₂ (cellEntry A value).Reads items l →
    List.Forall₂ (cellEntry A value).Reads items' l' →
    (∀ a, l.filter (·.1 = a) = l'.filter (·.1 = a)) →
    (Heap.codec value : Codec (Heap A V)).ofText text = (Heap.codec value).ofText text'
  distinct : ∀ text text' items items' l, ListsUnder "cells" text items →
    ListsUnder "cells" text' items' → items.Perm items' →
    List.Forall₂ (cellEntry A value).Reads items l → (l.map Prod.fst).Nodup →
    (Heap.codec value : Codec (Heap A V)).ofText text = (Heap.codec value).ofText text'
  ascending : ∀ h : Heap A V, ∃ l : List (A × Cell V),
    l.Pairwise (fun p q => compare p.1 q.1 = .lt) ∧ (∀ a c, (a, c) ∈ l ↔ h.lookup a = some c) ∧
    (Heap.codec value).encode h =
      objectTokens [("cells", listTokens (l.map (cellEntry A value).encode))]
  determined : ∀ h k : Heap A V, (∀ a, h.lookup a = k.lookup a) →
    (Heap.codec value).toText h = (Heap.codec value).toText k

theorem ofText_heap_iff (address : (Address.codec : Codec A).Regular) (values : value.Regular)
    {text : String} {h : Heap A V} : (Heap.codec value).ofText text = .ok h ↔
      ∃ items l, ListsUnder "cells" text items ∧
        List.Forall₂ (cellEntry A value).Reads items l ∧ h = ⟨.ofList l⟩ := by
  have cells := Cell.regular_codec values
  have entries := address.entries cells
  have whole : (Heap.codec value : Codec (Heap A V)).Regular :=
    (Regular.record (.one "cells" entries)).via
  rw [whole.ofText_eq_ok_iff]
  refine (reads_field_iff entries).trans ?_
  constructor
  · rintro ⟨w, m, arranged, reads, rfl⟩
    obtain ⟨items, l, rfl, each, rfl⟩ := (reads_entries_iff address cells).1 reads
    exact ⟨items, l, arranged, each, rfl⟩
  · rintro ⟨items, l, arranged, each, rfl⟩
    exact ⟨listTokens items, .ofList l, arranged,
      (reads_entries_iff address cells).2 ⟨items, l, rfl, each, rfl⟩, rfl⟩

theorem heapTexts (address : (Address.codec : Codec A).Regular) (values : value.Regular) :
    HeapTexts A value where
  entries v a c := reads_pair_iff address (Cell.regular_codec values)
  decodes text items l lists each := ⟨⟨.ofList l⟩,
    (ofText_heap_iff address values).2 ⟨items, l, lists, each, rfl⟩,
    fun _ _ => AscMap.get?_ofList_eq_some_iff⟩
  only text h read := by
    obtain ⟨items, l, lists, each, -⟩ := (ofText_heap_iff address values).1 read
    exact ⟨items, l, lists, each⟩
  anyOrder text text' items items' l l' lists lists' each each' sameOrder := by
    rw [(ofText_heap_iff address values).2 ⟨items, l, lists, each, rfl⟩,
      (ofText_heap_iff address values).2 ⟨items', l', lists', each', rfl⟩,
      AscMap.ofList_congr sameOrder]
  distinct text text' items items' l lists lists' reordered each apart := by
    obtain ⟨l', each', reordered'⟩ := List.perm_comp_forall₂ reordered.symm each
    rw [(ofText_heap_iff address values).2 ⟨items, l, lists, each, rfl⟩,
      (ofText_heap_iff address values).2 ⟨items', l', lists', each', rfl⟩,
      AscMap.ofList_perm apart reordered'.symm]
  ascending h := ⟨h.cells.toList, h.cells.ascending, fun _ _ => AscMap.get?_eq_some_iff.symm, rfl⟩
  determined h k same := congrArg _ (Heap.ext same)

end Heaps

section Bindings

variable {A β : Type} [Address A]

/-- How bindings of names are read from texts and written as texts, as an object that stands at some
place in the form of what holds the bindings. -/
structure BindingTexts (c : Codec β) (pack : AscMap Name A → β)
    (place : List Token → List Token → Prop) (written : List Token → List Token) : Prop where
  decodes : ∀ text fields l, place (tokens text) (objectTokens fields) →
    List.Forall₂ (ReadsEntry Name.ofSpelling Address.codec) fields l → ∃ m,
      c.ofText text = .ok (pack m) ∧ ∀ n a, m.get? n = some a ↔ LastEntry l n a
  only : ∀ text m, c.ofText text = .ok (pack m) → ∃ fields l,
    place (tokens text) (objectTokens fields) ∧
      List.Forall₂ (ReadsEntry Name.ofSpelling (Address.codec : Codec A)) fields l
  ascending : ∀ m, ∃ l : List (Name × A), l.Pairwise (fun p q => compare p.1 q.1 = .lt) ∧
    (∀ n a, (n, a) ∈ l ↔ m.get? n = some a) ∧ c.encode (pack m) =
      written (objectTokens (l.map fun e => (e.1.spelling, Address.codec.encode e.2)))
  determined : ∀ m m', (∀ n, m.get? n = m'.get? n) → c.toText (pack m) = c.toText (pack m')

theorem bindingTexts {c : Codec β} {pack : AscMap Name A → β}
    {place : List Token → List Token → Prop} {written : List Token → List Token}
    (address : (Address.codec : Codec A).Regular) (regular : c.Regular)
    (reads_iff : ∀ v m, c.Reads v (pack m) ↔ ∃ w, place v w ∧ Object.bindings.Reads w m)
    (encode_eq : ∀ m, c.encode (pack m) = written (Object.bindings.encode m)) :
    BindingTexts c pack place written where
  decodes text fields l placed each := by
    refine ⟨.ofList l, ?_, fun _ _ => AscMap.get?_ofList_eq_some_iff⟩
    rw [regular.ofText_eq_ok_iff, reads_iff]
    exact ⟨objectTokens fields, placed, (reads_keyed_iff address).2 ⟨fields, l, rfl, each, rfl⟩⟩
  only text m read := by
    rw [regular.ofText_eq_ok_iff, reads_iff] at read
    obtain ⟨w, placed, reads⟩ := read
    obtain ⟨fields, l, rfl, each, -⟩ := (reads_keyed_iff address).1 reads
    exact ⟨fields, l, placed, each⟩
  ascending m := ⟨m.toList, m.ascending, fun _ _ => AscMap.get?_eq_some_iff.symm, encode_eq m⟩
  determined m m' same := congrArg (fun m => c.toText (pack m)) (AscMap.ext same)

end Bindings

/-- How the collections of a kind of addresses and values are read and written. -/
structure CanonicalTexts (A : Type) {V : Type} [Address A] [Value V A] (value : Codec V) :
    Prop where
  liveSet : SetTexts "addresses" Address.codec (LiveSet.codec : Codec (LiveSet A))
  cell : SetTexts "values" value (Cell.codec value)
  heap : HeapTexts A value
  frame : BindingTexts (Environment.frameCodec : Codec (Frame A)) id (fun v w => v = w) id
  record : BindingTexts (Object.codec : Codec (Object A)) .record
    (fun v w => v = Shape.holdingTokens "Record" w) (Shape.holdingTokens "Record")
  classDef : ∀ name superclasses,
    BindingTexts (Object.codec : Codec (Object A)) (.classDef name superclasses)
      (fun v w => ∃ u x y, v = Shape.holdingTokens "Class" u ∧
        Arranges ["name", "superclasses", "scope"] [x, y, w] u ∧ Name.codec.Reads x name ∧
        (Codec.list Address.codec).Reads y superclasses)
      (fun w => Shape.holdingTokens "Class" (objectTokens [("name", Name.codec.encode name),
        ("superclasses", (Codec.list Address.codec).encode superclasses), ("scope", w)]))

/-- A set is read as the set of its items, whatever their order and number. Of the entries for one
key of a map the last one counts, where names are one key if they are read as one, however they are
spelled. All that is read is written again in ascending order, and no other. -/
theorem collections_canonical {A V : Type} [Address A] [Value V A] {value : Codec V}
    (address : (Address.codec : Codec A).Regular) (values : value.Regular) :
    CanonicalTexts A value where
  liveSet := setTexts "addresses" address
  cell := setTexts "values" values
  heap := heapTexts address values
  frame := bindingTexts address (Object.regular_bindings address)
    (fun v m => ⟨fun reads => ⟨v, rfl, reads⟩, fun ⟨_, same, reads⟩ => same ▸ reads⟩) fun _ => rfl
  record := bindingTexts address (Object.regular_codec address)
    (fun v m => Object.reads_record_iff address) fun _ => rfl
  classDef name superclasses := by
    refine bindingTexts address (Object.regular_codec address) (fun v m => ?_) fun _ => rfl
    refine (Object.reads_classDef_iff address).trans ?_
    constructor
    · rintro ⟨u, x, y, w, same, arranged, named, above, reads⟩
      exact ⟨w, ⟨u, x, y, same, arranged, named, above⟩, reads⟩
    · rintro ⟨w, ⟨u, x, y, same, arranged, named, above⟩, reads⟩
      exact ⟨u, x, y, w, same, arranged, named, above, reads⟩

/-- Two spellings of one generated name are one key, and the later entry counts. -/
theorem collections_canonical_spellings :
    (Address.codec : Codec Precise).Regular ∧ (Object.codec : Codec (Object Precise)).Regular ∧
    CanonicalTexts Precise (Object.codec : Codec (Object Precise)) ∧
    ∃ m : Frame Precise, Environment.frameCodec.ofText
      "\x7b\"_gensym7\": 1, \"_gensym007\": 2\x7d" = .ok m ∧ m.get? (.gensym 7) = some ⟨2⟩ := by
  have objects := Object.regular_codec Precise.regular_codec
  have canonical := collections_canonical Precise.regular_codec objects
  refine ⟨Precise.regular_codec, objects, canonical, ?_⟩
  obtain ⟨m, read, lookups⟩ := canonical.frame.decodes
    "\x7b\"_gensym7\": 1, \"_gensym007\": 2\x7d"
    [("_gensym7", [.integer 1]), ("_gensym007", [.integer 2])]
    [(.gensym 7, ⟨1⟩), (.gensym 7, ⟨2⟩)]
    (by decide +kernel) (.cons ⟨by decide +kernel, fun _ => rfl⟩
      (.cons ⟨by decide +kernel, fun _ => rfl⟩ .nil))
  exact ⟨m, read, (lookups _ _).2 ⟨[(.gensym 7, ⟨1⟩)], [], rfl, nofun⟩⟩

end AbstractStore
