import AbstractStore.Proofs.Canonical
import AbstractStore.Proofs.Orders

/-! Cells as sets.
However a cell is built, it lists the values that it was given, each once and in ascending order
(`Recipe.mem_iff_gives`). So a cell is determined by its members, whatever steps have led to it
(`cells_canonical`). -/

namespace AbstractStore

open Std Json

/-- A way to build a cell. Where a text is read, it is the text of a cell. -/
inductive Recipe (V : Type) where
  | empty
  | singleton (v : V)
  | insert (r : Recipe V) (v : V)
  | join (r s : Recipe V)
  | ofList (vs : List V)
  | ofText (text : String)

namespace Recipe

variable {A V : Type} [Value V A] {value : Codec V} {r s : Recipe V} {v : V} {c : Cell V}

def build (value : Codec V) : Recipe V → Except DecodeError (Cell V)
  | .empty => .ok ∅
  | .singleton v => .ok (.singleton v)
  | .insert r v => do return (← r.build value).insert v
  | .join r s => do return (← r.build value) ∪ (← s.build value)
  | .ofList vs => .ok (.ofList vs)
  | .ofText text => (Cell.codec value).ofText text

theorem build_insert_eq_ok_iff : (insert r v).build value = .ok c ↔
    ∃ d, r.build value = .ok d ∧ c = d.insert v := by
  rw [build]
  cases r.build value with
  | error e => exact iff_of_false nofun nofun
  | ok d =>
    constructor
    · rintro ⟨⟩
      exact ⟨d, rfl, rfl⟩
    · rintro ⟨_, ⟨⟩, rfl⟩
      rfl

theorem build_join_eq_ok_iff : (join r s).build value = .ok c ↔
    ∃ d e, r.build value = .ok d ∧ s.build value = .ok e ∧ c = d ∪ e := by
  rw [build]
  cases r.build value with
  | error e => exact iff_of_false nofun nofun
  | ok d =>
    cases s.build value with
    | error e => exact iff_of_false nofun nofun
    | ok e =>
      constructor
      · rintro ⟨⟩
        exact ⟨d, e, rfl, rfl, rfl⟩
      · rintro ⟨_, _, ⟨⟩, ⟨⟩, rfl⟩
        rfl

/-- The text is that of a cell and lists these values. -/
def Lists (value : Codec V) (text : String) (vs : List V) : Prop :=
  ∃ items, ListsUnder "values" text items ∧ List.Forall₂ value.Reads items vs

/-- Some step gives this value to the cell. -/
def Gives (value : Codec V) : Recipe V → V → Prop
  | .empty, _ => False
  | .singleton v, w => w = v
  | .insert r v, w => w = v ∨ r.Gives value w
  | .join r s, w => r.Gives value w ∨ s.Gives value w
  | .ofList vs, w => w ∈ vs
  | .ofText text, w => ∃ vs, Lists value text vs ∧ w ∈ vs

/-- All texts that are read list values. -/
def Legible (value : Codec V) : Recipe V → Prop
  | .insert r _ => r.Legible value
  | .join r s => r.Legible value ∧ s.Legible value
  | .ofText text => ∃ vs, Lists value text vs
  | .empty | .singleton _ | .ofList _ => True

theorem ofText_eq_ok_iff (regular : value.Regular) {text : String} :
    (Cell.codec value).ofText text = .ok c ↔ ∃ vs, Lists value text vs ∧ c = .ofList vs := by
  refine (ofText_set_iff regular).trans ?_
  constructor
  · rintro ⟨items, vs, lists, each, rfl⟩
    exact ⟨vs, ⟨items, lists, each⟩, rfl⟩
  · rintro ⟨vs, ⟨items, lists, each⟩, rfl⟩
    exact ⟨items, vs, lists, each, rfl⟩

theorem exists_build_iff (regular : value.Regular) :
    (∃ c, r.build value = .ok c) ↔ r.Legible value := by
  induction r with
  | empty => exact iff_of_true ⟨_, rfl⟩ trivial
  | singleton v => exact iff_of_true ⟨_, rfl⟩ trivial
  | ofList vs => exact iff_of_true ⟨_, rfl⟩ trivial
  | insert r v ih =>
    refine Iff.trans ⟨?_, ?_⟩ ih
    · rintro ⟨c, built⟩
      obtain ⟨d, first, -⟩ := build_insert_eq_ok_iff.1 built
      exact ⟨d, first⟩
    · rintro ⟨d, first⟩
      exact ⟨d.insert v, build_insert_eq_ok_iff.2 ⟨d, first, rfl⟩⟩
  | join r s ihr ihs =>
    refine Iff.trans ⟨?_, ?_⟩ (and_congr ihr ihs)
    · rintro ⟨c, built⟩
      obtain ⟨d, e, first, second, -⟩ := build_join_eq_ok_iff.1 built
      exact ⟨⟨d, first⟩, ⟨e, second⟩⟩
    · rintro ⟨⟨d, first⟩, ⟨e, second⟩⟩
      exact ⟨d ∪ e, build_join_eq_ok_iff.2 ⟨d, e, first, second, rfl⟩⟩
  | ofText text =>
    constructor
    · rintro ⟨c, read⟩
      obtain ⟨vs, lists, -⟩ := (ofText_eq_ok_iff regular).1 read
      exact ⟨vs, lists⟩
    · rintro ⟨vs, lists⟩
      exact ⟨.ofList vs, (ofText_eq_ok_iff regular).2 ⟨vs, lists, rfl⟩⟩

theorem mem_iff_gives (regular : value.Regular) (built : r.build value = .ok c) :
    v ∈ c ↔ r.Gives value v := by
  induction r generalizing c with
  | empty =>
    cases built
    exact iff_of_false (AscSet.not_mem_empty v) id
  | singleton w =>
    cases built
    exact AscSet.mem_singleton
  | ofList vs =>
    cases built
    exact AscSet.mem_ofList
  | insert r w ih =>
    obtain ⟨d, first, rfl⟩ := build_insert_eq_ok_iff.1 built
    exact AscSet.mem_insert.trans (or_congr_right (ih first))
  | join r s ihr ihs =>
    obtain ⟨d, e, first, second, rfl⟩ := build_join_eq_ok_iff.1 built
    exact AscSet.mem_union.trans (or_congr (ihr first) (ihs second))
  | ofText text =>
    obtain ⟨vs, lists, rfl⟩ := (ofText_eq_ok_iff regular).1 built
    refine AscSet.mem_ofList.trans ⟨fun inside => ⟨vs, lists, inside⟩, ?_⟩
    rintro ⟨vs', lists', inside⟩
    -- a text is read in one way, so what it lists does not depend on how it is taken apart
    have other := (ofText_eq_ok_iff regular).2 ⟨vs', lists', rfl⟩
    have same : AscSet.ofList vs = .ofList vs' := Except.ok.inj (built.symm.trans other)
    exact AscSet.mem_ofList.1 (same ▸ AscSet.mem_ofList.2 inside)

end Recipe

/-- The objects over a kind of addresses are in a strict total order, and cells are the finite sets
of them. -/
structure SetsOfObjects (A : Type) [Address A] (before : A → A → Prop) : Prop where
  compared : OrderedBy (Object A) (Object.Before before)
  total : IsStrictTotalOrder (Object A) (Object.Before before)
  equal : ∀ o p : Object A, compare o p = .eq ↔ o = p
  builds : ∀ r : Recipe (Object A), (∃ c, r.build Object.codec = .ok c) ↔ r.Legible Object.codec
  lists : ∀ (r : Recipe (Object A)) c, r.build Object.codec = .ok c →
    c.toList.Pairwise (Object.Before before) ∧ c.toList.Nodup ∧
      ∀ o, o ∈ c.toList ↔ r.Gives Object.codec o
  adds : ∀ (c : Cell (Object A)) o, c.adds o = true ↔ o ∉ c.toList
  determined : ∀ c d : Cell (Object A), (∀ o, o ∈ c.toList ↔ o ∈ d.toList) →
    c = d ∧ Cell.roots c = Cell.roots d
  roots : ∀ (c : Cell (Object A)) a, a ∈ Cell.roots c ↔ ∃ o ∈ c.toList, a ∈ o.embedded

theorem setsOfObjects {A : Type} [Address A] {before : A → A → Prop}
    (addresses : OrderedBy A before) (codec : (Address.codec : Codec A).Regular) :
    SetsOfObjects A before where
  compared := Object.orderedBy addresses
  total := (Object.orderedBy addresses).isStrictTotalOrder
  equal _ _ := LawfulEqCmp.compare_eq_iff_eq
  builds _ := Recipe.exists_build_iff (Object.regular_codec codec)
  lists r c built := ⟨c.ascending.imp (Object.orderedBy addresses _ _).1, c.nodup_toList,
    fun _ => Recipe.mem_iff_gives (Object.regular_codec codec) built⟩
  adds _ _ := AscSet.adds_iff
  determined c d same := by
    obtain rfl : c = d := AscSet.ext same
    exact ⟨rfl, rfl⟩
  roots c a := Cell.mem_roots.trans <|
    exists_congr fun _ => and_congr_right fun _ => AscSet.mem_ofList

/-- For each kind of addresses, objects are in the order of their kinds and fields, which is a strict
total order. A cell lists what the steps that have built it gave, in that order and each value once,
an insertion tells whether its value is new, and cells with the same members are the same. -/
theorem cells_canonical :
    SetsOfObjects Precise Precise.Before ∧ SetsOfObjects Monovariant Monovariant.Before ∧
      SetsOfObjects Located Located.Before :=
  ⟨setsOfObjects Precise.orderedBy Precise.regular_codec,
    setsOfObjects Monovariant.orderedBy Monovariant.regular_codec,
    setsOfObjects Located.orderedBy Located.regular_codec⟩

end AbstractStore
