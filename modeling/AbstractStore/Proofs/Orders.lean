import AbstractStore.Object
import Mathlib.Order.Defs.Unbundled

/-! What comes before what.
A name, an address or an object comes before another one by rules that speak of its parts: pairs
and lists are compared part by part, maps as lists of entries, and objects first by their kind.
The comparisons are these rules (`OrderedBy`), which are strict total orders for that reason. -/

namespace AbstractStore

open Std

attribute [local instance] lexOrd

theorem compare_pair {α β : Type} [Ord α] [Ord β] {a c : α} {b d : β} :
    compare (a, b) (c, d) = (compare a c).then (compare b d) := rfl

/-- A comparison finds the first value less than the second just when it comes before it. -/
def OrderedBy (α : Type) [Ord α] (before : α → α → Prop) : Prop :=
  ∀ a b : α, compare a b = .lt ↔ before a b

namespace OrderedBy

variable {α β : Type} [Ord α] [Ord β] {r : α → α → Prop} {s : β → β → Prop}

theorem isStrictTotalOrder [TransOrd α] [LawfulEqOrd α] (ordered : OrderedBy α r) :
    IsStrictTotalOrder α r where
  irrefl a less := by simpa [ReflCmp.compare_self] using (ordered a a).2 less
  trans a b c first second :=
    (ordered a c).1 (TransCmp.lt_trans ((ordered a b).2 first) ((ordered b c).2 second))
  trichotomous a b notLess notGreater := by
    cases found : compare a b with
    | lt => exact absurd ((ordered a b).1 found) notLess
    | eq => exact LawfulEqCmp.eq_of_compare found
    | gt => exact absurd ((ordered b a).1 (OrientedCmp.gt_iff_lt.1 found)) notGreater

theorem bool : OrderedBy Bool (· < ·) := by
  intro b c
  cases b <;> cases c <;> decide

theorem uint64 : OrderedBy UInt64 (· < ·) := fun _ _ => Std.compare_eq_lt

theorem int64 : OrderedBy Int64 (· < ·) := fun _ _ => Std.compare_eq_lt

theorem string : OrderedBy String (· < ·) := fun _ _ => compareOfLessAndEq_eq_lt

theorem list [LawfulEqOrd α] (items : OrderedBy α r) : OrderedBy (List α) (List.Lex r) := by
  intro as bs
  change List.compareLex compare as bs = .lt ↔ _
  induction as generalizing bs with
  | nil =>
    cases bs with
    | nil => exact iff_of_false nofun nofun
    | cons b bs => exact iff_of_true rfl .nil
  | cons a as ih =>
    cases bs with
    | nil => exact iff_of_false nofun nofun
    | cons b bs =>
      rw [List.compareLex_cons_cons, Ordering.then_eq_lt, items, LawfulEqCmp.compare_eq_iff_eq, ih,
        List.cons_lex_cons_iff]

theorem prod [LawfulEqOrd α] (first : OrderedBy α r) (second : OrderedBy β s) :
    OrderedBy (α × β) (Prod.Lex r s) := by
  intro p q
  change (compare p.1 q.1).then (compare p.2 q.2) = .lt ↔ _
  rw [Ordering.then_eq_lt, first, LawfulEqCmp.compare_eq_iff_eq, second, Prod.lex_def]

theorem map [LawfulEqOrd α] [LawfulEqOrd β] (keys : OrderedBy α r) (values : OrderedBy β s) :
    OrderedBy (AscMap α β) fun m n => List.Lex (Prod.Lex r s) m.toList n.toList :=
  fun m n => (keys.prod values).list m.toList n.toList

end OrderedBy

/-- Users' names come before generated ones, in the order of their texts; generated names come in
the order of their indices. -/
def Name.Before : Name → Name → Prop
  | .user text, .user other => text < other
  | .user _, .gensym _ => True
  | .gensym _, .user _ => False
  | .gensym index, .gensym other => index < other

theorem Name.orderedBy : OrderedBy Name Name.Before := by
  intro m n
  change compare m.orderKey n.orderKey = .lt ↔ _
  cases m with
  | user text =>
    cases n with
    | user other =>
      have texts : compare (Name.user text).orderKey (Name.user other).orderKey =
          compare text other := by simp [orderKey, compare_pair]
      rw [texts]
      exact OrderedBy.string text other
    | gensym index => exact iff_of_true rfl trivial
  | gensym index =>
    cases n with
    | user text =>
      have greater : compare (Name.gensym index).orderKey (Name.user text).orderKey = .gt := rfl
      rw [greater]
      exact iff_of_false (by decide) id
    | gensym other =>
      have indices : compare (Name.gensym index).orderKey (Name.gensym other).orderKey =
          compare index other := by simp [orderKey, compare_pair]
      rw [indices]
      exact OrderedBy.uint64 index other

def Precise.Before (a b : Precise) : Prop := a.index < b.index

theorem Precise.orderedBy : OrderedBy Precise Precise.Before := fun a b =>
  OrderedBy.uint64 a.index b.index

def Monovariant.Before (a b : Monovariant) : Prop := a.name.Before b.name

theorem Monovariant.orderedBy : OrderedBy Monovariant Monovariant.Before := fun a b =>
  Name.orderedBy a.name b.name

/-- Addresses of one module are together, the modules in the order of their paths. -/
def Located.Before (a b : Located) : Prop :=
  a.home.path < b.home.path ∨ a.home = b.home ∧ a.name.Before b.name

theorem ModuleId.orderedBy : OrderedBy ModuleId fun m n => m.path < n.path := fun m n =>
  OrderedBy.string m.path n.path

theorem Located.orderedBy : OrderedBy Located Located.Before := fun a b =>
  (ModuleId.orderedBy.prod Name.orderedBy a.orderKey b.orderKey).trans Prod.lex_def

namespace Object

variable {A : Type}

/-- Bindings of names come in the order of their entries: by name first, then by address. -/
def BindingsBefore (before : A → A → Prop) (m n : AscMap Name A) : Prop :=
  List.Lex (Prod.Lex Name.Before before) m.toList n.toList

/-- Objects of one kind come in the order of their fields, the first one first, and objects of two
kinds in the order in which the kinds are declared. -/
def Before (before : A → A → Prop) : Object A → Object A → Prop
  | .boolean b, .boolean c => b < c
  | .integer i, .integer j => i < j
  | .string s, .string t => s < t
  | .closure parameters body captured, .closure parameters' body' captured' =>
      Prod.Lex (List.Lex Name.Before) (Prod.Lex (· < ·) (BindingsBefore before))
        (parameters, body, captured) (parameters', body', captured')
  | .record members, .record members' => BindingsBefore before members members'
  | .classDef name superclasses members, .classDef name' superclasses' members' =>
      Prod.Lex Name.Before (Prod.Lex (List.Lex before) (BindingsBefore before))
        (name, superclasses, members) (name', superclasses', members')
  | .reference target, .reference target' => before target target'
  | o, p => o.ctorIdx < p.ctorIdx

variable {before : A → A → Prop} {o p : Object A}

theorem before_iff_of_kind (differ : o.ctorIdx ≠ p.ctorIdx) :
    Before before o p ↔ o.ctorIdx < p.ctorIdx := by
  cases o <;> cases p <;> first | rfl | exact absurd rfl differ

section Compare

variable [Ord A]

theorem compare_eq (o p : Object A) :
    compare o p = (compare o.ctorIdx p.ctorIdx).then (compare o.parts p.parts) := by
  have rank_eq (o : Object A) : o.rank = o.ctorIdx := by cases o <;> rfl
  rw [← rank_eq, ← rank_eq]
  rfl

/-- Within a kind the order is that of the parts that are not the same for all of the kind. -/
theorem compare_eq_lt_iff {α : Type} [Ord α] {r : α → α → Prop} (ordered : OrderedBy α r) (x y : α)
    (kind : o.ctorIdx = p.ctorIdx) (parts : compare o.parts p.parts = compare x y) :
    compare o p = .lt ↔ r x y := by
  rw [compare_eq, Nat.compare_eq_eq.2 kind, Ordering.eq_then, parts]
  exact ordered x y

variable [LawfulEqOrd A]

attribute [local simp] parts compare_pair

theorem orderedBy_bindings (addresses : OrderedBy A before) :
    OrderedBy (AscMap Name A) (BindingsBefore before) := Name.orderedBy.map addresses

theorem orderedBy_of_kind (addresses : OrderedBy A before) :
    ∀ {o p : Object A}, o.ctorIdx = p.ctorIdx → (compare o p = .lt ↔ Before before o p)
  | .top, .top, _ | .unit, .unit, _ => iff_of_false nofun (Nat.lt_irrefl _)
  | .boolean b, .boolean c, kind => compare_eq_lt_iff .bool b c kind (by simp)
  | .integer i, .integer j, kind => compare_eq_lt_iff .int64 i j kind (by simp)
  | .string s, .string t, kind => compare_eq_lt_iff .string s t kind (by simp)
  | .closure parameters body captured, .closure parameters' body' captured', kind =>
      compare_eq_lt_iff
        (Name.orderedBy.list.prod (OrderedBy.uint64.prod (orderedBy_bindings addresses)))
        (parameters, body, captured) (parameters', body', captured') kind (by simp)
  | .record members, .record members', kind =>
      compare_eq_lt_iff (orderedBy_bindings addresses) members members' kind (by simp)
  | .classDef name superclasses members, .classDef name' superclasses' members', kind =>
      compare_eq_lt_iff
        (Name.orderedBy.prod (addresses.list.prod (orderedBy_bindings addresses)))
        (name, superclasses, members) (name', superclasses', members') kind (by simp)
  | .reference target, .reference target', kind =>
      compare_eq_lt_iff addresses target target' kind (by simp)

theorem orderedBy (addresses : OrderedBy A before) : OrderedBy (Object A) (Before before) := by
  intro o p
  by_cases kind : o.ctorIdx = p.ctorIdx
  · exact orderedBy_of_kind addresses kind
  · have apart : compare o.ctorIdx p.ctorIdx ≠ .eq := fun same =>
      kind (LawfulEqCmp.eq_of_compare same)
    rw [before_iff_of_kind kind, compare_eq, Ordering.then_eq_lt, Nat.compare_eq_lt]
    exact or_iff_left fun same => apart same.1

end Compare

end Object

end AbstractStore
