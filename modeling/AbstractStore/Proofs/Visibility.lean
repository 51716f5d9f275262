import AbstractStore.Ascending.Sorting
import AbstractStore.Proofs.LiveRoots

/-! What can be seen of the scopes of an environment.
Looking a name up from the inside out, writing the scopes over each other from the outside in, and
sorting the keys of all scopes and dropping repeats agree on which names are bound and to what
(`Environment.get?_flatten`, `Environment.names_eq`). The roots are more than that: they hold what
is hidden as well (`Environment.mem_roots_iff_visible_or_hidden`). -/

namespace AbstractStore

open Std

theorem AscMap.mem_values_iff {κ β : Type} [Ord κ] [LawfulEqOrd κ] {m : AscMap κ β} {b : β} :
    b ∈ m.values ↔ ∃ k, m.get? k = some b := by
  simp [values, get?_eq_some_iff]

namespace Environment

variable {A : Type} {e : Environment A} {name : Name} {a : A}

/-- A scope binds some name to the address, and one further in binds the same name. -/
def Hides (e : Environment A) (a : A) : Prop :=
  ∃ name inner frame outer, e.frames = inner ++ frame :: outer ∧ frame.get? name = some a ∧
    ∃ nearer ∈ inner, nearer.contains name = true

theorem lookup_eq_some_iff : e.lookup name = some a ↔
    ∃ inner frame outer, e.frames = inner ++ frame :: outer ∧ frame.get? name = some a ∧
      ∀ nearer ∈ inner, nearer.get? name = none :=
  List.findSome?_eq_some_iff

theorem contains_iff : e.contains name = true ↔ ∃ frame ∈ e.frames, frame.contains name = true := by
  simp [contains, lookup, AscMap.contains, List.findSome?_isSome_iff]

theorem get?_flatten (e : Environment A) (name : Name) :
    e.flatten.get? name = e.lookup name := by
  unfold flatten lookup
  induction e.frames with
  | nil => rfl
  | cons frame outer ih =>
    rw [List.foldr_cons, AscMap.get?_foldl_insert, ih, List.findSome?_cons]
    cases frame.get? name with
    | none => rfl
    | some a => rfl

theorem mem_names : name ∈ e.names ↔ e.contains name = true := by
  simp only [names, mem_eraseReps, List.mem_mergeSort, List.mem_flatMap, List.mem_reverse,
    AscSet.mem_toList, AscMap.mem_keys, contains_iff]

theorem names_ascending (e : Environment A) : e.names.Pairwise (compare · · = .lt) :=
  eraseReps_ascending (mergeSort_sorted _)

theorem nodup_names (e : Environment A) : e.names.Nodup :=
  AscSet.nodup_toList ⟨e.names, e.names_ascending⟩

theorem names_eq (e : Environment A) : e.names = e.flatten.keys.toList := by
  refine AscSet.ascending_ext e.names_ascending e.flatten.keys.ascending fun name => ?_
  rw [mem_names, AscSet.mem_toList, AscMap.mem_keys, AscMap.contains, get?_flatten, contains]

theorem mem_values_flatten : a ∈ e.flatten.values ↔ ∃ name, e.lookup name = some a := by
  simp only [AscMap.mem_values_iff, get?_flatten]

/-- The binding at hand is visible if no scope further in has the name. -/
theorem lookup_or_hides {inner outer : List (Frame A)} {frame : Frame A}
    (split : e.frames = inner ++ frame :: outer) (bound : frame.get? name = some a) :
    e.lookup name = some a ∨ e.Hides a := by
  by_cases nearest : ∀ nearer ∈ inner, nearer.get? name = none
  · exact .inl (lookup_eq_some_iff.2 ⟨inner, frame, outer, split, bound, nearest⟩)
  · obtain ⟨nearer, nearest⟩ := Classical.not_forall.1 nearest
    obtain ⟨inside, found⟩ := Classical.not_imp.1 nearest
    right
    refine ⟨name, inner, frame, outer, split, bound, nearer, inside, ?_⟩
    rwa [AscMap.contains, Option.isSome_iff_ne_none]

section Roots

variable [Address A]

theorem mem_roots_iff_bound :
    a ∈ e.roots ↔ ∃ frame ∈ e.frames, ∃ name, frame.get? name = some a := by
  simp only [mem_roots, AscMap.mem_values_iff]

theorem mem_roots_of_hides (hidden : e.Hides a) : a ∈ e.roots := by
  obtain ⟨name, inner, frame, outer, split, bound, -⟩ := hidden
  refine mem_roots_iff_bound.2 ⟨frame, ?_, name, bound⟩
  simp [split]

theorem mem_roots_iff_visible_or_hidden : a ∈ e.roots ↔ a ∈ e.flatten.values ∨ e.Hides a := by
  constructor
  · intro root
    obtain ⟨frame, inside, name, bound⟩ := mem_roots_iff_bound.1 root
    obtain ⟨inner, outer, split⟩ := List.append_of_mem inside
    refine (lookup_or_hides split bound).imp_left fun visible => ?_
    exact mem_values_flatten.2 ⟨name, visible⟩
  · rintro (visible | hidden)
    · obtain ⟨name, found⟩ := mem_values_flatten.1 visible
      exact mem_roots_of_lookup found
    · exact mem_roots_of_hides hidden

/-- The views of an environment. A name is looked up to what it is bound to in the flattened scopes,
and that is its binding in the nearest scope that has one. The names are those that are bound,
ascending and each once: the keys of the flattened scopes. The roots are the addresses that any
scope binds a name to, which are those of the flattened scopes and the hidden ones. -/
theorem views_agree (e : Environment A) :
    (∀ name, e.lookup name = e.flatten.get? name ∧
      (e.contains name = true ↔ ∃ frame ∈ e.frames, frame.contains name = true) ∧
      ∀ a, e.lookup name = some a ↔
        ∃ inner frame outer, e.frames = inner ++ frame :: outer ∧ frame.get? name = some a ∧
          ∀ nearer ∈ inner, nearer.get? name = none) ∧
    (e.names.Pairwise (compare · · = .lt) ∧ e.names.Nodup ∧
      (∀ name, name ∈ e.names ↔ e.contains name = true) ∧
      e.names = e.flatten.toList.map Prod.fst) ∧
    ∀ a, (a ∈ e.roots ↔ ∃ frame ∈ e.frames, ∃ name, frame.get? name = some a) ∧
      (a ∈ e.roots ↔ a ∈ e.flatten.values ∨ e.Hides a) :=
  ⟨fun name => ⟨(get?_flatten e name).symm, contains_iff, fun _ => lookup_eq_some_iff⟩,
    ⟨e.names_ascending, e.nodup_names, fun _ => mem_names, names_eq e⟩,
    fun _ => ⟨mem_roots_iff_bound, mem_roots_iff_visible_or_hidden⟩⟩

end Roots

/-- A name that two scopes bind, and one that only the outer scope does. -/
example :
    let x := Name.user "x"
    let y := Name.user "y"
    let e : Environment Precise := ⟨.ofList [(x, ⟨2⟩)], [.ofList [(x, ⟨0⟩), (y, ⟨1⟩)]]⟩
    e.flatten.toList = [(x, ⟨2⟩), (y, ⟨1⟩)] ∧ e.names = [x, y] ∧
      e.roots.toList = [⟨0⟩, ⟨1⟩, ⟨2⟩] := by
  cbv

end Environment

end AbstractStore
