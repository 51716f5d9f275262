import AbstractStore.Proofs.MemberSearch
import AbstractStore.Proofs.Surroundings

/-! What the search for a member tells of a hierarchy of classes.
The hierarchy above an address is what is reached from it by superclasses. The search goes through
it with an invariant (`Spans`): all that is above is above what is next, unless it has been visited
in vain. So its result is told by the hierarchy alone (`Hunts.tells`), and it is the same on a heap
that has the same cells at all that the search is led to (`Hunts.congr`). -/

namespace AbstractStore

open Machine

variable {P A : Type} [Address A]

namespace Heap

variable {h : Heap A (Object A)} {a s x : A} {member : Name}

/-- A class at `a` names `s` as a superclass. -/
def Extends (h : Heap A (Object A)) (a s : A) : Prop :=
  ∃ c, h.lookup a = some c ∧ ∃ name above members, .classDef name above members ∈ c ∧ s ∈ above

/-- A class at `a` binds a member to `x`. -/
def Defines (h : Heap A (Object A)) (a : A) (member : Name) (x : A) : Prop :=
  ∃ c, h.lookup a = some c ∧
    ∃ name above members, .classDef name above members ∈ c ∧ members.get? member = some x

/-- The addresses reached from `a` by superclasses, `a` among them. -/
abbrev Above (h : Heap A (Object A)) : A → A → Prop := Relation.ReflTransGen h.Extends

theorem extends_iff : h.Extends a s ↔ s ∈ superclasses (h.valuesAt a) := by
  rw [mem_superclasses, valuesAt]
  cases found : h.lookup a with
  | none => simp [Extends, found]
  | some c => simp [Extends, found]

theorem defines_of_definition? (defined : definition? member (h.valuesAt a) = some x) :
    h.Defines a member x := by
  obtain ⟨o, stored, binds⟩ := List.exists_of_findSome?_eq_some defined
  cases found : h.lookup a with
  | none =>
    rw [valuesAt, found] at stored
    cases stored
  | some c =>
    rw [valuesAt, found] at stored
    cases o with
    | classDef name above members => exact ⟨c, found, name, above, members, stored, binds⟩
    | _ => cases binds

theorem definition?_eq_none_iff :
    definition? member (h.valuesAt a) = none ↔ ∀ x, ¬ h.Defines a member x := by
  constructor
  · rintro undefined x ⟨c, found, name, above, members, stored, binds⟩
    rw [valuesAt, found] at undefined
    have unbound : members.get? member = none :=
      List.findSome?_eq_none_iff.1 undefined _ stored
    rw [binds] at unbound
    cases unbound
  · intro undefined
    cases defined : definition? member (h.valuesAt a) with
    | none => rfl
    | some x => exact absurd (defines_of_definition? defined) (undefined x)

/-- The superclasses of a class and the addresses of its members are kept alive by it. -/
theorem leads_of_extends (next : h.Extends a s) : h.Leads a s := by
  obtain ⟨c, found, name, above, members, stored, named⟩ := next
  exact ⟨c, found, _, stored, AscSet.mem_ofList.2 (List.mem_append_left _ named)⟩

theorem leads_of_defines (defines : h.Defines a member x) : h.Leads a x := by
  obtain ⟨c, found, name, above, members, stored, binds⟩ := defines
  have value : x ∈ members.values :=
    List.mem_map.2 ⟨(member, x), AscMap.get?_eq_some_iff.1 binds, rfl⟩
  exact ⟨c, found, _, stored, AscSet.mem_ofList.2 (List.mem_append_right _ value)⟩

theorem mem_reachable_of_above {roots : LiveSet A} (reached : a ∈ h.reachable roots)
    (above : h.Above a s) : s ∈ h.reachable roots := by
  induction above with
  | refl => exact reached
  | tail _ next ih => exact mem_reachable_of_leads ih (leads_of_extends next)

end Heap

namespace Machine

variable {m : Machine P A (Object A)}

/-- Without a handler what is read is what is stored, or the fault that is met is an error. -/
theorem reading_eq_of_strict (strict : m.recovery.address = none) (a : A) :
    m.reading a = match m.heap.fault? a with
      | some fault => .error (.address fault)
      | none => .ok (m.heap.valuesAt a) := by
  have noHandler : m.surroundings.address = none := strict
  rw [reading_eq, Surroundings.read]
  cases m.heap.fault? a with
  | none => rfl
  | some fault => simp only [Surroundings.onFault, noHandler, Option.bind_none]

theorem fault?_of_reading_eq_error (strict : m.recovery.address = none) {a : A} {e : Error A}
    (read : m.reading a = .error e) :
    ∃ fault, m.heap.fault? a = some fault ∧ e = .address fault := by
  rw [reading_eq_of_strict strict] at read
  split at read
  next fault faulty =>
    cases read
    exact ⟨fault, faulty, rfl⟩
  next => cases read

theorem fault?_of_reading_eq_ok (strict : m.recovery.address = none) {a : A}
    {c : Cell (Object A)} (read : m.reading a = .ok c) :
    m.heap.fault? a = none ∧ c = m.heap.valuesAt a := by
  rw [reading_eq_of_strict strict] at read
  split at read
  next => cases read
  next faultless =>
    cases read
    exact ⟨faultless, rfl⟩

theorem heap_afterReading (m : Machine P A (Object A)) (reads : List A) :
    (m.afterReading reads).heap = m.heap := by
  obtain ⟨trace, journal, same⟩ := m.afterReading_eq reads
  rw [same]

theorem recovery_afterReading (m : Machine P A (Object A)) (reads : List A) :
    (m.afterReading reads).recovery = m.recovery := by
  obtain ⟨trace, journal, same⟩ := m.afterReading_eq reads
  rw [same]

/-- What holds in the middle of a search from `root`. Whatever has been visited was visited in vain,
and what it leads to has been visited or is next. -/
structure Spans (h : Heap A (Object A)) (root : A) (member : Name) (visited : LiveSet A)
    (stack : List A) : Prop where
  above : ∀ a ∈ stack, h.Above root a
  rooted : root ∈ visited ∨ root ∈ stack
  passed : ∀ a ∈ visited, h.fault? a = none ∧ ∀ x, ¬ h.Defines a member x
  closed : ∀ a ∈ visited, ∀ s, h.Extends a s → s ∈ visited ∨ s ∈ stack

namespace Spans

variable {h : Heap A (Object A)} {root a : A} {member : Name} {visited : LiveSet A}
variable {stack : List A}

theorem start (h : Heap A (Object A)) (root : A) (member : Name) :
    Spans h root member ∅ [root] where
  above _ next := List.mem_singleton.1 next ▸ .refl
  rooted := .inr (List.mem_singleton_self root)
  passed a visited := absurd visited (AscSet.not_mem_empty a)
  closed a visited := absurd visited (AscSet.not_mem_empty a)

theorem again (spans : Spans h root member visited (a :: stack)) (seen : a ∈ visited) :
    Spans h root member visited stack := by
  have kept (b : A) (known : b ∈ visited ∨ b ∈ a :: stack) : b ∈ visited ∨ b ∈ stack := by
    rcases known with old | next
    · exact .inl old
    · rcases List.mem_cons.1 next with rfl | later
      · exact .inl seen
      · exact .inr later
  exact ⟨(List.forall_mem_cons.1 spans.above).2, kept root spans.rooted, spans.passed,
    fun b old s next => kept s (spans.closed b old s next)⟩

theorem ascend (spans : Spans h root member visited (a :: stack)) (faultless : h.fault? a = none)
    (undefined : ∀ x, ¬ h.Defines a member x) :
    Spans h root member (visited.insert a) (superclasses (h.valuesAt a) ++ stack) := by
  have ⟨here, later⟩ := List.forall_mem_cons.1 spans.above
  have kept (b : A) (known : b ∈ visited ∨ b ∈ a :: stack) :
      b ∈ visited.insert a ∨ b ∈ superclasses (h.valuesAt a) ++ stack := by
    rcases known with old | next
    · exact .inl (AscSet.mem_insert.2 (.inr old))
    · rcases List.mem_cons.1 next with same | later
      · exact .inl (AscSet.mem_insert.2 (.inl same))
      · exact .inr (List.mem_append_right _ later)
  refine ⟨?_, kept root spans.rooted, ?_, ?_⟩
  · intro b next
    rcases List.mem_append.1 next with named | old
    · exact here.tail (Heap.extends_iff.2 named)
    · exact later b old
  · intro b now
    rcases AscSet.mem_insert.1 now with rfl | old
    · exact ⟨faultless, undefined⟩
    · exact spans.passed b old
  · intro b now s next
    rcases AscSet.mem_insert.1 now with rfl | old
    · exact .inr (List.mem_append_left _ (Heap.extends_iff.1 next))
    · exact kept s (spans.closed b old s next)

/-- When nothing is left to be visited, all that is above the root has been visited. -/
theorem mem_visited (spans : Spans h root member visited []) {s : A} (above : h.Above root s) :
    s ∈ visited := by
  induction above with
  | refl => exact spans.rooted.resolve_right List.not_mem_nil
  | tail _ next ih => exact (spans.closed _ ih _ next).resolve_right List.not_mem_nil

end Spans

/-- What a search from `root` tells of the hierarchy above it. -/
def Tells (h : Heap A (Object A)) (root : A) (member : Name) : Except (Error A) (Option A) → Prop
  | .ok none => ∀ s, h.Above root s → h.fault? s = none ∧ ∀ x, ¬ h.Defines s member x
  | .ok (some x) => ∃ s, h.Above root s ∧ h.Defines s member x
  | .error e => ∃ s fault, h.Above root s ∧ h.fault? s = some fault ∧ e = .address fault

theorem Hunts.tells {member : Name} {visited : LiveSet A} {stack : List A} {root : A}
    {result : Except (Error A) (Option A)} {after : Machine P A (Object A)}
    (hunts : Hunts member visited stack m result after) (strict : m.recovery.address = none)
    (spans : Spans m.heap root member visited stack) : Tells m.heap root member result := by
  induction hunts with
  | exhausted => exact fun s above => spans.passed s (spans.mem_visited above)
  | again seen _ ih => exact ih strict (spans.again seen)
  | @fault _ _ a _ _ _ _ failed =>
    obtain ⟨read, -⟩ := reading_of_outcome_deref failed
    obtain ⟨fault, faulty, rfl⟩ := fault?_of_reading_eq_error strict read
    exact ⟨a, fault, spans.above a (List.mem_cons_self ..), faulty, rfl⟩
  | @found _ _ a _ _ _ _ _ done defined =>
    obtain ⟨read, -⟩ := reading_of_outcome_deref done
    obtain ⟨-, rfl⟩ := fault?_of_reading_eq_ok strict read
    exact ⟨a, spans.above a (List.mem_cons_self ..), Heap.defines_of_definition? defined⟩
  | @ascend _ _ a _ _ _ _ _ _ done undefined _ ih =>
    obtain ⟨read, rfl⟩ := reading_of_outcome_deref done
    obtain ⟨faultless, rfl⟩ := fault?_of_reading_eq_ok strict read
    rw [heap_afterReading, recovery_afterReading] at ih
    exact ih strict (spans.ascend faultless (Heap.definition?_eq_none_iff.1 undefined))

theorem tells_lookupMember (strict : m.recovery.address = none) (a : A) (member : Name) :
    ∃ result, (outcome (lookupMember a member) m).1 = Except.map Finding.ofMember result ∧
      Tells m.heap a member result := by
  obtain ⟨result, after, searched, hunted⟩ :=
    lookupMember_hunts (leadsWithin_of_strict strict a) member
  exact ⟨result, congrArg Prod.fst searched, hunted.tells strict (.start m.heap a member)⟩

/-- The search for a member is told by the hierarchy above the class. It is in vain exactly if there
is a value at each address there and no class binds the member, it finds what a class there binds,
and it ends with an error only for an address there without a value. So where there are values and
some class binds the member it is found. -/
theorem lookupMember_tells_hierarchy (strict : m.recovery.address = none) (a : A) (member : Name) :
    let result := (outcome (lookupMember a member) m).1
    (result = .ok .absent ↔ ∀ s, m.heap.Above a s →
      (∃ c, m.heap.lookup s = some c ∧ c ≠ ∅) ∧ ∀ x, ¬ m.heap.Defines s member x) ∧
    (∀ x, result = .ok (.found x) → ∃ s, m.heap.Above a s ∧ m.heap.Defines s member x) ∧
    (∀ e, result = .error e → ∃ s, m.heap.Above a s ∧
      (m.heap.lookup s = none ∧ e = .address (.unallocated s) ∨
        m.heap.lookup s = some ∅ ∧ e = .address (.uninitialized s))) ∧
    ((∀ s, m.heap.Above a s → ∃ c, m.heap.lookup s = some c ∧ c ≠ ∅) →
      (∃ s x, m.heap.Above a s ∧ m.heap.Defines s member x) → ∃ x, result = .ok (.found x)) ∧
    ∀ s, result ≠ .ok (.beyond s) := by
  intro answer
  obtain ⟨result, told, tells⟩ := tells_lookupMember strict a member
  rw [show answer = Except.map Finding.ofMember result from told]
  simp only [← Heap.fault?_eq_none_iff]
  match result, tells with
  | .ok none, vain =>
    refine ⟨iff_of_true rfl vain, nofun, nofun, fun _ bound => ?_, nofun⟩
    obtain ⟨s, x, above, defines⟩ := bound
    exact absurd defines ((vain s above).2 x)
  | .ok (some x), ⟨s, above, defines⟩ =>
    refine ⟨iff_of_false nofun fun vain => (vain s above).2 x defines, fun y same => ?_, nofun,
      fun _ _ => ⟨x, rfl⟩, nofun⟩
    cases same
    exact ⟨s, above, defines⟩
  | .error e, ⟨s, fault, above, faulty, same⟩ =>
    have met (faultless : m.heap.fault? s = none) : False := by
      rw [faulty] at faultless
      cases faultless
    refine ⟨iff_of_false nofun fun vain => met (vain s above).1, nofun, fun e' same' => ?_,
      fun faultless _ => (met (faultless s above)).elim, nofun⟩
    cases same'
    refine ⟨s, above, ?_⟩
    rcases Heap.fault?_eq_some_iff.1 faulty with ⟨missing, rfl⟩ | ⟨empty, rfl⟩
    · exact .inl ⟨missing, same⟩
    · exact .inr ⟨empty, same⟩

theorem lookupMember_tells_hierarchy_diamond :
    let result member := (outcome (lookupMember ⟨0⟩ member) diamond).1
    diamond.recovery.address = none ∧
    (result (.user "greet") = .ok (.found ⟨5⟩) ∧
      ∃ s, diamond.heap.Above ⟨0⟩ s ∧ diamond.heap.Defines s (.user "greet") ⟨5⟩) ∧
    (result (.user "swim") = .ok .absent ∧ ∀ s, diamond.heap.Above ⟨0⟩ s →
      (∃ c, diamond.heap.lookup s = some c ∧ c ≠ ∅) ∧
        ∀ x, ¬ diamond.heap.Defines s (.user "swim") x) := by
  intro result
  have found : (outcome (lookupMember ⟨0⟩ (.user "greet")) diamond).1 = .ok (.found ⟨5⟩) := by cbv
  have absent : (outcome (lookupMember ⟨0⟩ (.user "swim")) diamond).1 = .ok .absent := by cbv
  obtain ⟨-, finds, -⟩ := lookupMember_tells_hierarchy (m := diamond) rfl ⟨0⟩ (.user "greet")
  obtain ⟨vain, -⟩ := lookupMember_tells_hierarchy (m := diamond) rfl ⟨0⟩ (.user "swim")
  exact ⟨rfl, ⟨found, finds _ found⟩, absent, vain.1 absent⟩

/-- Two machines read the same at all addresses that are met when one starts from some of them. -/
structure ReadsAlike (k m : Machine P A (Object A)) (met : A → Prop) : Prop where
  same : ∀ a, met a → k.reading a = m.reading a
  closed : ∀ a c, met a → m.reading a = .ok c → ∀ s ∈ superclasses c, met s

theorem ReadsAlike.afterReading {k : Machine P A (Object A)} {met : A → Prop}
    (alike : k.ReadsAlike m met) (reads : List A) :
    (k.afterReading reads).ReadsAlike (m.afterReading reads) met where
  same a here := by
    rw [reading_afterReading, reading_afterReading]
    exact alike.same a here
  closed a c here read := by
    rw [reading_afterReading] at read
    exact alike.closed a c here read

theorem ReadsAlike.outcome_deref {k after : Machine P A (Object A)} {met : A → Prop} {a : A}
    {result : Except (Error A) (Cell (Object A))} (alike : k.ReadsAlike m met) (here : met a)
    (read : outcome (deref a) m = (result, after)) :
    outcome (deref a) k = (result, k.afterReading [a]) := by
  rw [outcome_deref_eq, alike.same a here, (reading_of_outcome_deref read).1]

/-- Where the same is read the loop comes to the same. -/
theorem Hunts.congr {met : A → Prop} {k after : Machine P A (Object A)} {member : Name}
    {visited : LiveSet A} {stack : List A} {result : Except (Error A) (Option A)}
    (hunts : Hunts member visited stack m result after) (alike : k.ReadsAlike m met)
    (next : ∀ a ∈ stack, met a) :
    ∃ left, Hunts member visited stack k result left := by
  induction hunts generalizing k with
  | exhausted => exact ⟨k, .exhausted _ k⟩
  | again seen _ ih =>
    obtain ⟨left, rest⟩ := ih alike (List.forall_mem_cons.1 next).2
    exact ⟨left, .again seen rest⟩
  | fault unseen failed =>
    have ⟨here, _⟩ := List.forall_mem_cons.1 next
    exact ⟨_, .fault unseen (alike.outcome_deref here failed)⟩
  | found unseen done defined =>
    have ⟨here, _⟩ := List.forall_mem_cons.1 next
    exact ⟨_, .found unseen (alike.outcome_deref here done) defined⟩
  | @ascend _ _ a _ c _ _ _ unseen done undefined _ ih =>
    have ⟨here, later⟩ := List.forall_mem_cons.1 next
    obtain ⟨read, rfl⟩ := reading_of_outcome_deref done
    obtain ⟨left, rest⟩ := ih (alike.afterReading [a])
      (List.forall_mem_append.2 ⟨alike.closed a c here read, later⟩)
    exact ⟨left, .ascend unseen (alike.outcome_deref here done) undefined rest⟩

/-- After a collection the same is read at all that the roots reach. -/
theorem readsAlike_collect {k : Machine P A (Object A)} (strict : m.recovery.address = none)
    (strictAfter : k.recovery.address = none) {roots : LiveSet A}
    (collected : k.heap = m.heap.collect roots) :
    k.ReadsAlike m (· ∈ m.heap.reachable roots) where
  same a reached := by
    have there : k.heap.lookup a = m.heap.lookup a := by
      rw [collected, Heap.lookup_collect, if_pos reached]
    rw [reading_of_strict strictAfter, reading_of_strict strict, there]
  closed a c reached read s next := by
    obtain ⟨-, rfl⟩ := fault?_of_reading_eq_ok strict read
    exact Heap.mem_reachable_of_leads reached (Heap.leads_of_extends (Heap.extends_iff.2 next))

/-- The search for a member from a class that some roots reach comes to the same after a collection
from these roots, be it that the member is found, that it is not or that a fault is met. What it
finds is reached too. -/
theorem lookupMember_collect {k : Machine P A (Object A)} (strict : m.recovery.address = none)
    (strictAfter : k.recovery.address = none) (roots : LiveSet A)
    (collected : k.heap = m.heap.collect roots) (a : A) (reached : a ∈ m.heap.reachable roots)
    (member : Name) :
    (outcome (lookupMember a member) k).1 = (outcome (lookupMember a member) m).1 ∧
    ∀ x, (outcome (lookupMember a member) m).1 = .ok (.found x) →
      x ∈ m.heap.reachable roots := by
  constructor
  · obtain ⟨result, left, searched, hunted⟩ :=
      lookupMember_hunts (leadsWithin_of_strict strict a) member
    obtain ⟨resultAfter, leftAfter, searchedAfter, huntedAfter⟩ :=
      lookupMember_hunts (leadsWithin_of_strict strictAfter a) member
    obtain ⟨_, followed⟩ := hunted.congr (readsAlike_collect strict strictAfter collected)
      (List.forall_mem_singleton.2 reached)
    obtain ⟨rfl, -⟩ := huntedAfter.unique followed
    rw [searched, searchedAfter]
  · intro x found
    obtain ⟨result, same, tells⟩ := tells_lookupMember strict a member
    obtain rfl : result = .ok (some x) := eq_of_map_ofMember_eq (same.symm.trans found)
    obtain ⟨s, above, defines⟩ := tells
    exact Heap.mem_reachable_of_leads (Heap.mem_reachable_of_above reached above)
      (Heap.leads_of_defines defines)

/-- The diamond, beside a value that nothing refers to. -/
def littered : Machine FreshPolicy Precise (Object Precise) :=
  { diamond with heap := diamond.heap.replace ⟨9⟩ .unit }

theorem lookupMember_collect_littered :
    let roots : LiveSet Precise := .singleton ⟨0⟩
    let swept := (gc roots littered).2
    littered.recovery.address = none ∧ swept.recovery.address = none ∧
    swept.heap = littered.heap.collect roots ∧ ⟨0⟩ ∈ littered.heap.reachable roots ∧
    (outcome (lookupMember ⟨0⟩ (.user "greet")) swept).1 = .ok (.found ⟨5⟩) ∧
    ⟨5⟩ ∈ littered.heap.reachable roots := by
  intro roots swept
  have found : (outcome (lookupMember ⟨0⟩ (.user "greet")) littered).1 = .ok (.found ⟨5⟩) := by cbv
  have reached : ⟨0⟩ ∈ littered.heap.reachable roots :=
    Heap.mem_reachable_of_mem_roots (AscSet.mem_singleton.2 rfl)
  obtain ⟨same, kept⟩ := lookupMember_collect (m := littered) (k := swept) rfl rfl roots rfl ⟨0⟩
    reached (.user "greet")
  exact ⟨rfl, rfl, rfl, reached, same.trans found, kept ⟨5⟩ found⟩

end Machine

end AbstractStore
