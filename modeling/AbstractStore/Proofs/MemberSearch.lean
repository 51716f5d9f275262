import AbstractStore.Proofs.Programs
import AbstractStore.Proofs.Requests
import Mathlib

/-! How the member of a class is searched for.
The machine searches with a stack of addresses, and within a horizon, so that the search ends
whatever a handler answers. At every cell it takes one look at the classes there, which tells what
the first of them to define the member binds it to, or else what all of them name as superclasses
(`glance_eq`). Here the loop is told without the horizon, so that it need not end (`Hunts`), and
beside it the search that descends into one superclass after the other (`Visits`). These two come to
the same (`hunts_iff_visits`). Where what is read names superclasses of a finite set alone, they
end, and the machine comes to the same too (`search_ends`). -/

namespace AbstractStore

/-- The address that an event tells the reading of. -/
def Event.read? {A V : Type} : Event A V → Option A
  | .dereferenced a => some a
  | _ => none

namespace Object

variable {A : Type}

/-- What a class binds a member to. -/
def classMember? (member : Name) : Object A → Option A
  | .classDef _ _ members => members.get? member
  | _ => none

/-- What a class names as its superclasses, from left to right. -/
def parents : Object A → List A
  | .classDef _ superclasses _ => superclasses
  | _ => []

end Object

namespace Machine

section Classes

variable {A : Type}

theorem glance_eq (member : Name) (above : List A) (objects : List (Object A)) :
    glance member above objects =
      match objects.findSome? (·.classMember? member) with
      | some x => .defined x
      | none => .undefined (above ++ objects.flatMap Object.parents) := by
  induction objects generalizing above with
  | nil => simp [glance]
  | cons o later ih =>
    cases o with
    | classDef name superclasses members =>
      rw [glance, List.findSome?_cons, Object.classMember?]
      cases members.get? member with
      | some x => rfl
      | none => simp [ih, Object.parents]
    | _ => exact ih above

variable [Ord A]

/-- The member as the first class of a cell defines it. -/
def definition? (member : Name) (c : Cell (Object A)) : Option A :=
  c.toList.findSome? (·.classMember? member)

/-- The superclasses of the classes in a cell, in the order of the classes. -/
def superclasses (c : Cell (Object A)) : List A := c.toList.flatMap Object.parents

theorem glance_eq_defined_iff {member : Name} {c : Cell (Object A)} {x : A} :
    glance member [] c.toList = .defined x ↔ definition? member c = some x := by
  rw [glance_eq, definition?]
  cases c.toList.findSome? (·.classMember? member) <;> simp

theorem glance_eq_undefined_iff {member : Name} {c : Cell (Object A)} {above : List A} :
    glance member [] c.toList = .undefined above ↔
      definition? member c = none ∧ superclasses c = above := by
  rw [glance_eq, definition?, superclasses]
  cases c.toList.findSome? (·.classMember? member) <;> simp

end Classes

section Reading

variable {P A V : Type} [Address A] [Value V A]

/-- The machine when addresses have been read one after the other, whatever was read. -/
def afterReading (m : Machine P A V) (reads : List A) : Machine P A V :=
  reads.foldl (fun m a => (outcome (deref a) m).2) m

theorem outcome_deref_eq (a : A) (m : Machine P A V) :
    outcome (deref a) m = (m.reading a, m.afterReading [a]) := by
  obtain ⟨trace, journal, same⟩ := deref_eq a m
  have answer : (outcome (deref a) m).1 = m.reading a := congrArg Prod.fst same
  exact Prod.ext answer rfl

theorem reading_of_outcome_deref {a : A} {m after : Machine P A V}
    {result : Except (Error A) (Cell V)} (read : outcome (deref a) m = (result, after)) :
    m.reading a = result ∧ m.afterReading [a] = after :=
  Prod.mk.inj ((outcome_deref_eq a m).symm.trans read)

theorem afterReading_append (m : Machine P A V) (reads later : List A) :
    m.afterReading (reads ++ later) = (m.afterReading reads).afterReading later :=
  List.foldl_append

theorem afterReading_eq (m : Machine P A V) (reads : List A) :
    ∃ trace journal, m.afterReading reads = { m with trace, journal } := by
  induction reads generalizing m with
  | nil => exact ⟨m.trace, m.journal, rfl⟩
  | cons a reads ih =>
    obtain ⟨trace, journal, same⟩ := deref_eq a m
    obtain ⟨later, told, sameLater⟩ := ih (m.afterReading [a])
    have first : m.afterReading [a] = { m with trace, journal } := congrArg Prod.snd same
    refine ⟨later, told, ?_⟩
    rw [← List.singleton_append, afterReading_append, sameLater, first]

/-- Reading changes nothing of what is read later. -/
theorem reading_afterReading (m : Machine P A V) (reads : List A) (a : A) :
    (m.afterReading reads).reading a = m.reading a := by
  obtain ⟨trace, journal, same⟩ := m.afterReading_eq reads
  rw [same]
  rfl

theorem journal_deref (a : A) (m : Machine P A V) :
    (outcome (deref a) m).2.journal.filterMap Event.read? =
      m.journal.filterMap Event.read? ++ [a] := by
  let asked := (m.record (.deref a)).note (.dereferenced a)
  have told : asked.journal.filterMap Event.read? = m.journal.filterMap Event.read? ++ [a] := by
    simp [asked, note, record, Event.read?]
  have resumed (fault : AddressFault A) :
      (outcome (resume fault) asked).2.journal.filterMap Event.read? =
        asked.journal.filterMap Event.read? := by
    rw [outcome_resume]
    split <;> simp [note, Event.read?]
  rw [← told, outcome_deref]
  cases m.heap.lookup a with
  | none => exact resumed _
  | some c =>
    by_cases empty : c.isEmpty = true
    · simp only [empty, if_true]
      exact resumed _
    · simp only [empty]
      rfl

/-- The journal tells what has been read. -/
theorem journal_afterReading (m : Machine P A V) (reads : List A) :
    (m.afterReading reads).journal.filterMap Event.read? =
      m.journal.filterMap Event.read? ++ reads := by
  induction reads generalizing m with
  | nil => exact (List.append_nil _).symm
  | cons a reads ih =>
    have first : (m.afterReading [a]).journal.filterMap Event.read? =
      m.journal.filterMap Event.read? ++ [a] := journal_deref a m
    rw [← List.singleton_append, afterReading_append, ih, first, List.append_assoc]

end Reading

/-- What a search has come to, as the machine tells it. -/
def Finding.ofMember {A : Type} : Option A → Finding A
  | some x => .found x
  | none => .absent

theorem eq_of_map_ofMember_eq {A : Type} {result result' : Except (Error A) (Option A)}
    (same : Except.map Finding.ofMember result = Except.map Finding.ofMember result') :
    result = result' := by
  rcases result with e | (_ | x) <;> rcases result' with e' | (_ | x') <;> cases same <;> rfl

variable {P A : Type} [Address A]

/-! ### The loop -/

/-- The search as a loop, with the addresses that have been visited and those to be visited next:
what it comes to, and the machine that it leaves. A loop that does not end comes to nothing. -/
inductive Hunts (member : Name) : LiveSet A → List A → Machine P A (Object A) →
    Except (Error A) (Option A) → Machine P A (Object A) → Prop
  | exhausted (visited : LiveSet A) (m : Machine P A (Object A)) :
      Hunts member visited [] m (.ok none) m
  | again {visited stack a m result after} (seen : a ∈ visited)
      (rest : Hunts member visited stack m result after) :
      Hunts member visited (a :: stack) m result after
  | fault {visited stack a m e after} (unseen : a ∉ visited)
      (read : outcome (deref a) m = (.error e, after)) :
      Hunts member visited (a :: stack) m (.error e) after
  | found {visited stack a m c x after} (unseen : a ∉ visited)
      (read : outcome (deref a) m = (.ok c, after)) (defined : definition? member c = some x) :
      Hunts member visited (a :: stack) m (.ok (some x)) after
  | ascend {visited stack a m c between result after} (unseen : a ∉ visited)
      (read : outcome (deref a) m = (.ok c, between)) (undefined : definition? member c = none)
      (rest : Hunts member (visited.insert a) (superclasses c ++ stack) between result after) :
      Hunts member visited (a :: stack) m result after

section Loop

variable {member : Name} {visited : LiveSet A} {stack : List A}
variable {m after after' : Machine P A (Object A)} {result result' : Except (Error A) (Option A)}

/-- Every round of the loop is told by the stack and by what is read. -/
theorem Hunts.unique (hunts : Hunts member visited stack m result after)
    (other : Hunts member visited stack m result' after') : result = result' ∧ after = after' := by
  induction hunts with
  | exhausted =>
    cases other
    exact ⟨rfl, rfl⟩
  | again seen rest ih =>
    cases other with
    | again _ rest => exact ih rest
    | fault unseen | found unseen | ascend unseen => exact absurd seen unseen
  | fault unseen read =>
    cases other with
    | again seen => exact absurd seen unseen
    | fault _ read' =>
      cases read.symm.trans read'
      exact ⟨rfl, rfl⟩
    | found _ read' | ascend _ read' => cases read.symm.trans read'
  | found unseen read defined =>
    cases other with
    | again seen => exact absurd seen unseen
    | fault _ read' => cases read.symm.trans read'
    | found _ read' defined' =>
      cases read.symm.trans read'
      cases defined.symm.trans defined'
      exact ⟨rfl, rfl⟩
    | ascend _ read' undefined =>
      cases read.symm.trans read'
      cases defined.symm.trans undefined
  | ascend unseen read undefined rest ih =>
    cases other with
    | again seen => exact absurd seen unseen
    | fault _ read' => cases read.symm.trans read'
    | found _ read' defined =>
      cases read.symm.trans read'
      cases undefined.symm.trans defined
    | ascend _ read' _ rest' =>
      cases read.symm.trans read'
      exact ih rest'

/-- The loop does nothing but read, and it reads no address twice. -/
theorem Hunts.reads (hunts : Hunts member visited stack m result after) :
    ∃ reads, after = m.afterReading reads ∧ reads.Nodup ∧ ∀ a ∈ reads, a ∉ visited := by
  induction hunts with
  | exhausted => exact ⟨[], rfl, List.nodup_nil, nofun⟩
  | again _ _ ih => exact ih
  | @fault _ _ a _ _ _ unseen read | @found _ _ a _ _ _ _ unseen read =>
    obtain ⟨-, rfl⟩ := reading_of_outcome_deref read
    exact ⟨[a], rfl, List.pairwise_singleton .., List.forall_mem_singleton.2 unseen⟩
  | @ascend _ _ a _ _ _ _ _ unseen read _ _ ih =>
    obtain ⟨-, rfl⟩ := reading_of_outcome_deref read
    obtain ⟨reads, left, once, new⟩ := ih
    refine ⟨a :: reads, left, List.nodup_cons.2 ⟨fun twice => ?_, once⟩, ?_⟩
    · exact new a twice (AscSet.mem_insert.2 (.inl rfl))
    · exact List.forall_mem_cons.2 ⟨unseen, fun b later seen =>
        new b later (AscSet.mem_insert.2 (.inr seen))⟩

end Loop

/-! ### The descent -/

/-- The recursive search at one address after the other: what it comes to, the addresses that have
been visited then, and the machine that it leaves. At an address that has not been visited it takes
the member from the first class there that defines it, or else searches first at all that the
classes there name as superclasses. Once the member is found or a fault is met it stops. -/
inductive Visits (member : Name) : LiveSet A → List A → Machine P A (Object A) →
    Except (Error A) (Option A) → LiveSet A → Machine P A (Object A) → Prop
  | nil (visited : LiveSet A) (m : Machine P A (Object A)) :
      Visits member visited [] m (.ok none) visited m
  | again {visited later a m result known after} (seen : a ∈ visited)
      (rest : Visits member visited later m result known after) :
      Visits member visited (a :: later) m result known after
  | fault {visited later a m e after} (unseen : a ∉ visited)
      (read : outcome (deref a) m = (.error e, after)) :
      Visits member visited (a :: later) m (.error e) (visited.insert a) after
  | found {visited later a m c x after} (unseen : a ∉ visited)
      (read : outcome (deref a) m = (.ok c, after)) (defined : definition? member c = some x) :
      Visits member visited (a :: later) m (.ok (some x)) (visited.insert a) after
  | above {visited later a m c here between left result known after} (unseen : a ∉ visited)
      (read : outcome (deref a) m = (.ok c, here)) (undefined : definition? member c = none)
      (vain : Visits member (visited.insert a) (superclasses c) here (.ok none) between left)
      (rest : Visits member between later left result known after) :
      Visits member visited (a :: later) m result known after
  | stop {visited later a m c here result known after} (unseen : a ∉ visited)
      (read : outcome (deref a) m = (.ok c, here)) (undefined : definition? member c = none)
      (above : Visits member (visited.insert a) (superclasses c) here result known after)
      (last : result ≠ .ok none) :
      Visits member visited (a :: later) m result known after

/-! A descent under way has at each level addresses that are left. The stack of the loop is what is
left at all levels, the innermost first. -/

/-- The search at what is left at each level. -/
inductive Unwinds (member : Name) : LiveSet A → List (List A) → Machine P A (Object A) →
    Except (Error A) (Option A) → Machine P A (Object A) → Prop
  | done (visited : LiveSet A) (m : Machine P A (Object A)) :
      Unwinds member visited [] m (.ok none) m
  | next {visited later levels m between left result after}
      (vain : Visits member visited later m (.ok none) between left)
      (rest : Unwinds member between levels left result after) :
      Unwinds member visited (later :: levels) m result after
  | stop {visited later levels m result known after}
      (here : Visits member visited later m result known after) (last : result ≠ .ok none) :
      Unwinds member visited (later :: levels) m result after

section Descent

variable {member : Name} {visited known : LiveSet A} {addresses later : List A} {a : A}
variable {levels : List (List A)} {m here after : Machine P A (Object A)}
variable {c : Cell (Object A)} {result : Except (Error A) (Option A)}

/-- The loop follows a descent, and goes on with what is next if the descent was in vain. -/
theorem Visits.hunts (visits : Visits member visited addresses m result known after) :
    ∀ (stack : List A) {result' after'},
      (result = .ok none → Hunts member known stack after result' after') →
      (result ≠ .ok none → result = result' ∧ after = after') →
      Hunts member visited (addresses ++ stack) m result' after' := by
  induction visits with
  | nil =>
    intro stack result' after' next _
    exact next rfl
  | again seen rest ih =>
    intro stack result' after' next ends
    exact .again seen (ih stack next ends)
  | fault unseen read =>
    intro stack result' after' _ ends
    obtain ⟨rfl, rfl⟩ := ends nofun
    exact .fault unseen read
  | found unseen read defined =>
    intro stack result' after' _ ends
    obtain ⟨rfl, rfl⟩ := ends nofun
    exact .found unseen read defined
  | above unseen read undefined vain rest ihVain ihRest =>
    intro stack result' after' next ends
    exact .ascend unseen read undefined
      (ihVain _ (fun _ => ihRest stack next ends) fun found => absurd rfl found)
  | stop unseen read undefined above last ih =>
    intro stack result' after' _ ends
    exact .ascend unseen read undefined
      (ih _ (fun none => absurd none last) fun _ => ends last)

theorem Unwinds.again (seen : a ∈ visited)
    (unwinds : Unwinds member visited (later :: levels) m result after) :
    Unwinds member visited ((a :: later) :: levels) m result after := by
  cases unwinds with
  | next vain rest => exact .next (.again seen vain) rest
  | stop here last => exact .stop (.again seen here) last

/-- What a visit opens a level for is searched before what is left at its own level. -/
theorem Unwinds.ascend (unseen : a ∉ visited) (read : outcome (deref a) m = (.ok c, here))
    (undefined : definition? member c = none)
    (unwinds : Unwinds member (visited.insert a) (superclasses c :: later :: levels) here result
      after) :
    Unwinds member visited ((a :: later) :: levels) m result after := by
  cases unwinds with
  | stop above last => exact .stop (.stop unseen read undefined above last) last
  | next vain rest =>
    cases rest with
    | stop beside last => exact .stop (.above unseen read undefined vain beside) last
    | next beside rest => exact .next (.above unseen read undefined vain beside) rest

theorem unwinds_of_flatten_eq_nil (nothing : levels.flatten = []) :
    Unwinds member visited levels m (.ok none) m := by
  induction levels with
  | nil => exact .done visited m
  | cons later levels ih =>
    obtain ⟨rfl, nothing⟩ := List.append_eq_nil_iff.1 nothing
    exact .next (.nil visited m) (ih nothing)

/-- The level where the next address is. -/
theorem exists_of_flatten_eq_cons {stack : List A} (next : levels.flatten = a :: stack) :
    ∃ later outer, later ++ List.flatten outer = stack ∧
      ∀ {result after}, Unwinds member visited ((a :: later) :: outer) m result after →
        Unwinds member visited levels m result after := by
  induction levels with
  | nil => cases next
  | cons first levels ih =>
    cases first with
    | nil =>
      obtain ⟨later, outer, rest, same⟩ := ih next
      exact ⟨later, outer, rest, fun unwinds => .next (.nil visited m) (same unwinds)⟩
    | cons b later =>
      obtain ⟨rfl, rest⟩ := List.cons.inj next
      exact ⟨later, levels, rest, id⟩

/-- The levels follow the loop whose stack they make up. -/
theorem Hunts.unwinds {stack : List A} (hunts : Hunts member visited stack m result after) :
    ∀ levels : List (List A), levels.flatten = stack →
      Unwinds member visited levels m result after := by
  induction hunts with
  | exhausted =>
    intro levels stacked
    exact unwinds_of_flatten_eq_nil stacked
  | again seen _ ih =>
    intro levels stacked
    obtain ⟨later, outer, rest, same⟩ := exists_of_flatten_eq_cons stacked
    exact same (.again seen (ih (later :: outer) rest))
  | fault unseen read =>
    intro levels stacked
    obtain ⟨later, outer, -, same⟩ := exists_of_flatten_eq_cons stacked
    exact same (.stop (.fault unseen read) nofun)
  | found unseen read defined =>
    intro levels stacked
    obtain ⟨later, outer, -, same⟩ := exists_of_flatten_eq_cons stacked
    exact same (.stop (.found unseen read defined) nofun)
  | @ascend _ _ _ _ c _ _ _ unseen read undefined _ ih =>
    intro levels stacked
    obtain ⟨later, outer, rest, same⟩ := exists_of_flatten_eq_cons stacked
    have opened := ih (superclasses c :: later :: outer) (congrArg (superclasses c ++ ·) rest)
    exact same (.ascend unseen read undefined opened)

/-- The loop and the descent come to the same. -/
theorem hunts_iff_visits :
    Hunts member visited addresses m result after ↔
      ∃ known, Visits member visited addresses m result known after := by
  constructor
  · intro hunts
    cases hunts.unwinds [addresses] (List.append_nil addresses) with
    | stop here _ => exact ⟨_, here⟩
    | next vain rest =>
      cases rest
      exact ⟨_, vain⟩
  · rintro ⟨known, visits⟩
    rw [← List.append_nil addresses]
    refine visits.hunts [] (fun vain => ?_) fun _ => ⟨rfl, rfl⟩
    rw [vain]
    exact .exhausted known after

end Descent

/-! ### Where a search may be led -/

theorem mem_superclasses {c : Cell (Object A)} {s : A} :
    s ∈ superclasses c ↔
      ∃ name above members, .classDef name above members ∈ c ∧ s ∈ above := by
  simp only [superclasses, List.mem_flatMap, AscSet.mem_toList]
  constructor
  · rintro ⟨o, stored, named⟩
    cases o with
    | classDef name above members => exact ⟨name, above, members, stored, named⟩
    | _ => cases named
  · rintro ⟨name, above, members, stored, named⟩
    exact ⟨_, stored, named⟩

theorem mem_roots_of_mem_superclasses {c : Cell (Object A)} {s : A} (named : s ∈ superclasses c) :
    s ∈ Cell.roots c := by
  obtain ⟨name, above, members, stored, listed⟩ := mem_superclasses.1 named
  exact Cell.mem_roots.2 ⟨_, stored, AscSet.mem_ofList.2 (List.mem_append_left _ listed)⟩

/-- Whatever is read names superclasses within a horizon. -/
def LeadsWithin (m : Machine P A (Object A)) (horizon : LiveSet A) : Prop :=
  ∀ a c, m.reading a = .ok c → ∀ s ∈ superclasses c, s ∈ horizon

/-- The values with which faults are resumed name superclasses of a finite set alone. Where no
handler is installed there are no such values. -/
def ResumesWithin (m : Machine P A (Object A)) (named : LiveSet A) : Prop :=
  ∀ fault o, m.recovery.answerAddress fault = some o →
    ∀ s ∈ superclasses (.singleton o), s ∈ named

theorem resumesWithin_of_strict {m : Machine P A (Object A)} (strict : m.recovery.address = none)
    (named : LiveSet A) : m.ResumesWithin named := by
  intro fault o answer
  rw [Recovery.answerAddress, strict] at answer
  cases answer

theorem ResumesWithin.leadsWithin {m : Machine P A (Object A)} {named horizon : LiveSet A}
    (resumes : m.ResumesWithin named) (stored : ∀ s ∈ m.heap.embedded, s ∈ horizon)
    (declared : ∀ s ∈ named, s ∈ horizon) : m.LeadsWithin horizon := by
  intro a c read s next
  have resumed (fault : AddressFault A) (answered : m.onFault fault = .ok c) : s ∈ horizon := by
    unfold onFault at answered
    split at answered
    next o answer =>
      cases answered
      exact declared s (resumes fault o answer s next)
    next => cases answered
  unfold reading at read
  split at read
  next => exact resumed _ read
  next cell found =>
    split at read
    next => exact resumed _ read
    next =>
      cases read
      refine stored s (Heap.mem_embedded_of_successors (a := a) ?_)
      rw [Heap.successors, Heap.valuesAt, found]
      exact mem_roots_of_mem_superclasses next

theorem mem_horizon_self (m : Machine P A (Object A)) (a : A) : a ∈ horizon m a :=
  AscSet.mem_insert.2 (.inl rfl)

theorem mem_horizon_of_mem_embedded (m : Machine P A (Object A)) (a : A) :
    ∀ s ∈ m.heap.embedded, s ∈ horizon m a :=
  fun _ stored => AscSet.mem_insert.2 (.inr (AscSet.mem_union.2 (.inl stored)))

/-- Where no handler is installed a search is led to what the heap embeds. -/
theorem leadsWithin_of_strict {m : Machine P A (Object A)} (strict : m.recovery.address = none)
    (a : A) : m.LeadsWithin (horizon m a) :=
  (resumesWithin_of_strict strict ∅).leadsWithin (mem_horizon_of_mem_embedded m a)
    fun s declared => absurd declared (AscSet.not_mem_empty s)

/-! ### Searches that end -/

/-- A search either comes to what the loop comes to, or is broken off at an address beyond its
horizon that it was to visit at first or that a class names. -/
theorem search_cases (member : Name) (horizon visited : LiveSet A) (stack : List A)
    (m : Machine P A (Object A)) :
    (∃ result after,
      search member horizon visited stack m = (Except.map Finding.ofMember result, after) ∧
      Hunts member visited stack m result after) ∨
    ∃ b after, search member horizon visited stack m = (.ok (.beyond b), after) ∧ b ∉ horizon ∧
      (b ∈ stack ∨ ∃ a c, m.reading a = .ok c ∧ b ∈ superclasses c) := by
  fun_induction search member horizon visited stack m with
  | case1 visited m => exact .inl ⟨.ok none, m, rfl, .exhausted visited m⟩
  | case2 visited m a stack seen ih =>
    obtain ⟨result, after, searched, hunted⟩ | ⟨b, after, searched, outside, led⟩ := ih
    · exact .inl ⟨result, after, searched, .again seen hunted⟩
    · exact .inr ⟨b, after, searched, outside, led.imp_left (List.mem_cons_of_mem a)⟩
  | case3 visited m a stack unseen here e after failed =>
    exact .inl ⟨.error e, after, rfl, .fault unseen failed⟩
  | case4 visited m a stack unseen here c after done x seen =>
    exact .inl ⟨.ok (some x), after, rfl, .found unseen done (glance_eq_defined_iff.1 seen)⟩
  | case5 visited m a stack unseen here c between done above seen _ ih =>
    obtain ⟨undefined, rfl⟩ := glance_eq_undefined_iff.1 seen
    obtain ⟨read, rfl⟩ := reading_of_outcome_deref done
    obtain ⟨result, after, searched, hunted⟩ | ⟨b, after, searched, outside, led⟩ := ih
    · exact .inl ⟨result, after, searched, .ascend unseen done undefined hunted⟩
    · refine .inr ⟨b, after, searched, outside, ?_⟩
      simp only [reading_afterReading] at led
      rcases led with next | named
      · rcases List.mem_append.1 next with here | later
        · exact .inr ⟨a, c, read, here⟩
        · exact .inl (List.mem_cons_of_mem a later)
      · exact .inr named
  | case6 visited m a stack _ outside =>
    exact .inr ⟨a, m, rfl, outside, .inl (List.mem_cons_self ..)⟩

/-- A search within its horizon comes to what the loop comes to, so the loop ends. -/
theorem search_ends (member : Name) {horizon : LiveSet A} (visited : LiveSet A) {stack : List A}
    {m : Machine P A (Object A)} (within : m.LeadsWithin horizon)
    (inside : ∀ a ∈ stack, a ∈ horizon) :
    ∃ result after,
      search member horizon visited stack m = (Except.map Finding.ofMember result, after) ∧
      Hunts member visited stack m result after := by
  refine (search_cases member horizon visited stack m).resolve_right ?_
  rintro ⟨b, -, -, outside, next | ⟨a, c, read, named⟩⟩
  · exact outside (inside b next)
  · exact outside (within a c read b named)

/-- The search for a member as the loop from the class. -/
theorem lookupMember_hunts {m : Machine P A (Object A)} {a : A}
    (within : m.LeadsWithin (horizon m a)) (member : Name) :
    ∃ result after,
      outcome (lookupMember a member) m = (Except.map Finding.ofMember result, after) ∧
      Hunts member ∅ [a] m result after :=
  search_ends member ∅ within (List.forall_mem_singleton.2 (mem_horizon_self m a))

/-- Without a handler for addresses the search for a member comes to what the descent from the class
comes to, which ends. They leave the same machine, so both read the same addresses in the same
order. -/
theorem lookupMember_depthFirst {m : Machine P A (Object A)} (strict : m.recovery.address = none)
    (a : A) (member : Name) :
    ∃ result after,
      outcome (lookupMember a member) m = (Except.map Finding.ofMember result, after) ∧
      ∀ visitResult afterVisit,
        (∃ known, Visits member ∅ [a] m visitResult known afterVisit) ↔
          visitResult = result ∧ afterVisit = after := by
  obtain ⟨result, after, searched, hunted⟩ :=
    lookupMember_hunts (leadsWithin_of_strict strict a) member
  refine ⟨result, after, searched, fun visitResult afterVisit => ?_⟩
  rw [← hunts_iff_visits]
  constructor
  · intro visits
    exact visits.unique hunted
  · rintro ⟨rfl, rfl⟩
    exact hunted

def classOf (superclasses : List Precise) (members : List (Name × Precise)) : Object Precise :=
  .classDef (.user "C") superclasses (.ofList members)

/-- A class with two superclasses that share one, which in turn names the first. -/
def diamond : Machine FreshPolicy Precise (Object Precise) where
  policy := {}
  heap := (((({} : Heap Precise (Object Precise)).replace ⟨0⟩ (classOf [⟨1⟩, ⟨2⟩] [])).replace ⟨1⟩
    (classOf [⟨3⟩] [])).replace ⟨2⟩ (classOf [⟨3⟩] [(.user "greet", ⟨4⟩)])).replace ⟨3⟩
    (classOf [⟨0⟩] [(.user "greet", ⟨5⟩)])

theorem lookupMember_depthFirst_diamond :
    let left := diamond.afterReading [⟨0⟩, ⟨1⟩, ⟨3⟩]
    diamond.recovery.address = none ∧
    outcome (lookupMember ⟨0⟩ (.user "greet")) diamond = (.ok (.found ⟨5⟩), left) ∧
    ∃ known, Visits (.user "greet") ∅ [⟨0⟩] diamond (.ok (some ⟨5⟩)) known left := by
  intro left
  have searched :
      outcome (lookupMember ⟨0⟩ (.user "greet")) diamond = (.ok (.found ⟨5⟩), left) := by cbv
  obtain ⟨result, after, same, descends⟩ :=
    lookupMember_depthFirst (m := diamond) rfl ⟨0⟩ (.user "greet")
  obtain ⟨found, sameLeft⟩ := Prod.mk.inj (searched.symm.trans same)
  exact ⟨rfl, searched, (descends _ _).2 ⟨eq_of_map_ofMember_eq found, sameLeft⟩⟩

/-- The search for a member ends where no handler is installed for addresses, and where the values
that it answers with name superclasses of a finite set alone. It reads no address twice, as the
journal tells, and nothing but the trace and the journal is changed by it. -/
theorem lookupMember_ends (m : Machine P A (Object A)) (a : A) (member : Name)
    (named : LiveSet A) (resumes : m.ResumesWithin named) :
    ∃ result reads,
      Hunts member ∅ [a] m result (m.afterReading reads) ∧
      (m.afterReading reads).journal.filterMap Event.read? =
        m.journal.filterMap Event.read? ++ reads ∧ reads.Nodup ∧
      { m.afterReading reads with trace := m.trace, journal := m.journal } = m ∧
      ((∀ s ∈ named, s ∈ horizon m a) → outcome (lookupMember a member) m =
        (Except.map Finding.ofMember result, m.afterReading reads)) := by
  -- a horizon that has room for what the handler names, whether it declares that or not
  have within : m.LeadsWithin (horizon m a ∪ named) :=
    resumes.leadsWithin
      (fun s stored => AscSet.mem_union.2 (.inl (mem_horizon_of_mem_embedded m a s stored)))
      fun s declared => AscSet.mem_union.2 (.inr declared)
  obtain ⟨result, after, -, hunted⟩ := search_ends member ∅ within
    (List.forall_mem_singleton.2 (AscSet.mem_union.2 (.inl (mem_horizon_self m a))))
  obtain ⟨reads, rfl, once, -⟩ := hunted.reads
  obtain ⟨trace, journal, same⟩ := m.afterReading_eq reads
  refine ⟨result, reads, hunted, m.journal_afterReading reads, once, by rw [same],
    fun declared => ?_⟩
  obtain ⟨result', after', searched, hunted'⟩ := lookupMember_hunts
    (resumes.leadsWithin (mem_horizon_of_mem_embedded m a) declared) member
  obtain ⟨rfl, rfl⟩ := hunted.unique hunted'
  exact searched

/-- Faults are resumed with a class that names its own address, perhaps, and one where nothing is
stored. -/
def resumingUpward : AddressHandler Precise (Object Precise) where
  answer _ := some (classOf [⟨0⟩, ⟨7⟩] [])
  reach := .ofList [⟨0⟩, ⟨7⟩]

/-- A class that names itself and, twice, an address where nothing is stored. -/
def dangling : Machine FreshPolicy Precise (Object Precise) where
  policy := {}
  heap := ({} : Heap Precise (Object Precise)).replace ⟨0⟩ (classOf [⟨0⟩, ⟨6⟩, ⟨6⟩] [])
  recovery := { address := some resumingUpward }

theorem lookupMember_ends_dangling :
    let named : LiveSet Precise := .ofList [⟨0⟩, ⟨7⟩]
    let left := dangling.afterReading [⟨0⟩, ⟨6⟩, ⟨7⟩]
    dangling.ResumesWithin named ∧ (∀ s ∈ named, s ∈ horizon dangling ⟨0⟩) ∧
    Hunts (.user "swim") ∅ [⟨0⟩] dangling (.ok none) left ∧
    outcome (lookupMember ⟨0⟩ (.user "swim")) dangling = (.ok .absent, left) := by
  intro named left
  have resumes : dangling.ResumesWithin named := by
    intro fault o answer s next
    obtain rfl := Option.some.inj answer
    exact AscSet.mem_ofList.2 next
  have declared : ∀ s ∈ named, s ∈ horizon dangling ⟨0⟩ :=
    fun s answered => AscSet.mem_insert.2 (.inr (AscSet.mem_union.2 (.inr answered)))
  have searched : outcome (lookupMember ⟨0⟩ (.user "swim")) dangling = (.ok .absent, left) := by
    cbv
  obtain ⟨result, reads, hunted, -, -, -, same⟩ :=
    lookupMember_ends dangling ⟨0⟩ (.user "swim") named resumes
  obtain ⟨absent, sameLeft⟩ := Prod.mk.inj (searched.symm.trans (same declared))
  obtain rfl : .ok none = result := eq_of_map_ofMember_eq absent
  exact ⟨resumes, declared, sameLeft ▸ hunted, searched⟩

end Machine

end AbstractStore
