import AbstractStore.Proofs.MemberSearch

/-! How far a search has to see.
The machine breaks a search off where it is led to an address that neither the heap embeds nor the
handler declares. What a handler declares is of no account to its answers. So a search that is not
broken off is the loop (`hunts_of_lookupMember`), and a loop that ends is what the machine comes to
wherever enough is declared (`Hunts.lookupMember_declaring`), and what a program comes to that sees
far enough, whatever is declared (`Hunts.run_search`). -/

namespace AbstractStore.Machine

section Declaring

variable {P A V : Type} [Address A] [Value V A]

/-- The machine with a handler that gives the same answers and declares `reach`. Where no handler is
installed there is none afterwards. -/
def declaring (m : Machine P A V) (reach : LiveSet A) : Machine P A V :=
  { m with recovery.address := m.recovery.address.map ({ · with reach }) }

theorem answerAddress_declaring (m : Machine P A V) (reach : LiveSet A) (fault : AddressFault A) :
    (m.declaring reach).recovery.answerAddress fault = m.recovery.answerAddress fault := by
  rw [Recovery.answerAddress, Recovery.answerAddress, declaring]
  cases m.recovery.address with
  | none => rfl
  | some handler => rfl

theorem outcome_resume_declaring (m : Machine P A V) (reach : LiveSet A) (fault : AddressFault A) :
    outcome (resume fault) (m.declaring reach) =
      ((outcome (resume fault) m).1, (outcome (resume fault) m).2.declaring reach) := by
  rw [outcome_resume, outcome_resume, answerAddress_declaring]
  cases m.recovery.answerAddress fault with
  | none => rfl
  | some v => rfl

theorem outcome_deref_declaring (m : Machine P A V) (reach : LiveSet A) (a : A) :
    outcome (deref a) (m.declaring reach) =
      ((outcome (deref a) m).1, (outcome (deref a) m).2.declaring reach) := by
  let asked := (m.record (.deref a)).note (.dereferenced a)
  have resumed (fault : AddressFault A) := asked.outcome_resume_declaring reach fault
  have stored : (m.declaring reach).heap.lookup a = m.heap.lookup a := rfl
  rw [outcome_deref, outcome_deref, stored]
  cases m.heap.lookup a with
  | none => exact resumed _
  | some c =>
    by_cases empty : c.isEmpty = true
    · simp only [empty, if_true]
      exact resumed _
    · simp only [empty]
      rfl

theorem deref_declaring {m after : Machine P A V} {a : A} {answer : Except (Error A) (Cell V)}
    (read : outcome (deref a) m = (answer, after)) (reach : LiveSet A) :
    outcome (deref a) (m.declaring reach) = (answer, after.declaring reach) := by
  rw [outcome_deref_declaring, read]

end Declaring

variable {P A : Type} [Address A] {member : Name} {horizon visited : LiveSet A} {stack : List A}
variable {m after : Machine P A (Object A)} {result : Except (Error A) (Option A)} {a : A}

/-- A visit that is neither passed over nor broken off. -/
theorem search_visit (unseen : a ∉ visited) (inside : a ∈ horizon) :
    search member horizon visited (a :: stack) m =
      match outcome (deref a) m with
      | (.error e, after) => (.error e, after)
      | (.ok c, after) =>
        match glance member [] c.toList with
        | .defined x => (.ok (.found x), after)
        | .undefined above =>
          search member horizon (visited.insert a) (above ++ stack) after := by
  rw [search, dif_neg unseen, dif_pos inside]
  rfl

/-- What is declared decides how far a search sees, and nothing else. -/
theorem search_declaring (m : Machine P A (Object A)) (reach : LiveSet A) :
    search member horizon visited stack (m.declaring reach) =
      ((search member horizon visited stack m).1,
        (search member horizon visited stack m).2.declaring reach) := by
  fun_induction search member horizon visited stack m with
  | case1 visited m => rw [search]
  | case2 visited m a stack seen ih => rw [search, dif_pos seen, ih]
  | case3 visited m a stack unseen inside e after failed =>
    rw [search_visit unseen inside, deref_declaring failed]
  | case4 visited m a stack unseen inside c after done x seen =>
    rw [search_visit unseen inside, deref_declaring done]
    simp only [seen]
  | case5 visited m a stack unseen inside c between done above seen _ ih =>
    rw [search_visit unseen inside, deref_declaring done]
    simp only [seen, ih]
  | case6 visited m a stack unseen outside => rw [search, dif_neg unseen, dif_neg outside]

/-- A loop that ends has been led to finitely many addresses. A search that sees them all comes to
the same. -/
theorem Hunts.search_eq (hunts : Hunts member visited stack m result after) :
    ∃ needed : LiveSet A, ∀ horizon, (∀ a ∈ needed, a ∈ horizon) →
      search member horizon visited stack m = (Except.map Finding.ofMember result, after) := by
  induction hunts with
  | exhausted visited m =>
    refine ⟨∅, fun horizon _ => ?_⟩
    rw [search]
    rfl
  | again seen _ ih =>
    obtain ⟨needed, searched⟩ := ih
    refine ⟨needed, fun horizon sees => ?_⟩
    rw [search, dif_pos seen, searched horizon sees]
  | @fault _ _ a _ _ _ unseen read =>
    refine ⟨.singleton a, fun horizon sees => ?_⟩
    rw [search_visit unseen (sees a (AscSet.mem_singleton.2 rfl)), read]
    rfl
  | @found _ _ a _ _ _ _ unseen read defined =>
    refine ⟨.singleton a, fun horizon sees => ?_⟩
    rw [search_visit unseen (sees a (AscSet.mem_singleton.2 rfl)), read]
    simp only [glance_eq_defined_iff.2 defined]
    rfl
  | @ascend _ _ a _ _ _ _ _ unseen read undefined _ ih =>
    obtain ⟨needed, searched⟩ := ih
    refine ⟨needed.insert a, fun horizon sees => ?_⟩
    rw [search_visit unseen (sees a (AscSet.mem_insert.2 (.inl rfl))), read]
    simp only [glance_eq_undefined_iff.2 ⟨undefined, rfl⟩]
    exact searched horizon fun b need => sees b (AscSet.mem_insert.2 (.inr need))

/-- A search that is not broken off is the loop. -/
theorem hunts_of_search
    (searched : search member horizon visited stack m =
      (Except.map Finding.ofMember result, after)) : Hunts member visited stack m result after := by
  obtain ⟨result', after', same, hunted⟩ | ⟨b, after', broken, -⟩ :=
    search_cases member horizon visited stack m
  · obtain ⟨sameResult, rfl⟩ := Prod.mk.inj (same.symm.trans searched)
    obtain rfl := eq_of_map_ofMember_eq sameResult
    exact hunted
  · obtain ⟨beyond, -⟩ := Prod.mk.inj (broken.symm.trans searched)
    rcases result with e | (_ | x) <;> cases beyond

theorem hunts_of_lookupMember
    (searched : outcome (lookupMember a member) m = (Except.map Finding.ofMember result, after)) :
    Hunts member ∅ [a] m result after :=
  hunts_of_search searched

/-- The search for a member comes to what a loop that ends comes to if the handler declares enough,
and whatever more it declares. -/
theorem Hunts.lookupMember_declaring (hunts : Hunts member ∅ [a] m result after) :
    ∃ needed : LiveSet A, ∀ reach, (∀ b ∈ needed, b ∈ reach) →
      outcome (lookupMember a member) (m.declaring reach) =
        (Except.map Finding.ofMember result, after.declaring reach) := by
  have same (reach : LiveSet A) : outcome (lookupMember a member) (m.declaring reach) =
      ((search member (horizon (m.declaring reach) a) ∅ [a] m).1,
        (search member (horizon (m.declaring reach) a) ∅ [a] m).2.declaring reach) :=
    search_declaring m reach
  cases installed : m.recovery.address with
  | none =>
    -- where no handler is installed the heap tells how far a search is led
    obtain ⟨result', after', searched, hunted⟩ :=
      lookupMember_hunts (leadsWithin_of_strict installed a) member
    obtain ⟨rfl, rfl⟩ := hunted.unique hunts
    refine ⟨∅, fun reach _ => ?_⟩
    have unchanged : horizon (m.declaring reach) a = horizon m a := by
      rw [horizon, horizon, declaring, installed]
      rfl
    have found : search member (horizon m a) ∅ [a] m = _ := searched
    rw [same, unchanged, found]
  | some handler =>
    obtain ⟨needed, searched⟩ := hunts.search_eq
    refine ⟨needed, fun reach declared => ?_⟩
    have seen : ∀ b ∈ needed, b ∈ horizon (m.declaring reach) a := by
      intro b need
      rw [horizon, declaring, installed]
      exact AscSet.mem_insert.2 (.inr (AscSet.mem_union.2 (.inr (declared b need))))
    rw [same, searched _ seen]

/-- Nor need the handler declare anything for a program to search as far as a loop that ends. -/
theorem Hunts.run_search [AllocationPolicy P A]
    (hunts : Hunts member visited stack m result after) : ∃ horizon : LiveSet A,
      outcome (Program.search member horizon visited stack).run m =
        (Except.map Finding.ofMember result, after) := by
  obtain ⟨needed, searched⟩ := hunts.search_eq
  refine ⟨needed, ?_⟩
  rw [Program.outcome_search]
  exact searched needed fun _ need => need

end AbstractStore.Machine
