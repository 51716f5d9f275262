import AbstractStore.Proofs.Json.Grammar

/-! Where the tokens of a text stand in it.
A token goes by its own characters and at most by the one behind them (`local_token?`). So tokens
that a text begins with are all the tokens of a part that it begins with, and of any text that
begins with that part where the last of them is a closing one
(`exists_tokens_eq_append_iff`). -/

namespace AbstractStore.Json

variable {α β : Type}

/-- Nothing stands behind, or what does begins with the same character. -/
def Follows (rest more : List Char) : Prop := more = [] ∨ more.head? = rest.head?

/-- What is read goes by the characters taken and at most by the one behind them. -/
def Local (read : List Char → Option (α × List Char)) : Prop :=
  ∀ cs a rest, read cs = some (a, rest) → ∃ taken, cs = taken ++ rest ∧
    ∀ more, Follows rest more → read (taken ++ more) = some (a, more)

section Local

variable {f : List Char → Option (α × List Char)} {g : α → List Char → Option (β × List Char)}
  {taken rest more : List Char}

theorem Follows.append (follows : Follows rest more) (taken : List Char) :
    Follows (taken ++ rest) (taken ++ more) := by
  cases taken with
  | nil => exact follows
  | cons c taken => exact .inr rfl

theorem Follows.head_ne (follows : Follows rest more) {c : Char}
    (other : ∀ tail, rest ≠ c :: tail) : ∀ tail, more ≠ c :: tail := by
  rintro tail rfl
  rcases follows with none | same
  · cases none
  · obtain ⟨tail', rfl⟩ := List.head?_eq_some_iff.1 same.symm
    exact other tail' rfl

theorem Local.bind (first : Local f) (next : ∀ a, Local (g a)) :
    Local fun cs => f cs >>= fun p => g p.1 p.2 := by
  intro cs b rest read
  obtain ⟨⟨a, middle⟩, read₁, read₂⟩ := Option.bind_eq_some_iff.1 read
  obtain ⟨taken₁, rfl, again₁⟩ := first cs a middle read₁
  obtain ⟨taken₂, rfl, again₂⟩ := next a middle b rest read₂
  refine ⟨taken₁ ++ taken₂, (List.append_assoc ..).symm, fun more follows => ?_⟩
  rw [List.append_assoc]
  simp [again₁ _ (follows.append taken₂), again₂ more follows]

theorem local_some (a : α) : Local fun cs => some (a, cs) := by
  rintro cs b rest ⟨⟩
  exact ⟨[], rfl, fun more _ => rfl⟩

/-- Characters of a kind are taken up to one of another kind or the end. -/
theorem takeWhile_append_of_follows {p : Char → Bool} {cs : List Char}
    (follows : Follows (cs.dropWhile p) more) :
    (cs.takeWhile p ++ more).takeWhile p = cs.takeWhile p ∧
      (cs.takeWhile p ++ more).dropWhile p = more := by
  have each : ∀ c ∈ cs.takeWhile p, p c = true := List.all_eq_true.1 List.all_takeWhile
  have stops : more.takeWhile p = [] ∧ more.dropWhile p = more := by
    rcases follows with rfl | same
    · exact ⟨rfl, rfl⟩
    cases more with
    | nil => exact ⟨rfl, rfl⟩
    | cons c more =>
      have other := List.head?_dropWhile_not p cs
      rw [← same] at other
      have stopped : p c = false := by simpa using other
      exact ⟨by simp [stopped], by simp [stopped]⟩
  rw [List.takeWhile_append_of_pos each, List.dropWhile_append_of_pos each, stops.1, stops.2,
    List.append_nil]
  exact ⟨rfl, rfl⟩

end Local

namespace Number

/-- The digits in front, if there are any. -/
def someDigits? (cs : List Char) : Option (List Char × List Char) :=
  if cs.takeWhile Decimal.isDigit = [] then none
  else some (cs.takeWhile Decimal.isDigit, cs.dropWhile Decimal.isDigit)

theorem local_someDigits? : Local someDigits? := by
  intro cs part rest read
  obtain ⟨digits, same⟩ := Option.ite_none_left_eq_some.1 read
  cases same
  refine ⟨cs.takeWhile Decimal.isDigit, List.takeWhile_append_dropWhile.symm,
    fun more follows => ?_⟩
  obtain ⟨taken, left⟩ := takeWhile_append_of_follows follows
  rw [someDigits?, taken, left, if_neg digits]

/-- What is made of the digits in front, if there are any. -/
theorem someDigits?_bind (make : List Char → List Char) (cs : List Char) :
    (someDigits? cs >>= fun p => some (make p.1, p.2)) =
      if cs.takeWhile Decimal.isDigit = [] then none
      else some (make (cs.takeWhile Decimal.isDigit), cs.dropWhile Decimal.isDigit) := by
  unfold someDigits?
  by_cases digits : cs.takeWhile Decimal.isDigit = []
  · rw [if_pos digits, if_pos digits]
    rfl
  · rw [if_neg digits, if_neg digits]
    rfl

theorem local_fraction? : Local fraction? := by
  have after_point : Local fun cs => someDigits? cs >>= fun p => some ('.' :: p.1, p.2) :=
    local_someDigits?.bind fun _ => local_some _
  have fraction?_point (cs : List Char) :
      fraction? ('.' :: cs) = someDigits? cs >>= fun p => some ('.' :: p.1, p.2) :=
    (someDigits?_bind ('.' :: ·) cs).symm
  intro cs part rest read
  by_cases point : ∃ tail, cs = '.' :: tail
  · obtain ⟨tail, rfl⟩ := point
    rw [fraction?_point] at read
    obtain ⟨taken, rfl, again⟩ := after_point tail part rest read
    refine ⟨'.' :: taken, rfl, fun more follows => ?_⟩
    rw [List.cons_append, fraction?_point]
    exact again more follows
  · have none (cs : List Char) (other : ∀ tail, cs ≠ '.' :: tail) :
        fraction? cs = some ([], cs) := by
      unfold fraction?
      split
      next tail => exact absurd rfl (other tail)
      next => rfl
    have other : ∀ tail, cs ≠ '.' :: tail := fun tail same => point ⟨tail, same⟩
    cases (none cs other).symm.trans read
    exact ⟨[], rfl, fun more follows => none more (follows.head_ne other)⟩

theorem local_exponentSign : Local fun cs => some (exponentSign cs) := by
  have unsigned (cs : List Char) (noPlus : ∀ tail, cs ≠ '+' :: tail)
      (noMinus : ∀ tail, cs ≠ '-' :: tail) : exponentSign cs = ([], cs) := by
    unfold exponentSign
    split
    next tail => exact absurd rfl (noPlus tail)
    next tail => exact absurd rfl (noMinus tail)
    next => rfl
  intro cs sign rest read
  by_cases plus : ∃ tail, cs = '+' :: tail
  · obtain ⟨tail, rfl⟩ := plus
    cases read
    exact ⟨['+'], rfl, fun _ _ => rfl⟩
  by_cases minus : ∃ tail, cs = '-' :: tail
  · obtain ⟨tail, rfl⟩ := minus
    cases read
    exact ⟨['-'], rfl, fun _ _ => rfl⟩
  have noPlus : ∀ tail, cs ≠ '+' :: tail := fun tail same => plus ⟨tail, same⟩
  have noMinus : ∀ tail, cs ≠ '-' :: tail := fun tail same => minus ⟨tail, same⟩
  cases (congrArg some (unsigned cs noPlus noMinus)).symm.trans read
  exact ⟨[], rfl, fun more follows =>
    congrArg some (unsigned more (follows.head_ne noPlus) (follows.head_ne noMinus))⟩

theorem local_exponent? : Local exponent? := by
  have exponent?_begun {e : Char} (exponential : e = 'e' ∨ e = 'E') (cs : List Char) :
      exponent? (e :: cs) = some (exponentSign cs) >>= fun p =>
        someDigits? p.2 >>= fun q => some (e :: p.1 ++ q.1, q.2) :=
    (if_pos exponential).trans
      (someDigits?_bind (e :: (exponentSign cs).1 ++ ·) (exponentSign cs).2).symm
  have after_begin (e : Char) : Local fun cs => some (exponentSign cs) >>= fun p =>
      someDigits? p.2 >>= fun q => some (e :: p.1 ++ q.1, q.2) :=
    local_exponentSign.bind fun sign => local_someDigits?.bind fun ds =>
      local_some (e :: sign ++ ds)
  intro cs part rest read
  by_cases begun : ∃ e tail, cs = e :: tail ∧ (e = 'e' ∨ e = 'E')
  · obtain ⟨e, tail, rfl, exponential⟩ := begun
    rw [exponent?_begun exponential] at read
    obtain ⟨taken, rfl, again⟩ := after_begin e tail part rest read
    refine ⟨e :: taken, rfl, fun more follows => ?_⟩
    rw [List.cons_append, exponent?_begun exponential]
    exact again more follows
  · have none (cs : List Char) (other : ∀ e tail, (e = 'e' ∨ e = 'E') → cs ≠ e :: tail) :
        exponent? cs = some ([], cs) := by
      unfold exponent?
      split
      next => rfl
      next e tail => exact if_neg fun exponential => other e tail exponential rfl
    have other : ∀ e tail, (e = 'e' ∨ e = 'E') → cs ≠ e :: tail :=
      fun e tail exponential same => begun ⟨e, tail, same, exponential⟩
    cases (none cs other).symm.trans read
    exact ⟨[], rfl, fun more follows => none more fun e tail exponential =>
      follows.head_ne (fun tail => other e tail exponential) tail⟩

theorem local_whole? : Local whole? := by
  intro cs part rest read
  unfold whole? at read
  split at read
  next => cases read
  next c tail =>
    by_cases zero : c = '0'
    · rw [if_pos zero] at read
      cases read
      subst zero
      exact ⟨['0'], rfl, fun _ _ => rfl⟩
    rw [if_neg zero] at read
    obtain ⟨digit, same⟩ := Option.ite_none_right_eq_some.1 read
    cases same
    refine ⟨c :: tail.takeWhile Decimal.isDigit, by simp, fun more follows => ?_⟩
    obtain ⟨taken, left⟩ := takeWhile_append_of_follows follows
    rw [List.cons_append, whole?, if_neg zero, if_pos digit, taken, left]

theorem local_unsigned? (negative : Bool) : Local (unsigned? negative) := by
  let result (whole fraction exponent rest : List Char) : Option (Token × List Char) :=
    let sign := if negative then ['-'] else []
    if fraction ≠ [] ∨ exponent ≠ [] ∨ (negative ∧ whole = ['0']) then
      some (.number (sign ++ whole ++ fraction ++ exponent), rest)
    else
      let size : Int := Decimal.value whole
      some (.integer (if negative then -size else size), rest)
  have local_result (whole fraction exponent : List Char) :
      Local (result whole fraction exponent) := by
    intro cs t rest read
    simp only [result] at read ⊢
    split at read
    next special =>
      cases read
      exact ⟨[], rfl, fun _ _ => if_pos special⟩
    next plain =>
      cases read
      exact ⟨[], rfl, fun _ _ => if_neg plain⟩
  exact local_whole?.bind fun whole => local_fraction?.bind fun fraction =>
    local_exponent?.bind (local_result whole fraction)

theorem unsigned?_eq_none {negative : Bool} {c : Char} (letter : Decimal.isDigit c = false)
    (tail : List Char) : unsigned? negative (c :: tail) = none := by
  have notZero : c ≠ '0' := by
    rintro rfl
    cases letter
  simp [unsigned?, whole?, notZero, letter]

theorem local_read? : Local read? := by
  have unsigned (cs : List Char) (other : ∀ tail, cs ≠ '-' :: tail) :
      read? cs = unsigned? false cs := by
    unfold read?
    split
    next tail => exact absurd rfl (other tail)
    next => rfl
  intro cs t rest read
  by_cases minus : ∃ tail, cs = '-' :: tail
  · obtain ⟨tail, rfl⟩ := minus
    obtain ⟨taken, rfl, again⟩ := local_unsigned? true tail t rest read
    exact ⟨'-' :: taken, rfl, again⟩
  · have other : ∀ tail, cs ≠ '-' :: tail := fun tail same => minus ⟨tail, same⟩
    rw [unsigned cs other] at read
    have shorter := unsigned?_shorter read
    obtain ⟨taken, rfl, again⟩ := local_unsigned? false cs t rest read
    refine ⟨taken, rfl, fun more follows => ?_⟩
    cases taken with
    | nil => exact absurd shorter (Nat.lt_irrefl _)
    | cons c taken =>
      rw [unsigned _ fun tail same => other (taken ++ rest) (by rw [(List.cons.inj same).1]; rfl)]
      exact again more follows

theorem numeral_of_read? {c : Char} {cs rest : List Char} {t : Token}
    (read : read? (c :: cs) = some (t, rest)) : c = '-' ∨ Decimal.isDigit c = true := by
  by_contra neither
  obtain ⟨minus, letter⟩ := not_or.1 neither
  unfold read? at read
  split at read
  next tail same => exact minus (List.cons.inj same).1
  next =>
    rw [unsigned?_eq_none (by simpa using letter)] at read
    cases read

end Number

namespace Quoted

theorem splitClosing_again {cs body rest : List Char}
    (split : splitClosing cs = some (body, rest)) :
    cs = body ++ '"' :: rest ∧ ∀ more, splitClosing (body ++ '"' :: more) = some (body, more) := by
  fun_induction splitClosing cs generalizing body with
  | case1 => cases split
  | case2 =>
    cases split
    exact ⟨rfl, fun _ => rfl⟩
  | case3 c cs ih =>
    obtain ⟨⟨inner, after⟩, found, same⟩ := Option.map_eq_some_iff.1 split
    cases same
    obtain ⟨rfl, again⟩ := ih found
    exact ⟨rfl, fun more => by simp [splitClosing, again more]⟩
  | case4 c cs quote backslash ih =>
    obtain ⟨⟨inner, after⟩, found, same⟩ := Option.map_eq_some_iff.1 split
    cases same
    obtain ⟨rfl, again⟩ := ih found
    -- Something stands behind a backslash here, so it would have been taken with it.
    have noQuote : c ≠ '"' := fun same => quote same
    have noBackslash : c ≠ '\\' := by
      obtain ⟨d, tail, begun⟩ : ∃ d tail, inner ++ '"' :: rest = d :: tail :=
        List.exists_cons_of_ne_nil (by simp)
      exact fun same => backslash d tail same begun
    refine ⟨rfl, fun more => ?_⟩
    rw [List.cons_append, splitClosing_cons noQuote noBackslash, again more]
    rfl

end Quoted

theorem local_quoted? : Local quoted? := by
  intro cs t rest read
  simp only [quoted?, Option.bind_eq_bind, Option.bind_eq_some_iff, Prod.exists] at read
  obtain ⟨body, after, split, pieces, known, result⟩ := read
  obtain ⟨rfl, again⟩ := Quoted.splitClosing_again split
  have ends : after = rest := by split at result <;> cases result <;> rfl
  subst ends
  refine ⟨body ++ ['"'], by simp, fun more _ => ?_⟩
  simp only [quoted?, List.append_assoc, List.singleton_append, again, Option.bind_eq_bind,
    Option.bind_some, known]
  split at result <;> cases result <;> rfl

theorem local_token? : Local token? := by
  intro cs t rest read
  unfold token? at read
  split at read
  case h_7 tail =>
    obtain ⟨taken, rfl, again⟩ := local_quoted? tail t rest read
    exact ⟨'"' :: taken, rfl, again⟩
  case h_11 =>
    have shorter := Number.read?_shorter read
    obtain ⟨taken, rfl, again⟩ := Number.local_read? cs t rest read
    cases taken with
    | nil => exact absurd shorter (Nat.lt_irrefl _)
    | cons c taken =>
      have numeral := Number.numeral_of_read? read
      refine ⟨c :: taken, rfl, fun more follows => ?_⟩
      rw [List.cons_append, token?_of_numeral numeral]
      exact again more follows
  case h_8 =>
    cases read
    exact ⟨['n', 'u', 'l', 'l'], rfl, fun _ _ => rfl⟩
  case h_9 =>
    cases read
    exact ⟨['t', 'r', 'u', 'e'], rfl, fun _ _ => rfl⟩
  case h_10 =>
    cases read
    exact ⟨['f', 'a', 'l', 's', 'e'], rfl, fun _ _ => rfl⟩
  all_goals
    cases read
    exact ⟨[_], rfl, fun _ _ => rfl⟩

namespace Token

/-- Whether the token ends a list or an object. -/
def isClosing : Token → Bool
  | .closeBrace | .closeBracket => true
  | _ => false

def isStray : Token → Bool
  | .stray _ => true
  | _ => false

end Token

theorem isClosing_of_quoted? {cs rest : List Char} {t : Token}
    (read : quoted? cs = some (t, rest)) : t.isClosing = false := by
  simp only [quoted?, Option.bind_eq_bind, Option.bind_eq_some_iff, Prod.exists] at read
  obtain ⟨body, after, -, pieces, -, result⟩ := read
  split at result <;> cases result <;> rfl

theorem isClosing_of_read? {cs rest : List Char} {t : Token}
    (read : Number.read? cs = some (t, rest)) : t.isClosing = false := by
  have unsigned {negative : Bool} {cs : List Char}
      (read : Number.unsigned? negative cs = some (t, rest)) : t.isClosing = false := by
    simp only [Number.unsigned?, Option.bind_eq_bind, Option.bind_eq_some_iff, Prod.exists] at read
    obtain ⟨_, _, -, _, _, -, _, _, -, result⟩ := read
    split at result <;> cases result <;> rfl
  unfold Number.read? at read
  split at read
  next => exact unsigned read
  next => exact unsigned read

/-- A closing token is one character, whatever stands behind it. -/
theorem token?_of_closing {cs rest : List Char} {t : Token} (closing : t.isClosing)
    (read : token? cs = some (t, rest)) :
    ∃ c, cs = c :: rest ∧ ∀ more, token? (c :: more) = some (t, more) := by
  unfold token? at read
  split at read
  case h_2 | h_4 =>
    cases read
    exact ⟨_, rfl, fun _ => rfl⟩
  case h_7 => cases (isClosing_of_quoted? read).symm.trans closing
  case h_11 => cases (isClosing_of_read? read).symm.trans closing
  all_goals
    cases read
    cases closing

section Scan

variable {cs rest : List Char} {t : Token} {v ts : List Token}

theorem scan_of_blank (blank : cs.dropWhile isBlank = []) : scan cs = [] := by
  rw [scan]
  split
  next => rfl
  next c more begun => cases blank.symm.trans begun

theorem scan_of_stray {c : Char} {more : List Char} (begun : cs.dropWhile isBlank = c :: more)
    (missing : token? (c :: more) = none) : scan cs = [.stray (c :: more)] := by
  rw [scan]
  split
  next none => cases none.symm.trans begun
  next begun' =>
    cases begun.symm.trans begun'
    split
    next => rfl
    next found => cases missing.symm.trans found

theorem scan_of_found (found : token? (cs.dropWhile isBlank) = some (t, rest)) :
    scan cs = t :: scan rest := by
  rw [scan]
  split
  next none =>
    rw [none] at found
    cases found
  next begun =>
    rw [begun] at found
    split
    next missing => cases missing.symm.trans found
    next found' =>
      cases found.symm.trans found'
      rfl

/-- Blanks before the first token are of no account. -/
theorem scan_congr {cs' : List Char} (same : cs.dropWhile isBlank = cs'.dropWhile isBlank) :
    scan cs = scan cs' := by
  cases begun : cs.dropWhile isBlank with
  | nil => rw [scan_of_blank begun, scan_of_blank (same ▸ begun)]
  | cons c more =>
    cases found : token? (c :: more) with
    | none => rw [scan_of_stray begun found, scan_of_stray (same ▸ begun) found]
    | some taken =>
      obtain ⟨t, rest⟩ := taken
      rw [← begun] at found
      exact (scan_of_found found).trans (scan_of_found (same ▸ found)).symm

theorem exists_of_scan_eq_cons (real : t.isStray = false) (read : scan cs = t :: ts) :
    ∃ rest, token? (cs.dropWhile isBlank) = some (t, rest) ∧ scan rest = ts := by
  cases begun : cs.dropWhile isBlank with
  | nil => cases (scan_of_blank begun).symm.trans read
  | cons c more =>
    cases found : token? (c :: more) with
    | none =>
      cases (scan_of_stray begun found).symm.trans read
      cases real
    | some taken =>
      obtain ⟨u, rest⟩ := taken
      rw [← begun] at found
      cases (scan_of_found found).symm.trans read
      exact ⟨rest, rfl, rfl⟩

/-- The tokens that a text begins with are all the tokens of a beginning of it. -/
theorem exists_scan_eq_of_append (real : ∀ t ∈ v, t.isStray = false) (read : scan cs = v ++ ts) :
    ∃ pre post, cs = pre ++ post ∧ scan pre = v := by
  induction v generalizing cs with
  | nil => exact ⟨[], cs, rfl, scan_of_blank rfl⟩
  | cons t v ih =>
    obtain ⟨first, later⟩ := List.forall_mem_cons.1 real
    obtain ⟨rest, found, scanned⟩ := exists_of_scan_eq_cons first read
    obtain ⟨pre, post, rfl, all⟩ := ih later scanned
    obtain ⟨taken, split, again⟩ := local_token? _ _ _ found
    have behind : Follows (pre ++ post) pre := by
      cases pre with
      | nil => exact .inl rfl
      | cons c pre => exact .inr rfl
    have unblank := (takeWhile_append_of_follows (split ▸ behind.append taken)).2
    refine ⟨cs.takeWhile isBlank ++ (taken ++ pre), post, ?_, ?_⟩
    · rw [List.append_assoc, List.append_assoc, ← split, List.takeWhile_append_dropWhile]
    · rw [scan_of_found (unblank ▸ again pre behind), all]

/-- What stands behind a closing token does not change the tokens up to it. -/
theorem scan_append {pre : List Char} (post : List Char) (real : ∀ t ∈ scan pre, t.isStray = false)
    (closed : ∀ t ∈ (scan pre).getLast?, t.isClosing) :
    scan (pre ++ post) = scan pre ++ scan post := by
  fun_induction scan pre with
  | case1 cs begun =>
    have blank : (cs ++ post).dropWhile isBlank = post.dropWhile isBlank := by
      rw [List.dropWhile_append, begun]
      rfl
    rw [scan_congr blank]
    rfl
  | case2 cs c more begun missing => cases real _ (List.mem_singleton_self _)
  | case3 cs c more begun t rest found shorter ih =>
    obtain ⟨-, later⟩ := List.forall_mem_cons.1 real
    have longer : token? ((cs ++ post).dropWhile isBlank) = some (t, rest ++ post) := by
      have begun' : (cs ++ post).dropWhile isBlank = c :: more ++ post := by
        rw [List.dropWhile_append, begun]
        rfl
      rw [begun']
      cases rest with
      | nil =>
        have last : scan [] = [] := scan_of_blank rfl
        have closing : t.isClosing := closed t (by rw [last]; rfl)
        obtain ⟨d, split, again⟩ := token?_of_closing closing found
        rw [split]
        exact again _
      | cons d rest =>
        obtain ⟨taken, split, again⟩ := local_token? _ _ _ found
        rw [split, List.append_assoc]
        exact again _ (.inr rfl)
    have last : ∀ u ∈ (scan rest).getLast?, u.isClosing := by
      intro u final
      refine closed u ?_
      rw [List.getLast?_cons, Option.mem_def.1 final]
      rfl
    rw [scan_of_found longer, ih later last]
    rfl

theorem mem_commas {parts : List (List Token)} (inside : t ∈ commas parts) :
    t = .comma ∨ ∃ part ∈ parts, t ∈ part := by
  cases parts with
  | nil => cases inside
  | cons part parts =>
    rw [commas_cons, List.mem_append, List.mem_flatMap] at inside
    rcases inside with first | ⟨next, later, inside⟩
    · exact .inr ⟨part, List.mem_cons_self .., first⟩
    · exact (List.mem_cons.1 inside).imp id fun inside =>
        ⟨next, List.mem_cons_of_mem part later, inside⟩

theorem IsValue.isStray_eq_false (value : IsValue v) : ∀ t ∈ v, t.isStray = false := by
  induction value with
  | @scalar u alone =>
    refine List.forall_mem_singleton.2 ?_
    cases u with
    | stray => cases alone
    | _ => rfl
  | @list items each ih =>
    refine List.forall_mem_cons.2 ⟨rfl, List.forall_mem_append.2 ⟨fun t inside => ?_,
      List.forall_mem_singleton.2 rfl⟩⟩
    rcases mem_commas inside with rfl | ⟨item, there, inside⟩
    · rfl
    · exact ih item there t inside
  | @object entries keys each ih =>
    refine List.forall_mem_cons.2 ⟨rfl, List.forall_mem_append.2 ⟨fun t inside => ?_,
      List.forall_mem_singleton.2 rfl⟩⟩
    rcases mem_commas inside with rfl | ⟨part, there, inside⟩
    · rfl
    obtain ⟨e, entry, rfl⟩ := List.mem_map.1 there
    rcases List.mem_cons.1 inside with rfl | inside
    · have named := keys e entry
      cases key : e.1 with
      | stray => rw [key] at named; cases named
      | _ => rfl
    rcases List.mem_cons.1 inside with rfl | inside
    · rfl
    · exact ih e entry t inside

end Scan

/-- Tokens that end with a closing one stand at the beginning of a text exactly if they are the
tokens of a beginning of it. -/
theorem exists_tokens_eq_append_iff {v : List Token} (real : ∀ t ∈ v, t.isStray = false)
    (closed : ∀ t ∈ v.getLast?, t.isClosing) {text : String} :
    (∃ rest, tokens text = v ++ rest) ↔ ∃ pre post, text = pre ++ post ∧ tokens pre = v := by
  constructor
  · rintro ⟨rest, read⟩
    obtain ⟨pre, post, split, all⟩ := exists_scan_eq_of_append real read
    refine ⟨String.ofList pre, String.ofList post, String.toList_injective ?_, ?_⟩
    · simp [split]
    · rw [tokens, String.toList_ofList, all]
  · rintro ⟨pre, post, rfl, rfl⟩
    refine ⟨tokens post, ?_⟩
    rw [tokens, String.toList_append]
    exact scan_append _ real closed

end AbstractStore.Json
