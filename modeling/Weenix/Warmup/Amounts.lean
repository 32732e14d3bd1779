import Weenix.Warmup.My402Sort
import Mathlib.Data.Nat.ModEq
import Mathlib.Tactic.Ring
/-!
# What `read` takes for an amount

The bound on the integer part is tested after the loop that wraps around, so it is
tested modulo `2^64`: `18446744073709551616.00` is read as no money at all.
-/

namespace Weenix.My402Sort

/-- How a line that is not well formed should end. -/
def Rejected {α : Type} (r : Except Stop α) : Prop := ∃ message, r = .error (.exit message)

variable {now amount checkLen : Nat} {str token0 token1 token2 token3 : List Char} {toks token : List (List Char)}
  {buf : List Char}

/-! ## Digits -/

def Digits (str : List Char) : Prop := ∀ c ∈ str, isdigit c = true

instance : DecidablePred Digits := fun str => List.decidableBAll (fun c => isdigit c = true) str

theorem digit_range {c : Char} (h : isdigit c = true) : 48 ≤ c.toNat ∧ c.toNat ≤ 57 := by
  simpa [isdigit] using h

/-- The number that digits write, after those that wrote `n`. -/
def decimalFrom (n : Nat) (str : List Char) : Nat := str.foldl (fun n c => n * 10 + atoi c) n

@[simp] theorem decimalFrom_cons (n : Nat) (c : Char) : decimalFrom n (c :: str) = decimalFrom (n * 10 + atoi c) str := by
  unfold decimalFrom
  rw [List.foldl_cons]

def decimal (str : List Char) : Nat := decimalFrom 0 str

theorem decimalFrom_eq (n : Nat) : decimalFrom n str = n * 10 ^ str.length + decimal str := by
  induction str generalizing n with
  | nil => simp [decimalFrom, decimal]
  | cons c str ih =>
    rw [decimal, decimalFrom_cons, decimalFrom_cons, ih, ih (0 * 10 + atoi c), List.length_cons, pow_succ]
    ring

theorem decimal_cons (c : Char) : decimal (c :: str) = atoi c * 10 ^ str.length + decimal str := by
  rw [decimal, decimalFrom_cons, Nat.zero_mul, Nat.zero_add]
  exact decimalFrom_eq _

theorem decimal_lt (h : Digits str) : decimal str < 10 ^ str.length := by
  induction str with
  | nil => decide
  | cons c str ih =>
    have hc : atoi c ≤ 9 := by
      have := digit_range (h c List.mem_cons_self)
      unfold atoi
      omega
    have hrest := ih fun d hd => h d (List.mem_cons_of_mem _ hd)
    calc decimal (c :: str) = atoi c * 10 ^ str.length + decimal str := decimal_cons c
      _ < atoi c * 10 ^ str.length + 10 ^ str.length := Nat.add_lt_add_left hrest _
      _ = (atoi c + 1) * 10 ^ str.length := by ring
      _ ≤ 10 * 10 ^ str.length := Nat.mul_le_mul_right _ (by omega)
      _ = 10 ^ (c :: str).length := by rw [List.length_cons, pow_succ, Nat.mul_comm]

theorem digit_mod (n m : Nat) (c : Char) : (n % m * 10 + atoi c) % m = (n * 10 + atoi c) % m :=
  ((Nat.mod_modEq n m).mul_right 10).add_right (atoi c)

/-- The arithmetic may wrap around at each digit, or once at the end. -/
theorem decimalFrom_mod (n m : Nat) : decimalFrom (n % m) str % m = decimalFrom n str % m := by
  induction str generalizing n with
  | nil => exact Nat.mod_mod n m
  | cons c str ih =>
    rw [decimalFrom_cons, decimalFrom_cons, ← ih, ← ih (n * 10 + atoi c), digit_mod]

/-! ## The loops over an amount -/

/-- Digits, a point and two digits. -/
structure Written (str units cents : List Char) : Prop where
  text : str = units ++ '.' :: cents
  whole : Digits units
  part : Digits cents
  two : cents.length = 2

theorem point_not_digit : isdigit '.' = false := by decide

/-- Digits before the first point, and what comes after it. -/
theorem point_split {units rest units' rest' : List Char} (h : Digits units) (h' : Digits units')
    (he : units ++ '.' :: rest = units' ++ '.' :: rest') : units = units' ∧ rest = rest' := by
  have hwhole (units rest : List Char) (h : Digits units) : (units ++ '.' :: rest).takeWhile isdigit = units := by
    rw [List.takeWhile_append_of_pos h, List.takeWhile_cons, point_not_digit]
    simp
  have hu : units = units' := by
    rw [← hwhole units rest h, he, hwhole units' rest' h']
  rw [hu] at he
  exact ⟨hu, (List.cons.inj (List.append_cancel_left he)).2⟩

theorem Written.unique {units cents units' cents' : List Char} (h : Written str units cents) (h' : Written str units' cents') :
    units = units' ∧ cents = cents' :=
  point_split h.whole h'.whole (h.text.symm.trans h'.text)

/-- The first loop comes to the point after digits, or says that the amount is not numeric. -/
theorem unitsFrom_cases (amount : Nat) (str : List Char) :
    (∃ units rest, str = units ++ '.' :: rest ∧ Digits units ∧
      unitsFrom (amount % 2 ^ 64) str = .ok (decimalFrom amount units % 2 ^ 64, rest)) ∨
    ((∀ units rest, str = units ++ '.' :: rest → ¬ Digits units) ∧ Rejected (unitsFrom (amount % 2 ^ 64) str)) := by
  induction str generalizing amount with
  | nil => exact .inr ⟨fun units rest h => by simp at h, _, rfl⟩
  | cons c str ih =>
    rw [unitsFrom]
    by_cases hc : c = '.'
    · rw [if_pos hc, hc]
      exact .inl ⟨[], str, rfl, by simp [Digits], rfl⟩
    · rw [if_neg hc]
      by_cases hd : isdigit c = true
      · rw [hd]
        rw [if_neg (by decide), digit_mod]
        rcases ih (amount * 10 + atoi c) with ⟨units, rest, rfl, hunits, hrun⟩ | ⟨hno, hrej⟩
        · refine .inl ⟨c :: units, rest, rfl, ?_, hrun⟩
          rintro d (_ | ⟨_, hmem⟩)
          · exact hd
          · exact hunits d hmem
        · refine .inr ⟨fun units rest h hunits => ?_, hrej⟩
          cases units with
          | nil => exact hc (List.cons.inj h).1
          | cons u units =>
            exact hno units rest (List.cons.inj h).2 fun d hmem => hunits d (List.mem_cons_of_mem _ hmem)
      · rw [Bool.not_eq_true] at hd
        rw [hd]
        refine .inr ⟨fun units rest h hunits => ?_, _, rfl⟩
        cases units with
        | nil => exact hc (List.cons.inj h).1
        | cons u units =>
          have := hunits u List.mem_cons_self
          rw [← (List.cons.inj h).1, hd] at this
          cases this

/-- The second loop goes over digits, or says that the amount is not numeric. -/
theorem centsFrom_eq (amount checkLen : Nat) (str : List Char) :
    (Digits str ∧ centsFrom (amount % 2 ^ 64) checkLen str = .ok (decimalFrom amount str % 2 ^ 64, checkLen + str.length)) ∨
    (¬ Digits str ∧ Rejected (centsFrom (amount % 2 ^ 64) checkLen str)) := by
  induction str generalizing amount checkLen with
  | nil => exact .inl ⟨by simp [Digits], rfl⟩
  | cons c str ih =>
    rw [centsFrom]
    by_cases hd : isdigit c = true
    · rw [hd, if_neg (by decide), digit_mod, decimalFrom_cons, List.length_cons]
      rcases ih (amount * 10 + atoi c) (checkLen + 1) with ⟨hdigits, hrun⟩ | ⟨hno, hrej⟩
      · rw [hrun]
        refine .inl ⟨?_, by rw [Nat.add_assoc, Nat.add_comm 1]⟩
        rintro d (_ | ⟨_, hmem⟩)
        · exact hd
        · exact hdigits d hmem
      · exact .inr ⟨fun h => hno fun d hmem => h d (List.mem_cons_of_mem _ hmem), hrej⟩
    · rw [Bool.not_eq_true] at hd
      rw [hd]
      refine .inr ⟨fun h => ?_, _, rfl⟩
      have := h c List.mem_cons_self
      rw [hd] at this
      cases this

/-- What is accepted, and what is read: the integer part counts modulo `2^64`. -/
theorem readAmount_cases (str : List Char) :
    (∃ units cents, Written str units cents ∧ decimal units % 2 ^ 64 < 10000000 ∧
      readAmount str = .ok (decimal units % 2 ^ 64 * 100 + decimal cents)) ∨
    ((∀ units cents, Written str units cents → 10000000 ≤ decimal units % 2 ^ 64) ∧ Rejected (readAmount str)) := by
  have hstart := unitsFrom_cases 0 str
  rw [Nat.zero_mod] at hstart
  rcases hstart with ⟨units, rest, rfl, hunits, hrun⟩ | ⟨hno, message, hrun⟩
  · have hrun : unitsFrom 0 (units ++ '.' :: rest) = .ok (decimal units % 2 ^ 64, rest) := hrun
    simp only [readAmount, hrun, bind, Except.bind]
    by_cases hlarge : 10000000 ≤ decimal units % 2 ^ 64
    · rw [if_pos hlarge]
      refine .inr ⟨fun units' cents' h => ?_, _, rfl⟩
      obtain ⟨rfl, -⟩ := point_split hunits h.whole h.text
      exact hlarge
    · rw [if_neg hlarge]
      have hcents {units' cents' : List Char} (h : Written (units ++ '.' :: rest) units' cents') : rest = cents' :=
        (point_split hunits h.whole h.text).2
      rcases centsFrom_eq (decimal units) 0 rest with ⟨hrest, hrun⟩ | ⟨hrest, message, hrun⟩
      · rw [hrun, Nat.zero_add]
        by_cases htwo : rest.length = 2
        · have hlt := decimal_lt hrest
          rw [htwo] at hlt
          have hvalue : decimalFrom (decimal units) rest % 2 ^ 64 = decimal units % 2 ^ 64 * 100 + decimal rest := by
            rw [← decimalFrom_mod, decimalFrom_eq, htwo]
            exact Nat.mod_eq_of_lt (by omega)
          simp only [htwo, ne_eq, not_true_eq_false, if_false, hvalue]
          exact .inl ⟨units, rest, ⟨rfl, hunits, hrest, htwo⟩, not_le.1 hlarge, rfl⟩
        · simp only [htwo, ne_eq, not_false_eq_true, if_true]
          exact .inr ⟨fun units' cents' h => absurd (hcents h ▸ h.two) htwo, _, rfl⟩
      · rw [hrun]
        exact .inr ⟨fun units' cents' h => absurd (hcents h ▸ h.part) hrest, _, rfl⟩
  · simp only [readAmount, hrun, bind, Except.bind]
    exact .inr ⟨fun units' cents' h => absurd h.whole (hno units' cents' h.text), _, rfl⟩

/-! ## The tokens of a line -/

theorem tokenFrom_eq (toks token : List (List Char)) (h : token.length ≤ 4) :
    tokenFrom token toks = if token.length + toks.length ≤ 4 then .ok (token ++ toks) else .error (.crash .token) := by
  induction toks generalizing token with
  | nil => simp [tokenFrom, h]
  | cons tok toks ih =>
    rw [tokenFrom, if_neg (by omega)]
    by_cases hlt : token.length < 4
    · rw [if_pos hlt, ih (token ++ [tok]) (by simp; omega)]
      simp only [List.length_append, List.length_cons, List.length_nil, List.append_assoc, List.singleton_append]
      congr 1
      exact propext (by omega)
    · rw [if_neg hlt, if_neg (by simp; omega)]

/-- The type and the time, as `read` checks them. -/
structure Checked (now : Nat) (token0 token1 : List Char) : Prop where
  type : token0 = ['+'] ∨ token0 = ['-']
  length : token1.length ≤ 10
  time : strtoul token1 ≤ now

def transOfTokens (token0 token1 : List Char) (amount : Nat) (token3 : List Char) : Transaction :=
  ⟨if token0 = ['+'] then '+' else '-', (strtoul token1 : Int).bmod (2 ^ 64), amount, token3⟩

theorem readTokens_of_checked (h : Checked now token0 token1) (h3 : token3 ≠ []) :
    readTokens now [token0, token1, token2, token3] =
      (readAmount token2).map fun amount => transOfTokens token0 token1 amount token3 := by
  have htype : ¬ (1 < token0.length ∨ token0 ≠ ['+'] ∧ token0 ≠ ['-']) := by
    rcases h.type with rfl | rfl <;> decide
  have hlen : ¬ token3.length = 0 := fun he => h3 (List.length_eq_zero_iff.1 he)
  simp only [readTokens, if_neg htype, if_neg (not_lt.2 h.length), if_neg (not_not.2 h.time), if_neg hlen, bind]
  cases readAmount token2 <;> rfl

theorem readTokens_unchecked (h : ¬ Checked now token0 token1) : Rejected (readTokens now [token0, token1, token2, token3]) := by
  rw [readTokens]
  by_cases htype : 1 < token0.length ∨ token0 ≠ ['+'] ∧ token0 ≠ ['-']
  · rw [if_pos htype]
    exact ⟨_, rfl⟩
  rw [if_neg htype]
  by_cases hlen : 10 < token1.length
  · rw [if_pos hlen]
    exact ⟨_, rfl⟩
  rw [if_neg hlen]
  by_cases htime : strtoul token1 ≤ now
  · refine absurd ⟨?_, not_lt.1 hlen, htime⟩ h
    tauto
  · simp only [htime, not_false_eq_true, if_true]
    exact ⟨_, rfl⟩

theorem readTokens_length (h : toks.length ≠ 4) : Rejected (readTokens now toks) := by
  match toks, h with
  | [], _ | [_], _ | [_, _], _ | [_, _, _], _ | _ :: _ :: _ :: _ :: _ :: _, _ => exact ⟨_, rfl⟩
  | [_, _, _, _], h => exact absurd rfl h

/-! ## A line -/

/-- The tokens that `read` finds in a line. -/
def fieldsOf (buf : List Char) : List (List Char) := strtok (removespace (cstr buf)).2

/-- No white space stands before the first field. -/
def Flush (buf : List Char) : Prop := (removespace (cstr buf)).1 = 0

instance : DecidablePred Flush := fun buf => inferInstanceAs (Decidable ((removespace (cstr buf)).1 = 0))

theorem fieldsOf_ne_nil {tok : List Char} (h : tok ∈ fieldsOf buf) : tok ≠ [] := by
  rw [fieldsOf, strtok] at h
  simpa using (List.mem_filter.1 h).2

theorem newline_not_flush (h : cstr buf = ['\n']) : ¬ Flush buf := by
  rw [Flush, h]
  decide

theorem readLine_flush (hlen : (cstr buf).length ≤ 1024) (hf : Flush buf) :
    readLine now buf =
      if (fieldsOf buf).length ≤ 4 then (readTokens now (fieldsOf buf)).map some else .error (.crash .token) := by
  have hnl : cstr buf ≠ ['\n'] := fun h => newline_not_flush h hf
  have hf : (removespace (cstr buf)).1 = 0 := hf
  rw [readLine, if_neg hnl, if_neg (not_lt.2 hlen)]
  simp only [hf, ne_eq, not_true_eq_false, if_false, tokenFrom_eq _ [] (by decide), List.length_nil, Nat.zero_add,
    List.nil_append]
  change (if (fieldsOf buf).length ≤ 4 then _ else _ : Except Stop _) >>= _ = _
  by_cases h4 : (fieldsOf buf).length ≤ 4
  · rw [if_pos h4, if_pos h4]
    cases h : readTokens now (fieldsOf buf) with
    | error e =>
      change (readTokens now (fieldsOf buf) >>= _) = _
      rw [h]
      rfl
    | ok t =>
      change (readTokens now (fieldsOf buf) >>= _) = _
      rw [h]
      rfl
  · rw [if_neg h4, if_neg h4]
    rfl

/-- The line has at most 1024 characters and four fields, of which `token2` is the amount and the others are valid.
`strtok` passes over an amount that is empty. -/
structure OtherFields (now : Nat) (buf token2 : List Char) : Prop where
  length : (cstr buf).length ≤ 1024
  flush : Flush buf
  fields : ∃ token0 token1 token3, fieldsOf buf = [token0, token1, token2, token3].filter (fun tok => tok ≠ []) ∧
    token1 ≠ [] ∧ token3 ≠ [] ∧ Checked now token0 token1

theorem OtherFields.readLine (h : OtherFields now buf token2) (h2 : token2 ≠ []) :
    ∃ token0 token1 token3, readLine now buf =
      (readAmount token2).map fun amount => some (transOfTokens token0 token1 amount token3) := by
  obtain ⟨token0, token1, token3, hfields, h1, h3, hchecked⟩ := h.fields
  refine ⟨token0, token1, token3, ?_⟩
  have h0 : token0 ≠ [] := by
    rcases hchecked.type with rfl | rfl <;> decide
  simp only [ne_eq, h0, h1, h2, h3, not_false_eq_true, decide_true, List.filter_cons_of_pos, List.filter_nil] at hfields
  rw [readLine_flush h.length h.flush, hfields, if_pos (by simp), readTokens_of_checked hchecked h3]
  cases readAmount token2 <;> rfl

theorem OtherFields.empty (h : OtherFields now buf []) : Rejected (My402Sort.readLine now buf) := by
  obtain ⟨token0, token1, token3, hfields, -⟩ := h.fields
  have hlen : (fieldsOf buf).length < 4 := by
    have hskip : [token0, token1, [], token3].filter (fun tok => tok ≠ []) =
        [token0, token1, token3].filter fun tok => tok ≠ [] := by
      simp [List.filter_cons]
    rw [hfields, hskip]
    exact Nat.lt_succ_of_le (List.length_filter_le _ _)
  obtain ⟨message, hmessage⟩ : Rejected (readTokens now (fieldsOf buf)) := readTokens_length (by omega)
  refine ⟨message, ?_⟩
  rw [readLine_flush h.length h.flush, if_pos (by omega), hmessage]
  rfl

/-- The amount is accepted when it is digits, a point and two digits, and below ten millions; and what is stored is exact. -/
structure AmountExact (now : Nat) (buf token2 : List Char) : Prop where
  accepted : (∃ t, readLine now buf = .ok (some t)) ↔ ∃ units cents, Written token2 units cents ∧ decimal units < 10000000
  stored : ∀ t units cents, readLine now buf = .ok (some t) → Written token2 units cents →
    t.amount = 100 * decimal units + decimal cents

/-- The amount is read exactly unless an integer part that is too large comes below the bound modulo `2^64`. -/
theorem amount_exact_iff (h : OtherFields now buf token2) :
    AmountExact now buf token2 ↔
      ∀ units cents, Written token2 units cents → decimal units < 10000000 ∨ 10000000 ≤ decimal units % 2 ^ 64 := by
  by_cases h2 : token2 = []
  · subst h2
    obtain ⟨message, hline⟩ := h.empty
    have hno (units cents : List Char) : ¬ Written [] units cents := fun hw => by simpa using hw.text
    refine ⟨fun _ units cents hw => absurd hw (hno units cents), fun _ => ?_⟩
    refine ⟨⟨fun ⟨t, ht⟩ => ?_, fun ⟨units, cents, hw, _⟩ => ?_⟩, ?_⟩
    · cases hline.symm.trans ht
    · exact absurd hw (hno units cents)
    · exact fun t units cents _ hw => absurd hw (hno units cents)
  obtain ⟨token0, token1, token3, hline⟩ := h.readLine h2
  constructor
  · intro hexact units cents hw
    rcases readAmount_cases token2 with ⟨units', cents', hw', hlt, hrun⟩ | ⟨hlarge, -⟩
    · rw [hrun] at hline
      obtain ⟨units'', cents'', hw'', hlt''⟩ := hexact.accepted.1 ⟨_, hline⟩
      obtain ⟨rfl, -⟩ := hw.unique hw''
      exact .inl hlt''
    · exact .inr (hlarge units cents hw)
  · intro hcond
    rcases readAmount_cases token2 with ⟨units, cents, hw, hlt, hrun⟩ | ⟨hlarge, message, hrun⟩
    · have hsmall : decimal units < 10000000 := (hcond units cents hw).resolve_right (not_le.2 hlt)
      rw [hrun] at hline
      refine ⟨⟨fun _ => ⟨units, cents, hw, hsmall⟩, fun _ => ⟨_, hline⟩⟩, fun t units' cents' ht hw' => ?_⟩
      obtain ⟨rfl, rfl⟩ := hw.unique hw'
      cases hline.symm.trans ht
      change decimal units % 2 ^ 64 * 100 + decimal cents = _
      rw [Nat.mod_eq_of_lt (by omega), Nat.mul_comm]
    · rw [hrun] at hline
      refine ⟨⟨fun ⟨t, ht⟩ => ?_, fun ⟨units, cents, hw, hlt⟩ => ?_⟩, fun t units cents ht _ => ?_⟩
      · cases hline.symm.trans ht
      · have := hlarge units cents hw
        have := Nat.mod_le (decimal units) (2 ^ 64)
        omega
      · cases hline.symm.trans ht

/-- A deposit at time 5. -/
def depositLine (token2 : String) : List Char := ("+\t5\t" ++ token2 ++ "\tx\n").toList

theorem twelve_exact : AmountExact 10 (depositLine "12.34") "12.34".toList := by
  have hfields : OtherFields 10 (depositLine "12.34") "12.34".toList := by
    refine ⟨by decide, by decide, ['+'], ['5'], ['x'], by decide, by decide, by decide, by decide, by decide, by decide⟩
  refine (amount_exact_iff hfields).2 fun units cents hw => .inl ?_
  have h12 : Written "12.34".toList ['1', '2'] ['3', '4'] := ⟨by decide, by decide, by decide, by decide⟩
  rw [(hw.unique h12).1]
  decide

/-- An integer part of `2^64` is accepted, and nothing is stored. -/
theorem two_pow_64_not_exact : OtherFields 10 (depositLine "18446744073709551616.00") "18446744073709551616.00".toList ∧
    ¬ AmountExact 10 (depositLine "18446744073709551616.00") "18446744073709551616.00".toList := by
  have hfields : OtherFields 10 (depositLine "18446744073709551616.00") "18446744073709551616.00".toList :=
    ⟨by decide, by decide, ['+'], ['5'], ['x'], by decide +kernel, by decide, by decide, by decide, by decide, by decide⟩
  refine ⟨hfields, fun hexact => ?_⟩
  have hread : readLine 10 (depositLine "18446744073709551616.00") = .ok (some ⟨'+', 5, 0, ['x']⟩) := by decide +kernel
  obtain ⟨units, cents, hw, hlt⟩ := hexact.accepted.1 ⟨_, hread⟩
  have hwritten : Written "18446744073709551616.00".toList "18446744073709551616".toList ['0', '0'] :=
    ⟨by decide, by decide, by decide, by decide⟩
  rw [(hw.unique hwritten).1] at hlt
  revert hlt
  decide

end Weenix.My402Sort
