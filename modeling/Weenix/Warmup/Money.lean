import Weenix.Warmup.Decimals
/-!
# Printed money (`PrintList`)

An amount or a balance is printed in 14 characters: its digits from the right, with
a point and commas, and parentheses when it is taken away. The loop over the digits
leaves at position 11 when there is one digit only, and the point is left out.
-/

namespace Weenix.My402Sort

/-! ## What a field says -/

/-- Digits with a comma after every three, from the right, and the number they write. -/
inductive Grouped : List Char → Nat → Prop
  | digits {str : List Char} : Digits str → str ≠ [] → str.length ≤ 3 → (str.length = 1 ∨ str.head? ≠ some '0') →
      Grouped str (decimal str)
  | comma {whole str : List Char} {n : Nat} : Grouped whole n → Digits str → str.length = 3 →
      Grouped (whole ++ ',' :: str) (n * 1000 + decimal str)

/-- The field is `cents` with two decimals, aligned to the right, in parentheses or not. -/
structure Denotes (field : List Char) (cents : Nat) (paren : Bool) : Prop where
  length : field.length = 14
  point : field[10]? = some '.'
  text : ∃ blanks whole units part, Grouped whole units ∧ Digits part ∧ part.length = 2 ∧
    units * 100 + decimal part = cents ∧
    field = (if paren then '(' else ' ') ::
      (List.replicate blanks ' ' ++ (whole ++ '.' :: part) ++ [if paren then ')' else ' '])

/-- What `PrintList` prints as money: the amount of a transaction, or the balance. -/
inductive Money
  | amount (type : Char) (cents : Nat)
  | balance (balanceMain : Int)
  deriving DecidableEq

namespace Money

/-- In cents; what is withdrawn is negative. -/
def value : Money → Int
  | .amount type cents => if type = '+' then cents else -cents
  | .balance balanceMain => balanceMain

/-- A withdrawal, or a negative balance. -/
def paren : Money → Bool
  | .amount type _ => decide (type ≠ '+')
  | .balance balanceMain => decide (balanceMain < 0)

/-- With the end of the column. -/
def printed : Money → List Char
  | .amount type cents => amountField type ((cents : Int).bmod (2 ^ 64))
  | .balance balanceMain => balanceField balanceMain

def field (x : Money) : List Char := x.printed.take 14

end Money

theorem row_printed (ctime : Int → List Char) (balanceMain : Int) (t : Transaction) :
    row ctime balanceMain t = "| ".toList ++ dateField (ctime t.time) ++ " | ".toList ++ descField t.description ++
      " | ".toList ++ (Money.amount t.type t.amount).printed ++ (Money.balance (balanceAfter balanceMain t)).printed := rfl

variable {i k n : Nat} {whole part amt : List Char} {left right : Char} {x : Money}

/-- The digits of the field say the number. -/
theorem Grouped.decimal_eq (h : Grouped whole n) : decimal (whole.filter isdigit) = n := by
  induction h with
  | digits hd => rw [digits_filter hd]
  | @comma whole str n _ hd hlen ih =>
    rw [List.filter_append, List.filter_cons_of_neg (by decide), digits_filter hd, decimal_append, ih, hlen]
    norm_num

/-! ## The loop over the digits -/

theorem digit_char (n : Nat) : Char.ofNat (48 + (n : Int).tmod 10).toNat = (n % 10).digitChar := by
  have hlt : n % 10 < 10 := Nat.mod_lt _ (by decide)
  have hmod : (48 + (n : Int).tmod 10).toNat = 48 + n % 10 := by
    rw [Int.tmod_eq_emod_of_nonneg (Int.natCast_nonneg n)]
    omega
  rw [hmod]
  exact (show ∀ d < 10, Char.ofNat (48 + d) = d.digitChar by decide) _ hlt

/-- The positions from `i + 1` to `i + k` are for digits. -/
def DigitsAt (i k : Nat) : Prop := ∀ p, i < p → p ≤ i + k → p ≠ 10 ∧ p ≠ 6 ∧ p ≠ 2

theorem digitsFrom_digit (h : i + 1 ≠ 10 ∧ i + 1 ≠ 6 ∧ i + 1 ≠ 2) (n : Nat) (amt : List Char) :
    digitsFrom (i + 1) n amt =
      if n < 10 then (i, n.digitChar :: amt) else digitsFrom i (n / 10 : Nat) ((n % 10).digitChar :: amt) := by
  have hdiv : (n : Int).tdiv 10 = (n / 10 : Nat) := by
    rw [Int.tdiv_eq_ediv_of_nonneg (Int.natCast_nonneg n)]
    rfl
  rw [digitsFrom, if_neg h.1, if_neg (by omega), digit_char, hdiv]
  by_cases hn : n < 10
  · rw [if_pos (by omega), if_pos hn, Nat.mod_eq_of_lt hn]
  · rw [if_neg (by omega), if_neg hn]

/-- The number is longer: the loop goes on with what is left of it. -/
theorem digitsFrom_run (h : DigitsAt i k) (hn : 10 ^ k ≤ n) (amt : List Char) :
    digitsFrom (i + k) n amt = digitsFrom i (n / 10 ^ k : Nat) (lowDigits k n ++ amt) := by
  induction k generalizing n amt with
  | zero => rw [pow_zero, Nat.div_one]; rfl
  | succ k ih =>
    have hpow : 1 ≤ 10 ^ k := Nat.one_le_pow _ _ (by decide)
    rw [pow_succ] at hn
    rw [← Nat.add_assoc, digitsFrom_digit (h _ (by omega) (by omega)), if_neg (by omega),
      ih (fun p hp hp' => h p hp (by omega)) ((Nat.le_div_iff_mul_le (by decide)).2 hn), lowDigits, List.append_assoc,
      pow_succ', ← Nat.div_div_eq_div_mul]
    rfl

/-- The number ends: the loop leaves behind its first digit. -/
theorem digitsFrom_stop (h : DigitsAt i k) (hn : n < 10 ^ k) (hk : 0 < k) :
    ∃ j, 0 < j ∧ j ≤ k ∧ n < 10 ^ j ∧ (j = 1 ∨ 10 ^ (j - 1) ≤ n) ∧
      ∀ amt, digitsFrom (i + k) n amt = (i + k - j, lowDigits j n ++ amt) := by
  induction k generalizing n with
  | zero => omega
  | succ k ih =>
    by_cases h10 : n < 10
    · refine ⟨1, Nat.one_pos, by omega, by omega, .inl rfl, fun amt => ?_⟩
      rw [← Nat.add_assoc, digitsFrom_digit (h _ (by omega) (by omega)), if_pos h10, lowDigits, Nat.mod_eq_of_lt h10]
      rfl
    · have hk : k ≠ 0 := by
        rintro rfl
        omega
      rw [pow_succ] at hn
      have hrest : n / 10 < 10 ^ k := Nat.div_lt_of_lt_mul (by omega)
      obtain ⟨j, hj, hjk, hlt, hge, hrun⟩ := ih (fun p hp hp' => h p hp (by omega)) hrest (by omega)
      obtain ⟨j, rfl⟩ : ∃ m, j = m + 1 := ⟨j - 1, by omega⟩
      refine ⟨j + 2, by omega, by omega, ?_, .inr ?_, fun amt => ?_⟩
      · rw [pow_succ]
        omega
      · rw [show j + 2 - 1 = j + 1 by omega, pow_succ]
        rcases hge with hj | hge
        · obtain rfl : j = 0 := by omega
          omega
        · rw [Nat.add_sub_cancel] at hge
          omega
      · have hpos : i + k - (j + 1) = i + k + 1 - (j + 2) := by omega
        have hlow : lowDigits (j + 2) n = lowDigits (j + 1) (n / 10) ++ [(n % 10).digitChar] := rfl
        rw [← Nat.add_assoc, digitsFrom_digit (h _ (by omega) (by omega)), if_neg h10, hrun, hlow, List.append_assoc, hpos]
        rfl

/-! ## The units -/

/-- The positions up to `i` are room for the digits of a number below `bound`, with their commas. -/
def Fills (i bound : Nat) : Prop :=
  ∀ n < bound, ∃ whole, Grouped whole n ∧ whole.length ≤ i ∧
    ∀ amt, digitsFrom i (n : Nat) amt = (i - whole.length, whole ++ amt)

/-- Up to three digits. -/
theorem grouped_lowDigits (hk : 0 < k) (hk3 : k ≤ 3) (hn : n < 10 ^ k) (hhead : k = 1 ∨ 10 ^ (k - 1) ≤ n) :
    Grouped (lowDigits k n) n := by
  obtain ⟨k, rfl⟩ : ∃ m, k = m + 1 := ⟨k - 1, by omega⟩
  have hvalue : decimal (lowDigits (k + 1) n) = n := by rw [lowDigits_decimal, Nat.mod_eq_of_lt hn]
  have hne : lowDigits (k + 1) n ≠ [] := by
    rw [lowDigits_cons]
    simp
  have h := Grouped.digits (lowDigits_digits (k + 1) n) hne (by rw [lowDigits_length]; omega) ?_
  · rwa [hvalue] at h
  · rw [lowDigits_length]
    refine hhead.imp_right fun hge => ?_
    rw [Nat.add_sub_cancel] at hge
    rw [pow_succ, Nat.mul_comm] at hn
    have hone : 0 < n / 10 ^ k := Nat.div_pos hge (Nat.pow_pos (by decide))
    have hlt : n / 10 ^ k < 10 := Nat.div_lt_of_lt_mul (by rwa [Nat.mul_comm])
    rw [lowDigits_cons, Nat.mod_eq_of_lt hlt]
    simp
    omega

theorem fills_one : Fills 1 10 := by
  intro n hn
  obtain ⟨j, hj, hj1, hlt, hge, hrun⟩ := digitsFrom_stop (i := 0) (k := 1) (n := n) (fun p _ _ => by omega) hn Nat.one_pos
  refine ⟨lowDigits j n, grouped_lowDigits hj (by omega) hlt hge, by rw [lowDigits_length]; omega, fun amt => ?_⟩
  rw [lowDigits_length]
  exact hrun amt

/-- Three digits more on the right, behind a comma when there are others before them. -/
theorem fills_step {bound : Nat} (hi : i = 1 ∨ i = 5) (h : Fills i bound) : Fills (i + 4) (1000 * bound) := by
  intro n hn
  have hat : DigitsAt (i + 1) 3 := fun p hp hp' => by omega
  by_cases hsmall : n < 10 ^ 3
  · obtain ⟨j, hj, hj3, hlt, hge, hrun⟩ := digitsFrom_stop hat hsmall (by decide)
    refine ⟨lowDigits j n, grouped_lowDigits hj hj3 hlt hge, by rw [lowDigits_length]; omega, fun amt => ?_⟩
    rw [lowDigits_length]
    exact hrun amt
  · obtain ⟨whole, hgrouped, hlen, hrun⟩ := h (n / 10 ^ 3) (Nat.div_lt_of_lt_mul (by omega))
    have hvalue : n / 10 ^ 3 * 1000 + decimal (lowDigits 3 n) = n := by
      rw [lowDigits_decimal]
      omega
    have hcomma (amt : List Char) : digitsFrom (i + 1) (n / 10 ^ 3 : Nat) amt = digitsFrom i (n / 10 ^ 3 : Nat) (',' :: amt) := by
      rw [digitsFrom, if_neg (by omega), if_pos (by omega)]
    have hwhole := hgrouped.comma (lowDigits_digits 3 n) (lowDigits_length 3 n)
    rw [hvalue] at hwhole
    have hlength : (whole ++ ',' :: lowDigits 3 n).length = whole.length + 4 := by
      rw [List.length_append, List.length_cons, lowDigits_length]
    refine ⟨_, hwhole, by rw [hlength]; omega, fun amt => ?_⟩
    have hpos : i - whole.length = i + 4 - (whole.length + 4) := by omega
    rw [hlength, ← hpos, List.append_assoc, List.cons_append]
    exact ((digitsFrom_run hat (not_lt.1 hsmall) amt).trans (hcomma _)).trans (hrun _)

theorem fills_nine : Fills 9 10000000 := fills_step (.inr rfl) (fills_step (.inl rfl) fills_one)

/-! ## A field -/

theorem cents_at : DigitsAt 10 2 := fun p hp hp' => by omega

/-- From two digits on there is a point before the last two; a single digit stands alone. -/
theorem moneyField_cases (hn : n < 1000000000) (left right : Char) :
    (n < 10 ∧ moneyField left right n = left :: (List.replicate 11 ' ' ++ lowDigits 1 n ++ [right])) ∨
    (10 ≤ n ∧ ∃ whole, Grouped whole (n / 100) ∧ whole.length ≤ 9 ∧
      moneyField left right n = left :: (List.replicate (9 - whole.length) ' ' ++ (whole ++ '.' :: lowDigits 2 n) ++ [right])) := by
  by_cases hsmall : n < 10 ^ 2
  · obtain ⟨j, hj, hj2, hlt, hge, hrun⟩ := digitsFrom_stop cents_at hsmall (by decide)
    have hrun : digitsFrom 12 n [] = (12 - j, lowDigits j n) := by
      rw [← List.append_nil (lowDigits j n)]
      exact hrun []
    obtain rfl | rfl : j = 1 ∨ j = 2 := by omega
    · refine .inl ⟨hlt, ?_⟩
      simp only [moneyField, hrun]
      rfl
    · have hge : 10 ≤ n := by omega
      have hzero : n / 100 = 0 := Nat.div_eq_of_lt hsmall
      refine .inr ⟨hge, ['0'], ?_, by decide, ?_⟩
      · rw [hzero]
        exact grouped_lowDigits (k := 1) (n := 0) Nat.one_pos (by decide) (by decide) (.inl rfl)
      · simp only [moneyField, hrun]
        rfl
  · obtain ⟨whole, hgrouped, hlen, hrun⟩ := fills_nine (n / 100) (by omega)
    have hrun : digitsFrom 12 n [] = (9 - whole.length, whole ++ '.' :: lowDigits 2 n) := by
      rw [← hrun, ← List.append_nil (lowDigits 2 n)]
      exact digitsFrom_run cents_at (not_lt.1 hsmall) []
    have hpos : 9 - whole.length ≠ 10 := by omega
    refine .inr ⟨by omega, whole, hgrouped, hlen, ?_⟩
    simp only [moneyField, hrun, if_neg hpos]

theorem moneyField_length (hn : n < 1000000000) (left right : Char) : (moneyField left right n).length = 14 := by
  rcases moneyField_cases hn left right with ⟨-, h⟩ | ⟨-, whole, -, hlen, h⟩
  · rw [h]
    simp [lowDigits_length]
  · rw [h]
    simp [lowDigits_length]
    omega

namespace Money

theorem amount_natAbs (type : Char) (cents : Nat) : (amount type cents).value.natAbs = cents := by
  change (if type = '+' then (cents : Int) else -cents).natAbs = cents
  split <;> simp

/-- All four branches print the absolute value in the same way. -/
theorem printed_eq (h : x.value.natAbs < 1000000000) : ∃ rest, rest.length = 3 ∧ x.printed =
    moneyField (if x.paren then '(' else ' ') (if x.paren then ')' else ' ') x.value.natAbs ++ rest := by
  cases x with
  | amount type cents =>
    rw [amount_natAbs] at h ⊢
    have hbmod : (cents : Int).bmod (2 ^ 64) = cents := Int.bmod_eq_of_le (by omega) (by omega)
    refine ⟨" | ".toList, rfl, ?_⟩
    change amountField type ((cents : Int).bmod (2 ^ 64)) = _
    rw [hbmod, amountField]
    by_cases htype : type = '+'
    · have hparen : (amount type cents).paren = false := by simp [paren, htype]
      rw [if_pos htype, if_neg (by omega), hparen]
      rfl
    · have hparen : (amount type cents).paren = true := by simp [paren, htype]
      rw [if_neg htype, if_neg (by omega), hparen]
      rfl
  | balance balanceMain =>
    have h : balanceMain.natAbs < 1000000000 := h
    refine ⟨" |\n".toList, rfl, ?_⟩
    change balanceField balanceMain = moneyField _ _ (balanceMain.natAbs : Int) ++ _
    rw [balanceField]
    by_cases hneg : 0 ≤ balanceMain
    · have hparen : (balance balanceMain).paren = false := by simp [paren, hneg]
      rw [if_pos hneg, if_neg (by omega), hparen, Int.natAbs_of_nonneg hneg]
      rfl
    · have hparen : (balance balanceMain).paren = true := by simp [paren]; omega
      have hbal : (balanceMain * (-1)).bmod (2 ^ 64) = balanceMain.natAbs := by
        rw [Int.bmod_eq_of_le (by omega) (by omega)]
        omega
      simp only [if_neg hneg, hbal]
      rw [if_neg (by omega), hparen]
      rfl

theorem field_eq (h : x.value.natAbs < 1000000000) :
    x.field = moneyField (if x.paren then '(' else ' ') (if x.paren then ')' else ' ') x.value.natAbs := by
  obtain ⟨rest, -, hrest⟩ := printed_eq h
  rw [field, hrest]
  exact List.take_left' (moneyField_length h _ _)

/-- What can be read from a field: the number that its digits write, negative in parentheses. -/
def reading (field : List Char) : Int :=
  if field.head? = some '(' then -decimal (field.filter isdigit) else decimal (field.filter isdigit)

theorem filter_field (blanks : Nat) (text : List Char) (hleft : isdigit left = false) (hright : isdigit right = false) :
    (left :: (List.replicate blanks ' ' ++ text ++ [right])).filter isdigit = text.filter isdigit := by
  have hblanks : (List.replicate blanks ' ').filter isdigit = [] := by
    rw [List.filter_eq_nil_iff]
    intro c hc
    rw [List.eq_of_mem_replicate hc]
    decide
  simp [List.filter_append, hleft, hright, hblanks]

theorem moneyField_digits (hn : n < 1000000000) (hleft : isdigit left = false) (hright : isdigit right = false) :
    decimal ((moneyField left right n).filter isdigit) = n := by
  rcases moneyField_cases hn left right with ⟨hlt, h⟩ | ⟨-, whole, hgrouped, -, h⟩
  · rw [h, filter_field _ _ hleft hright, digits_filter (lowDigits_digits 1 n), lowDigits_decimal]
    exact Nat.mod_eq_of_lt hlt
  · rw [h, filter_field _ _ hleft hright, List.filter_append, List.filter_cons_of_neg (by decide),
      digits_filter (lowDigits_digits 2 n), decimal_append, hgrouped.decimal_eq, lowDigits_length, lowDigits_decimal]
    omega

theorem field_reading (h : x.value.natAbs < 1000000000) : reading x.field = x.value := by
  have hleft : isdigit (if x.paren then '(' else ' ') = false := by split <;> decide
  have hright : isdigit (if x.paren then ')' else ' ') = false := by split <;> decide
  have hhead : x.field.head? = some (if x.paren then '(' else ' ') := by
    rw [field_eq h]
    rfl
  have hsign : x.value = if x.paren then -(x.value.natAbs : Int) else x.value.natAbs := by
    cases x with
    | amount type cents =>
      rw [amount_natAbs]
      simp only [value, paren, decide_eq_true_eq, ite_not]
    | balance balanceMain =>
      simp only [value, paren, decide_eq_true_eq]
      omega
  rw [reading, hhead, field_eq h, moneyField_digits h hleft hright]
  rw [hsign]
  cases x.paren <;> simp

/-- The field says the value, and no other value has the same field. -/
structure Exact (x : Money) : Prop where
  denotes : Denotes x.field x.value.natAbs x.paren
  only : ∀ y : Money, y.value.natAbs < 1000000000 → y.field = x.field → y.value = x.value

theorem point_at {pre rest : List Char} (h : pre.length = 10) : (pre ++ '.' :: rest)[10]? = some '.' := by
  rw [List.getElem?_append_right (by omega), h]
  rfl

/-- A value is printed as it should be unless it is less than ten cents. -/
theorem exact_iff (h : x.value.natAbs < 1000000000) : x.Exact ↔ 10 ≤ x.value.natAbs := by
  have hcases := moneyField_cases h (if x.paren then '(' else ' ') (if x.paren then ')' else ' ')
  rw [← field_eq h] at hcases
  constructor
  · intro hexact
    rcases hcases with ⟨-, hfield⟩ | ⟨hge, -⟩
    · -- a blank stands where the point should
      have hpoint := hexact.denotes.point
      rw [hfield] at hpoint
      simp [List.replicate] at hpoint
    · exact hge
  · intro hge
    refine ⟨?_, fun y hy hfield => ?_⟩
    · rcases hcases with ⟨hlt, -⟩ | ⟨-, whole, hgrouped, hlen, hfield⟩
      · omega
      refine ⟨?_, ?_, 9 - whole.length, whole, _, lowDigits 2 x.value.natAbs, hgrouped, lowDigits_digits 2 _,
        lowDigits_length 2 _, ?_, hfield⟩
      · rw [field_eq h, moneyField_length h]
      · have hpre : x.field = (if x.paren then '(' else ' ') :: (List.replicate (9 - whole.length) ' ' ++ whole) ++
            '.' :: (lowDigits 2 x.value.natAbs ++ [if x.paren then ')' else ' ']) := by
          rw [hfield]
          simp
        rw [hpre]
        exact point_at (by simp; omega)
      · rw [lowDigits_decimal]
        omega
    · rw [← field_reading hy, ← field_reading h, hfield]

/-- A withdrawal of seven digits before the point. -/
theorem withdrawal_exact : (amount '-' 123456789).field = "(1,234,567.89)".toList ∧ (amount '-' 123456789).Exact :=
  ⟨by decide +kernel, (exact_iff (by decide)).2 (by decide)⟩

/-- Five cents are read, and printed as a 5. -/
theorem five_cents : readLine 10 (depositLine "0.05") = .ok (some ⟨'+', 5, 5, ['x']⟩) ∧
    (amount '+' 5).field = "            5 ".toList ∧ ¬ (amount '+' 5).Exact := by
  have hfield : (amount '+' 5).field = "            5 ".toList := by decide +kernel
  refine ⟨by decide +kernel, hfield, fun hexact => ?_⟩
  have hpoint := hexact.denotes.point
  rw [hfield] at hpoint
  revert hpoint
  decide

end Money

end Weenix.My402Sort
