import Weenix.Warmup.Amounts
/-!
# Written numbers

The last `k` digits of a number, and all its digits, as text; and what `decimal`
says of them.
-/

namespace Weenix.My402Sort

variable {n k : Nat} {str : List Char} {c : Char}

/-! ## Digits -/

theorem isdigit_digitChar (h : n < 10) : isdigit n.digitChar = true := by
  have := Nat.toNat_digitChar_of_lt_ten h
  simp only [isdigit, Bool.and_eq_true, decide_eq_true_eq]
  omega

theorem atoi_digitChar (h : n < 10) : atoi n.digitChar = n := Nat.toNat_digitChar_sub_48_of_lt_ten h

theorem digits_append {str' : List Char} (h : Digits str) (h' : Digits str') : Digits (str ++ str') := by
  intro c hc
  rcases List.mem_append.1 hc with hc | hc
  · exact h c hc
  · exact h' c hc

theorem digits_filter (h : Digits str) : str.filter isdigit = str := List.filter_eq_self.2 h

theorem decimal_append (str str' : List Char) : decimal (str ++ str') = decimal str * 10 ^ str'.length + decimal str' := by
  rw [decimal, decimalFrom, List.foldl_append]
  exact decimalFrom_eq (decimal str)

theorem decimal_digitChar (h : n < 10) : decimal [n.digitChar] = n := by
  rw [decimal_cons, atoi_digitChar h]
  simp [decimal, decimalFrom]

/-! ## The last digits -/

/-- The last `k` digits of `n`. -/
def lowDigits : Nat → Nat → List Char
  | 0, _ => []
  | k + 1, n => lowDigits k (n / 10) ++ [(n % 10).digitChar]

theorem lowDigits_length (k n : Nat) : (lowDigits k n).length = k := by
  induction k generalizing n with
  | zero => rfl
  | succ k ih => rw [lowDigits, List.length_append, ih, List.length_singleton]

theorem lowDigits_digits (k n : Nat) : Digits (lowDigits k n) := by
  induction k generalizing n with
  | zero => exact fun c hc => by cases hc
  | succ k ih =>
    refine digits_append (ih (n / 10)) fun c hc => ?_
    rw [List.mem_singleton.1 hc]
    exact isdigit_digitChar (Nat.mod_lt _ (by decide))

theorem lowDigits_decimal (k n : Nat) : decimal (lowDigits k n) = n % 10 ^ k := by
  induction k generalizing n with
  | zero => rw [pow_zero, Nat.mod_one]; rfl
  | succ k ih =>
    rw [lowDigits, decimal_append, ih, decimal_digitChar (Nat.mod_lt _ (by decide)), List.length_singleton, pow_one, pow_succ,
      Nat.mul_comm (10 ^ k) 10, Nat.mod_mul, Nat.mul_comm 10, Nat.add_comm]

/-- The first of them. -/
theorem lowDigits_cons (k n : Nat) : lowDigits (k + 1) n = (n / 10 ^ k % 10).digitChar :: lowDigits k n := by
  induction k generalizing n with
  | zero => rw [pow_zero, Nat.div_one]; rfl
  | succ k ih => rw [lowDigits, ih, List.cons_append, pow_succ', ← Nat.div_div_eq_div_mul]; rfl

/-! ## All digits -/

theorem toDigits_digits (n : Nat) : Digits (Nat.toDigits 10 n) := by
  induction n using Nat.strongRecOn with
  | _ n ih =>
    rw [Nat.toDigits_eq_if (by decide)]
    split
    next hn => exact fun c hc => List.mem_singleton.1 hc ▸ isdigit_digitChar hn
    next hn =>
      refine digits_append (ih (n / 10) (by omega)) fun c hc => ?_
      rw [List.mem_singleton.1 hc]
      exact isdigit_digitChar (Nat.mod_lt _ (by decide))

theorem toDigits_decimal (n : Nat) : decimal (Nat.toDigits 10 n) = n := by
  induction n using Nat.strongRecOn with
  | _ n ih =>
    rw [Nat.toDigits_eq_if (by decide)]
    split
    next hn => exact decimal_digitChar hn
    next hn =>
      rw [decimal_append, ih (n / 10) (by omega), decimal_digitChar (Nat.mod_lt _ (by decide)), List.length_singleton]
      omega

/-- There are no leading zeros. -/
theorem toDigits_head (h : 0 < n) : ∃ c str, Nat.toDigits 10 n = c :: str ∧ c ≠ '0' := by
  induction n using Nat.strongRecOn with
  | _ n ih =>
    rw [Nat.toDigits_eq_if (by decide)]
    split
    next hn => exact ⟨n.digitChar, [], rfl, fun h0 => by simp at h0; omega⟩
    next hn =>
      obtain ⟨c, str, hstr, hc⟩ := ih (n / 10) (by omega) (by omega)
      exact ⟨c, str ++ [(n % 10).digitChar], by rw [hstr]; rfl, hc⟩

end Weenix.My402Sort
