import Mathlib.Data.List.Basic
import Mathlib.Data.List.Count
import Mathlib.Logic.Function.Basic
/-!
# Counting over a table of lists

`tally f p n` counts the entries of the first `n` rows of a table that meet `p`.
A change of one row is stated as a balance: the old count with what the row has
now equals the new count with what the row had.
-/

namespace Weenix.Lib

variable {α : Type}

def tally (f : Nat → List α) (p : α → Bool) : Nat → Nat
  | 0 => 0
  | n + 1 => tally f p n + (f n).countP p

namespace Tally

variable {f g : Nat → List α} {p q : α → Bool} {n m : Nat}

theorem congr (h : ∀ i < n, (f i).countP p = (g i).countP q) : tally f p n = tally g q n := by
  induction n with
  | zero => rfl
  | succ n ih =>
    simp only [tally]
    rw [ih fun i hi => h i (by omega), h n (Nat.lt_succ_self n)]

/-- A row behind the counted ones does not count. -/
theorem update_ge (l : List α) (hm : n ≤ m) : tally (Function.update f m l) p n = tally f p n := by
  apply congr
  intro i hi
  rw [Function.update_of_ne (by omega)]

theorem update (l : List α) (hm : m < n) :
    tally (Function.update f m l) p n + (f m).countP p = tally f p n + l.countP p := by
  induction n with
  | zero => omega
  | succ n ih =>
    simp only [tally]
    by_cases e : m = n
    · subst e
      rw [update_ge l (Nat.le_refl _), Function.update_self]
      omega
    · rw [Function.update_of_ne (Ne.symm e)]
      have := ih (by omega)
      omega

theorem pos {a : α} (hm : m < n) (ha : a ∈ f m) (hp : p a = true) : 0 < tally f p n := by
  induction n with
  | zero => omega
  | succ n ih =>
    simp only [tally]
    by_cases e : m = n
    · subst e
      have : 0 < (f m).countP p := List.countP_pos_iff.2 ⟨a, ha, hp⟩
      omega
    · have := ih (by omega)
      omega

theorem eq_zero_iff : tally f p n = 0 ↔ ∀ i < n, ∀ a ∈ f i, ¬ p a = true := by
  induction n with
  | zero => simp [tally]
  | succ n ih =>
    simp only [tally, Nat.add_eq_zero_iff, ih, List.countP_eq_zero]
    constructor
    · rintro ⟨h1, h2⟩ i hi
      by_cases e : i = n
      · exact e ▸ h2
      · exact h1 i (by omega)
    · exact fun h => ⟨fun i hi => h i (by omega), h n (Nat.lt_succ_self n)⟩

end Tally

end Weenix.Lib
