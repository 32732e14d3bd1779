import Mathlib.Data.Nat.Find
import Mathlib.Tactic.Common
/-!
# Searching numbers in a circle

The numbers below `n` from `s` on, and from 0 again after the last one. A search
that goes on by one is back at `s` when it has been at all of them.
-/

namespace Weenix.Lib.Circle

variable {n s k : Nat}

/-- The number `k` places after `s`. -/
def place (n s k : Nat) : Nat := (s + k) % n

theorem place_zero (hs : s < n) : place n s 0 = s := Nat.mod_eq_of_lt hs

theorem place_lt (hs : s < n) (k : Nat) : place n s k < n := Nat.mod_lt _ (by omega)

theorem place_succ (n s k : Nat) : (place n s k + 1) % n = place n s (k + 1) := by
  rw [place, place, Nat.mod_add_mod, Nat.add_assoc]

theorem place_eq (hs : s < n) (hk : k ≤ n) : place n s k = if s + k < n then s + k else s + k - n := by
  unfold place
  split
  next hlt => exact Nat.mod_eq_of_lt hlt
  next hge => rw [Nat.mod_eq_sub_mod (by omega), Nat.mod_eq_of_lt (by omega)]

/-- The search is back where it began after `n` places, and not before. -/
theorem place_back (hs : s < n) (hk : k < n) : place n s (k + 1) = s ↔ k + 1 = n := by
  rw [place_eq hs hk]
  split <;> omega

theorem place_ne (hs : s < n) (hk : k + 1 < n) : place n s (k + 1) ≠ s := by
  rw [ne_eq, place_back hs (Nat.lt_of_succ_lt hk)]
  exact Nat.ne_of_lt hk

theorem exists_place (hs : s < n) {x : Nat} (hx : x < n) : ∃ k, k < n ∧ place n s k = x := by
  by_cases h : s ≤ x
  · refine ⟨x - s, by omega, ?_⟩
    rw [place_eq hs (by omega), if_pos (by omega)]
    omega
  · refine ⟨x + n - s, by omega, ?_⟩
    rw [place_eq hs (by omega), if_neg (by omega)]
    omega

/-- Every number is taken, or there is a first place with one that is not. -/
theorem search (hs : s < n) (taken : Nat → Prop) :
    (∀ x < n, taken x) ∨ ∃ k, k < n ∧ ¬ taken (place n s k) ∧ ∀ j < k, taken (place n s j) := by
  classical
  by_cases hfree : ∃ k, k < n ∧ ¬ taken (place n s k)
  · obtain ⟨hlt, hnot⟩ := Nat.find_spec hfree
    refine .inr ⟨Nat.find hfree, hlt, hnot, fun j hj => ?_⟩
    by_contra hjnot
    exact Nat.find_min hfree hj ⟨by omega, hjnot⟩
  · refine .inl fun x hx => ?_
    obtain ⟨k, hk, rfl⟩ := exists_place hs hx
    by_contra hnot
    exact hfree ⟨k, hk, hnot⟩

end Weenix.Lib.Circle
