import Mathlib.Data.List.Perm.Basic
import Mathlib.Order.Lattice
/-!
# Bubble sort with an early exit

A pass takes the largest element to the end, by exchanges of neighbours. The next
pass leaves it there, and a pass without an exchange is the last one.
-/

namespace Weenix.Lib

variable {α β : Type} [LinearOrder β] (key : α → β)

/-- What a pass leaves in front, what it takes to the end, and whether there was an exchange. -/
def bubblePass (x : α) : List α → (List α × α) × Bool
  | [] => (([], x), false)
  | y :: ys =>
    if key y < key x then
      let r := bubblePass x ys
      ((y :: r.1.1, r.1.2), true)
    else
      let r := bubblePass y ys
      ((x :: r.1.1, r.1.2), r.2)

/-- At most `n` passes. -/
def bubbleSort : Nat → List α → List α
  | n + 1, x :: xs =>
    let r := bubblePass key x xs
    (if r.2 then bubbleSort n r.1.1 else r.1.1) ++ [r.1.2]
  | _, l => l

variable {key} {x : α} {xs l : List α}

variable (key) in
theorem bubblePass_perm (x : α) (xs : List α) :
    ((bubblePass key x xs).1.1 ++ [(bubblePass key x xs).1.2]).Perm (x :: xs) := by
  induction xs generalizing x with
  | nil => exact List.Perm.refl _
  | cons y ys ih =>
    rw [bubblePass]
    split
    · exact ((ih x).cons y).trans (List.Perm.swap x y ys)
    · exact (ih y).cons x

theorem bubblePass_length (x : α) (xs : List α) : (bubblePass key x xs).1.1.length = xs.length := by
  simpa using (bubblePass_perm key x xs).length_eq

/-- What a pass takes to the end is no smaller than the others, and than the first. -/
theorem bubblePass_le (x : α) (xs : List α) : ∀ y ∈ x :: xs, key y ≤ key (bubblePass key x xs).1.2 := by
  induction xs generalizing x with
  | nil =>
    intro y hy
    rw [List.mem_singleton.1 hy]
    exact le_refl _
  | cons z ys ih =>
    intro y hy
    rw [bubblePass]
    split
    next hlt =>
      simp only [List.mem_cons] at hy
      rcases hy with rfl | rfl | hy
      · exact ih y y List.mem_cons_self
      · exact hlt.le.trans (ih x x List.mem_cons_self)
      · exact ih x y (List.mem_cons_of_mem x hy)
    next hle =>
      simp only [List.mem_cons] at hy
      rcases hy with rfl | rfl | hy
      · exact (not_lt.1 hle).trans (ih z z List.mem_cons_self)
      · exact ih y y List.mem_cons_self
      · exact ih z y (List.mem_cons_of_mem z hy)

/-- Without an exchange the list is in order. -/
theorem bubblePass_still (x : α) (xs : List α) (h : (bubblePass key x xs).2 = false) :
    (bubblePass key x xs).1.1 ++ [(bubblePass key x xs).1.2] = x :: xs ∧ (x :: xs).Pairwise fun a b => key a ≤ key b := by
  induction xs generalizing x with
  | nil => exact ⟨rfl, List.pairwise_singleton _ _⟩
  | cons y ys ih =>
    rw [bubblePass] at h ⊢
    split at h
    · cases h
    next hle =>
      obtain ⟨hsame, hsorted⟩ := ih y h
      rw [if_neg hle]
      refine ⟨congrArg (x :: ·) hsame, List.pairwise_cons.2 ⟨fun z hz => ?_, hsorted⟩⟩
      rcases List.mem_cons.1 hz with rfl | hz
      · exact not_lt.1 hle
      · exact (not_lt.1 hle).trans ((List.pairwise_cons.1 hsorted).1 z hz)

theorem bubbleSort_perm (n : Nat) (l : List α) : (bubbleSort key n l).Perm l := by
  induction n generalizing l with
  | zero => exact List.Perm.refl l
  | succ n ih =>
    cases l with
    | nil => exact List.Perm.refl _
    | cons x xs =>
      rw [bubbleSort]
      split
      · exact ((ih _).append_right _).trans (bubblePass_perm key x xs)
      · exact bubblePass_perm key x xs

theorem bubbleSort_sorted (n : Nat) (l : List α) (hn : l.length ≤ n) : (bubbleSort key n l).Pairwise fun a b => key a ≤ key b := by
  induction n generalizing l with
  | zero =>
    rw [List.length_eq_zero_iff.1 (Nat.le_zero.1 hn)]
    exact List.Pairwise.nil
  | succ n ih =>
    cases l with
    | nil => exact List.Pairwise.nil
    | cons x xs =>
      rw [bubbleSort]
      split
      next =>
        refine List.pairwise_append.2 ⟨ih _ ?_, List.pairwise_singleton _ _, fun a ha b hb => ?_⟩
        · rw [bubblePass_length]
          exact Nat.le_of_succ_le_succ hn
        · rw [List.mem_singleton.1 hb]
          refine bubblePass_le x xs a ((bubblePass_perm key x xs).mem_iff.1 ?_)
          exact List.mem_append_left _ ((bubbleSort_perm n _).mem_iff.1 ha)
      next hstill =>
        obtain ⟨hsame, hsorted⟩ := bubblePass_still x xs (by simpa using hstill)
        rw [hsame]
        exact hsorted

end Weenix.Lib
