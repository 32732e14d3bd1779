import Mathlib.Data.List.Nodup
import Mathlib.Data.List.Perm.Basic
import Mathlib.Order.Lattice
/-!
# Exchange sort for distinct keys

A pass takes the front element along the list and exchanges it with each smaller
one. It stops at an element with the same key. Pass after pass the list is sorted,
or two equal keys have met: when there are two, they do.
-/

namespace Weenix.Lib

variable {α β : Type} [LinearOrder β] (key : α → β)

/-- The smallest element, and the others as the exchanges leave them. -/
def exchangePass (x : α) : List α → Option (α × List α)
  | [] => some (x, [])
  | y :: ys =>
    if key y < key x then (exchangePass y ys).map fun z => (z.1, x :: z.2)
    else if key x = key y then none
    else (exchangePass x ys).map fun z => (z.1, y :: z.2)

variable {key}
variable {x z : α} {xs zs l l' : List α}

theorem exchangePass_perm (h : exchangePass key x xs = some (z, zs)) : (z :: zs).Perm (x :: xs) := by
  induction xs generalizing x z zs with
  | nil =>
    cases h
    exact List.Perm.refl _
  | cons y ys ih =>
    rw [exchangePass] at h
    split at h
    · obtain ⟨⟨z', zs'⟩, hpass, he⟩ := Option.map_eq_some_iff.1 h
      cases he
      exact (List.Perm.swap x z' zs').trans ((ih hpass).cons x)
    · split at h
      · cases h
      · obtain ⟨⟨z', zs'⟩, hpass, he⟩ := Option.map_eq_some_iff.1 h
        cases he
        calc (z' :: y :: zs').Perm (y :: z' :: zs') := List.Perm.swap y z' zs'
          List.Perm _ (y :: x :: ys) := (ih hpass).cons y
          List.Perm _ (x :: y :: ys) := List.Perm.swap x y ys

theorem exchangePass_length (h : exchangePass key x xs = some (z, zs)) : zs.length = xs.length := by
  simpa using (exchangePass_perm h).length_eq

/-- What a pass takes to the front is smaller than all the others. -/
theorem exchangePass_lt (h : exchangePass key x xs = some (z, zs)) : ∀ y ∈ zs, key z < key y := by
  -- an element of the list is no smaller than the one in front
  have hle {x z w : α} {xs zs : List α} (hp : (z :: zs).Perm (x :: xs)) (hlt : ∀ y ∈ zs, key z < key y)
      (hw : w ∈ x :: xs) : key z ≤ key w := by
    rcases List.mem_cons.1 (hp.mem_iff.2 hw) with rfl | hmem
    · exact le_refl _
    · exact le_of_lt (hlt w hmem)
  induction xs generalizing x z zs with
  | nil =>
    cases h
    simp
  | cons y ys ih =>
    rw [exchangePass] at h
    split at h
    next hlt =>
      obtain ⟨⟨z', zs'⟩, hpass, he⟩ := Option.map_eq_some_iff.1 h
      cases he
      have hrest := ih hpass
      rintro w (_ | ⟨_, hw⟩)
      · exact lt_of_le_of_lt (hle (exchangePass_perm hpass) hrest List.mem_cons_self) hlt
      · exact hrest w hw
    next hge =>
      split at h
      · cases h
      next hne =>
        obtain ⟨⟨z', zs'⟩, hpass, he⟩ := Option.map_eq_some_iff.1 h
        cases he
        have hrest := ih hpass
        have hlt : key x < key y := lt_of_le_of_ne (not_lt.1 hge) hne
        rintro w (_ | ⟨_, hw⟩)
        · exact lt_of_le_of_lt (hle (exchangePass_perm hpass) hrest List.mem_cons_self) hlt
        · exact hrest w hw

/-- A pass that stops has met two equal keys. -/
theorem exchangePass_none (h : exchangePass key x xs = none) : ¬ ((x :: xs).map key).Nodup := by
  induction xs generalizing x with
  | nil => cases h
  | cons y ys ih =>
    rw [exchangePass] at h
    intro hnd
    split at h
    · have := ih (Option.map_eq_none_iff.1 h)
      exact this ((List.nodup_cons.1 hnd).2)
    · split at h
      next he =>
        rw [List.map_cons, List.map_cons, he] at hnd
        exact (List.nodup_cons.1 hnd).1 List.mem_cons_self
      next =>
        refine ih (Option.map_eq_none_iff.1 h) ?_
        exact hnd.sublist ((List.sublist_cons_self (key y) _).cons_cons (key x))

variable (key) in
/-- Pass after pass, each from the element after the last one. -/
def exchangeSort : List α → Option (List α)
  | [] => some []
  | x :: xs =>
    match _h : exchangePass key x xs with
    | none => none
    | some (z, zs) => (exchangeSort zs).map (z :: ·)
  termination_by l => l.length
  decreasing_by
    rw [exchangePass_length _h]
    exact Nat.lt_succ_self _

theorem exchangeSort_cons_none (h : exchangePass key x xs = none) : exchangeSort key (x :: xs) = none := by
  rw [exchangeSort]
  split
  next => rfl
  next he => rw [h] at he; cases he

theorem exchangeSort_cons_some (h : exchangePass key x xs = some (z, zs)) :
    exchangeSort key (x :: xs) = (exchangeSort key zs).map (z :: ·) := by
  rw [exchangeSort]
  split
  next he => rw [h] at he; cases he
  next he =>
    rw [h] at he
    cases he
    rfl

/-- The result has the same elements, in the order of their keys. -/
theorem exchangeSort_sorts (h : exchangeSort key l = some l') : l'.Perm l ∧ (l'.map key).Pairwise (· < ·) := by
  induction hn : l.length generalizing l l' with
  | zero =>
    obtain rfl := List.length_eq_zero_iff.1 hn
    rw [exchangeSort] at h
    cases h
    exact ⟨List.Perm.refl _, List.Pairwise.nil⟩
  | succ n ih =>
    obtain ⟨x, xs, rfl⟩ := List.exists_cons_of_length_eq_add_one hn
    cases hpass : exchangePass key x xs with
    | none =>
      rw [exchangeSort_cons_none hpass] at h
      cases h
    | some w =>
      obtain ⟨z, zs⟩ := w
      rw [exchangeSort_cons_some hpass] at h
      obtain ⟨rest, hrest, rfl⟩ := Option.map_eq_some_iff.1 h
      have hlen := exchangePass_length hpass
      obtain ⟨hperm, hsorted⟩ := ih hrest (by simp at hn; omega)
      refine ⟨(hperm.cons z).trans (exchangePass_perm hpass), ?_⟩
      rw [List.map_cons, List.pairwise_cons]
      refine ⟨fun k hk => ?_, hsorted⟩
      obtain ⟨y, hy, rfl⟩ := List.mem_map.1 hk
      exact exchangePass_lt hpass y (hperm.mem_iff.1 hy)

/-- The sort comes to its end exactly when the keys are distinct. -/
theorem exchangeSort_isSome_iff : (exchangeSort key l).isSome ↔ (l.map key).Nodup := by
  constructor
  · intro h
    obtain ⟨l', hl'⟩ := Option.isSome_iff_exists.1 h
    obtain ⟨hperm, hsorted⟩ := exchangeSort_sorts hl'
    exact (hperm.map key).nodup_iff.1 (hsorted.imp ne_of_lt)
  · intro hnd
    induction hn : l.length generalizing l with
    | zero =>
      obtain rfl := List.length_eq_zero_iff.1 hn
      rw [exchangeSort]
      rfl
    | succ n ih =>
      obtain ⟨x, xs, rfl⟩ := List.exists_cons_of_length_eq_add_one hn
      cases hpass : exchangePass key x xs with
      | none => exact absurd hnd (exchangePass_none hpass)
      | some w =>
        obtain ⟨z, zs⟩ := w
        rw [exchangeSort_cons_some hpass, Option.isSome_map]
        have hlen := exchangePass_length hpass
        have hnd' := ((exchangePass_perm hpass).map key).nodup_iff.2 hnd
        exact ih (List.nodup_cons.1 hnd').2 (by simp at hn; omega)

end Weenix.Lib
