import Mathlib.Order.Bounds.Basic
import Weenix.Vm.Areas
/-!
# The gap search (`vmmap.c`)

`vmmap_find_range` gives the lowest gap of `npages` pages in user memory, or the
highest, and a negative number when there is none. Each search moves its bound
over an area only when no gap begins, or ends, on the side it leaves.
-/

namespace Weenix.Vm

open Lib Lib.Intervals

variable {C : Config} {m npages s : Nat} {l : List VmArea}

/-- Where `npages` free pages of user memory begin. -/
def Gaps (C : Config) (l : List VmArea) (npages : Nat) : Set Nat :=
  {s | C.low ≤ s ∧ s + npages ≤ C.high ∧ RangeFree l s (s + npages)}

/-- The gap that the search in this direction is for. -/
def FirstGap (C : Config) (l : List VmArea) (npages : Nat) (dir : Dir) (s : Nat) : Prop :=
  match dir with
  | .lohi => IsLeast (Gaps C l npages) s
  | .hilo => IsGreatest (Gaps C l npages) s

theorem FirstGap.gap {dir : Dir} (h : FirstGap C l npages dir s) : s ∈ Gaps C l npages := by
  cases dir with
  | lohi => exact h.1
  | hilo => exact h.1

theorem int32_of_lt {n : Nat} (h : n < 2 ^ 31) : int32 n = n := if_pos h

theorem AreasOk.ends (hok : AreasOk C m l) : ∀ a ∈ l, a.vma_end ≤ C.high ∧ 0 < a.vma_end :=
  fun a ha => ⟨hok.high a ha, Nat.zero_lt_of_lt (hok.sorted.nonempty a ha)⟩

/-! ## Upwards -/

theorem find_range_lohi_pos (hs : ∀ a ∈ l, a.vma_end ≤ C.high ∧ 0 < a.vma_end) :
    ∀ low : Nat, 0 < low → low ≤ C.high → 0 < find_range_lohi C npages low l ∨ find_range_lohi C npages low l = -1 := by
  have hC := C.high_lt
  induction l with
  | nil =>
    intro low h0 hl
    unfold find_range_lohi
    split
    · exact .inr rfl
    · rw [int32_of_lt (by omega)]
      omega
  | cons a l ih =>
    intro low h0 hl
    obtain ⟨ha, hs⟩ := List.forall_mem_cons.1 hs
    unfold find_range_lohi
    split
    · exact ih hs a.vma_end ha.2 ha.1
    · rw [int32_of_lt (by omega)]
      omega

/-- The search from `low` does not pass a gap. -/
theorem find_range_lohi_le (hs : Sorted VmArea.vma_start VmArea.vma_end l) (hh : ∀ a ∈ l, a.vma_end ≤ C.high)
    (h1 : s + npages ≤ C.high) (hf : RangeFree l s (s + npages)) :
    ∀ low : Nat, 0 < low → low ≤ s → (∀ a ∈ l, low ≤ a.vma_start) →
      0 < find_range_lohi C npages low l ∧ find_range_lohi C npages low l ≤ s := by
  have hC := C.high_lt
  induction l with
  | nil =>
    intro low h0 hl _
    unfold find_range_lohi
    rw [u32_of_lt (by omega), if_neg (by omega), int32_of_lt (by omega)]
    omega
  | cons a l ih =>
    intro low h0 hl hlo
    obtain ⟨h2, h3, hs⟩ := sorted_cons.1 hs
    obtain ⟨hfa, hf⟩ := rangeFree_cons.1 hf
    have hla := hlo a (by simp)
    have hah := hh a (by simp)
    unfold find_range_lohi
    rw [usub_of_le hla (by omega)]
    split
    next hshort =>
      -- the gap does not fit below `a`
      have has : a.vma_end ≤ s := by omega
      exact ih hs (fun b hb => hh b (by simp [hb])) hf a.vma_end (by omega) has h3
    next =>
      rw [int32_of_lt (by omega)]
      omega

/-! ## Downwards -/

/-- What is left of `high` is a page number, or negative. -/
theorem find_range_hilo_ne (hn : 0 < npages ∧ npages ≤ 2 ^ 20) (hs : l.Pairwise (fun a b => b.vma_end ≤ a.vma_start))
    (hne : ∀ a ∈ l, a.vma_start < a.vma_end) (hlow : ∀ a ∈ l, C.low ≤ a.vma_start) :
    ∀ high : Nat, high ≤ C.high → (∀ a ∈ l, a.vma_end ≤ high) → find_range_hilo C npages high l ≠ 0 := by
  have hC := C.high_lt
  have h0 := C.low_pos
  induction l with
  | nil =>
    intro high hh _
    unfold find_range_hilo
    split
    · simp
    next hc =>
      unfold usub int32 at *
      split <;> omega
  | cons a l ih =>
    intro high hh hhi
    rw [List.pairwise_cons] at hs
    obtain ⟨hna, hne⟩ := List.forall_mem_cons.1 hne
    obtain ⟨hal, hlow⟩ := List.forall_mem_cons.1 hlow
    have hah := hhi a (by simp)
    unfold find_range_hilo
    rw [usub_of_le hah (by omega)]
    split
    · exact ih hs.2 hne hlow a.vma_start (by omega) hs.1
    next hfits =>
      rw [usub_of_le (by omega) (by omega), int32_of_lt (by omega)]
      omega

/-- The search down from `high` does not pass a gap. -/
theorem le_find_range_hilo (hn : 0 < npages) (hs : l.Pairwise (fun a b => b.vma_end ≤ a.vma_start))
    (hne : ∀ a ∈ l, a.vma_start < a.vma_end) (h1 : C.low ≤ s) (hf : RangeFree l s (s + npages)) :
    ∀ high : Nat, high ≤ C.high → s + npages ≤ high → (∀ a ∈ l, a.vma_end ≤ high) →
      (s : Int) ≤ find_range_hilo C npages high l := by
  have hC := C.high_lt
  induction l with
  | nil =>
    intro high hh hsh _
    unfold find_range_hilo
    rw [usub_of_le (by omega) (by omega), if_neg (by omega), int32_of_lt (by omega)]
    omega
  | cons a l ih =>
    intro high hh hsh hhi
    rw [List.pairwise_cons] at hs
    obtain ⟨hna, hne⟩ := List.forall_mem_cons.1 hne
    obtain ⟨hfa, hf⟩ := rangeFree_cons.1 hf
    have hah := hhi a (by simp)
    unfold find_range_hilo
    rw [usub_of_le hah (by omega)]
    split
    next hshort =>
      -- the gap does not fit above `a`
      have has : s + npages ≤ a.vma_start := by omega
      exact ih hs.2 hne hf a.vma_start (by omega) has hs.1
    next =>
      rw [usub_of_le (by omega) (by omega), int32_of_lt (by omega)]
      omega

/-! ## Both directions -/

/-- A search returns, and its answer is not 0. -/
theorem vmmap_find_range_ne (hok : AreasOk C m l) (hn : 0 < npages ∧ npages ≤ 2 ^ 20) (dir : Dir) :
    ∃ r, vmmap_find_range C l npages dir = some r ∧ r ≠ 0 := by
  have hlow := C.low_pos
  cases dir with
  | lohi =>
    refine ⟨find_range_lohi C npages C.low l, by simp [vmmap_find_range, KASSERT, hn.1], ?_⟩
    have hpos : 0 < find_range_lohi C npages C.low l ∨ _ := find_range_lohi_pos hok.ends C.low hlow C.low_lt.le
    omega
  | hilo =>
    refine ⟨find_range_hilo C npages C.high l.reverse, by simp [vmmap_find_range, KASSERT, hn.1], ?_⟩
    exact find_range_hilo_ne hn (List.pairwise_reverse.2 hok.sorted.apart)
      (fun a ha => hok.sorted.nonempty a (List.mem_reverse.1 ha)) (fun a ha => hok.low a (List.mem_reverse.1 ha)) C.high le_rfl
      fun a ha => hok.high a (List.mem_reverse.1 ha)

/-- No gap is passed. -/
theorem vmmap_find_range_passes (hok : AreasOk C m l) (hn : 0 < npages ∧ npages ≤ 2 ^ 20) {dir : Dir} {r : Int}
    (h : vmmap_find_range C l npages dir = some r) (hs : s ∈ Gaps C l npages) :
    0 < r ∧ (dir = .lohi → r ≤ s) ∧ (dir = .hilo → s ≤ r) := by
  obtain ⟨h1, h2, hf⟩ := hs
  have hlow := C.low_pos
  simp only [vmmap_find_range, bind, Option.bind_eq_some_iff] at h
  obtain ⟨-, -, h⟩ := h
  cases dir with
  | lohi =>
    cases h
    obtain ⟨hpos, hle⟩ := find_range_lohi_le hok.sorted hok.high h2 hf C.low hlow h1 hok.low
    exact ⟨hpos, fun _ => hle, fun e => (by cases e)⟩
  | hilo =>
    cases h
    have hle := le_find_range_hilo hn.1 (List.pairwise_reverse.2 hok.sorted.apart)
      (fun a ha => hok.sorted.nonempty a (List.mem_reverse.1 ha)) h1 (fun a ha => hf a (List.mem_reverse.1 ha)) C.high le_rfl h2
      fun a ha => hok.high a (List.mem_reverse.1 ha)
    exact ⟨by omega, fun e => (by cases e), fun _ => hle⟩

theorem vmmap_find_range_gaps (hok : AreasOk C m l) (hn : 0 < npages ∧ npages ≤ 2 ^ 20) {dir : Dir} {r : Int}
    (h : vmmap_find_range C l npages dir = some r) (hr : 0 < r) : FirstGap C l npages dir r.toNat := by
  have hgap : r.toNat ∈ Gaps C l npages := vmmap_find_range_gap hok hn.2 h hr
  cases dir with
  | lohi =>
    refine ⟨hgap, fun s hs => ?_⟩
    have hle := (vmmap_find_range_passes hok hn h hs).2.1 rfl
    omega
  | hilo =>
    refine ⟨hgap, fun s hs => ?_⟩
    have hle := (vmmap_find_range_passes hok hn h hs).2.2 rfl
    omega

/-- The search gives the first gap in its direction, and a negative number exactly when there is none. -/
theorem vmmap_find_range_first (hok : AreasOk C m l) (hn : 0 < npages ∧ npages ≤ 2 ^ 20) (dir : Dir) :
    ∃ r, vmmap_find_range C l npages dir = some r ∧ (r < 0 ↔ Gaps C l npages = ∅) ∧
      (Gaps C l npages ≠ ∅ → ∃ s : Nat, r = s ∧ FirstGap C l npages dir s) := by
  obtain ⟨r, hr, hne⟩ := vmmap_find_range_ne hok hn dir
  have hpos (h : ¬ r < 0) : FirstGap C l npages dir r.toNat := vmmap_find_range_gaps hok hn hr (by omega)
  have hneg : r < 0 ↔ Gaps C l npages = ∅ := by
    constructor
    · intro hneg
      refine Set.eq_empty_of_forall_notMem fun s hs => ?_
      have := (vmmap_find_range_passes hok hn hr hs).1
      omega
    · intro hempty
      by_contra h
      have := (hpos h).gap
      simp [hempty] at this
  refine ⟨r, hr, hneg, fun hsome => ⟨r.toNat, ?_, hpos fun h => hsome (hneg.1 h)⟩⟩
  have : ¬ r < 0 := fun h => hsome (hneg.1 h)
  omega

/-- An area in the middle of user memory. -/
def middle : VmArea := ⟨0, 0x800, 0x900, 0, {}, {}, some 0, none⟩

theorem middle_ok : AreasOk .stock 0 [middle] :=
  ⟨⟨List.pairwise_singleton _ _, by decide⟩, by decide, by decide, by decide⟩

/-- The last 16 pages of user memory are free. -/
theorem find_range_above : vmmap_find_range .stock [middle] 16 .hilo = some 0xbfff0 ∧
    FirstGap .stock [middle] 16 .hilo 0xbfff0 := by
  obtain ⟨r, hr, hneg, hfirst⟩ := vmmap_find_range_first middle_ok (show 0 < 16 ∧ 16 ≤ 2 ^ 20 by decide) .hilo
  have heval : vmmap_find_range .stock [middle] 16 .hilo = some 0xbfff0 := by decide +kernel
  cases hr.symm.trans heval
  obtain ⟨s, hs, h⟩ := hfirst fun hempty => absurd (hneg.2 hempty) (by decide)
  obtain rfl : s = 0xbfff0 := by omega
  exact ⟨heval, h⟩

end Weenix.Vm
