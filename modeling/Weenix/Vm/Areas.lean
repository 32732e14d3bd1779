import Weenix.Vm.Vmmap
/-!
# Area lists

`AreasOk C m l` is the representation invariant of the list of map `m`. On such
a list the range check of the source is exact, the gap search returns a gap, and
`vmmap_remove` cuts each area into the `pieces` of it outside the range.
-/

namespace Weenix.Vm

open Lib Lib.Intervals

variable {C : Config}

/-- Sorted, disjoint, non-empty areas inside user memory that know their map. -/
structure AreasOk (C : Config) (m : Nat) (l : List VmArea) : Prop where
  sorted : Sorted VmArea.vma_start VmArea.vma_end l
  low : ∀ a ∈ l, C.low ≤ a.vma_start
  high : ∀ a ∈ l, a.vma_end ≤ C.high
  owner : ∀ a ∈ l, a.vma_vmmap = some m

theorem AreasOk.nil {m : Nat} : AreasOk C m [] := ⟨.nil, by simp, by simp, by simp⟩

/-- The range `[s, e)` meets no area. -/
abbrev RangeFree (l : List VmArea) (s e : Nat) : Prop := Free VmArea.vma_start VmArea.vma_end l s e

theorem rangeFree_cons {a : VmArea} {l : List VmArea} {s e : Nat} :
    RangeFree (a :: l) s e ↔ (a.vma_end ≤ s ∨ e ≤ a.vma_start) ∧ RangeFree l s e := by
  simp [Free]

/-! ## The range check -/

theorem range_empty_from_iff {startvfn endvfn : Nat} (hse : startvfn < endvfn) {l : List VmArea}
    (hs : Sorted VmArea.vma_start VmArea.vma_end l) (hh : ∀ a ∈ l, a.vma_end ≤ C.high) :
    ∀ low : Nat, range_empty_from C startvfn endvfn low l = true ↔
      low ≤ startvfn ∧ endvfn ≤ C.high ∧ RangeFree l startvfn endvfn := by
  induction l with
  | nil => intro low; simp [range_empty_from, Free]; tauto
  | cons a l ih =>
    intro low
    obtain ⟨h1, h2, h3⟩ := sorted_cons.1 hs
    have hah := hh a (by simp)
    have hrest : endvfn ≤ a.vma_start → RangeFree l startvfn endvfn := fun h b hb => by
      have := h2 b hb; omega
    simp only [range_empty_from, rangeFree_cons]
    split
    next hc => simp only [true_iff]; exact ⟨hc.2, by omega, .inr hc.1, hrest hc.1⟩
    next hc =>
      split
      next hd => simp only [Bool.false_eq_true, false_iff]; omega
      next hd =>
        split
        next he => simp only [Bool.false_eq_true, false_iff]; omega
        next he =>
          rw [ih h3 (fun b hb => hh b (by simp [hb]))]
          constructor
          · rintro ⟨h4, h5, h6⟩; exact ⟨by omega, h5, .inl h4, h6⟩
          · rintro ⟨h4, h5, h6 | h6, h7⟩
            · exact ⟨h6, h5, h7⟩
            · omega

/-- The range check decides whether the range is free. -/
theorem vmmap_is_range_empty_eq {m : Nat} {l : List VmArea} (hok : AreasOk C m l) {startvfn npages : Nat} {b : Bool}
    (h : vmmap_is_range_empty C l startvfn npages = some b) :
    (startvfn < u32 (startvfn + npages) ∧ C.low ≤ startvfn ∧ u32 (startvfn + npages) ≤ C.high) ∧
      (b = true ↔ RangeFree l startvfn (u32 (startvfn + npages))) := by
  simp only [vmmap_is_range_empty, bind, Option.bind_eq_some_iff, KASSERT_eq_some, Option.some.injEq] at h
  obtain ⟨-, hk, rfl⟩ := h
  refine ⟨hk, ?_⟩
  rw [range_empty_from_iff hk.1 hok.sorted hok.high]
  exact ⟨fun h => h.2.2, fun h => ⟨hk.2.1, hk.2.2, h⟩⟩

theorem vmmap_is_range_empty_total {lopage npages : Nat} (l : List VmArea) (hn : 0 < npages) (hlow : C.low ≤ lopage)
    (hhigh : lopage + npages ≤ C.high) :
    ∃ b, vmmap_is_range_empty C l lopage npages = some b := by
  have hC := C.high_lt
  have e : u32 (lopage + npages) = lopage + npages := u32_of_lt (by omega)
  unfold vmmap_is_range_empty
  simp [e, KASSERT, hn, hlow, hhigh]

/-- The range is empty exactly when `vmmap_lookup` finds no area for any page of it. -/
theorem vmmap_is_range_empty_lookup {m startvfn npages : Nat} {l : List VmArea} (hok : AreasOk C m l) (hn : 0 < npages)
    (hlow : C.low ≤ startvfn) (hhigh : startvfn + npages ≤ C.high) :
    ∃ b, vmmap_is_range_empty C l startvfn npages = some b ∧
      (b = true ↔ ∀ vfn, startvfn ≤ vfn → vfn < startvfn + npages → vmmap_lookup l vfn = none) := by
  have hC := C.high_lt
  obtain ⟨b, hb⟩ := vmmap_is_range_empty_total l hn hlow hhigh
  have hfree := (vmmap_is_range_empty_eq hok hb).2
  rw [u32_of_lt (by omega)] at hfree
  exact ⟨b, hb, hfree.trans (hok.sorted.free_iff (by omega))⟩

/-- Two areas with a gap of 16 pages between them. -/
def gapped : List VmArea := [⟨0, 0x400, 0x410, 0, {}, {}, some 0, none⟩, ⟨1, 0x420, 0x430, 0, {}, {}, some 0, none⟩]

theorem gapped_ok : AreasOk .stock 0 gapped :=
  ⟨⟨List.pairwise_pair.2 (by decide), by decide⟩, by decide, by decide, by decide⟩

/-- The gap is empty; with one more page it is not. -/
theorem gapped_range_empty :
    (vmmap_is_range_empty .stock gapped 0x410 16 = some true ∧
      ∀ vfn, 0x410 ≤ vfn → vfn < 0x410 + 16 → vmmap_lookup gapped vfn = none) ∧
    vmmap_is_range_empty .stock gapped 0x410 17 = some false ∧
      ¬ ∀ vfn, 0x410 ≤ vfn → vfn < 0x410 + 17 → vmmap_lookup gapped vfn = none := by
  obtain ⟨b, hb, h16⟩ := vmmap_is_range_empty_lookup gapped_ok (show 0 < 16 by decide) (show _ ≤ 0x410 by decide) (by decide)
  obtain ⟨c, hc, h17⟩ := vmmap_is_range_empty_lookup gapped_ok (show 0 < 17 by decide) (show _ ≤ 0x410 by decide) (by decide)
  have hempty : vmmap_is_range_empty .stock gapped 0x410 16 = some true := by decide +kernel
  have hmore : vmmap_is_range_empty .stock gapped 0x410 17 = some false := by decide +kernel
  cases hb.symm.trans hempty
  cases hc.symm.trans hmore
  exact ⟨⟨hb, h16.1 rfl⟩, hc, fun h => absurd (h17.2 h) (by decide)⟩

/-! ## The gap search -/

theorem int32_pos {n : Nat} (hn : n < 2 ^ 32) (h : 0 < int32 n) : n < 2 ^ 31 ∧ (int32 n).toNat = n := by
  unfold int32 at h ⊢
  split at h <;> omega

theorem find_range_lohi_gap {npages : Nat} (hn : npages ≤ 2 ^ 20) {l : List VmArea}
    (hs : Sorted VmArea.vma_start VmArea.vma_end l) (hh : ∀ a ∈ l, a.vma_end ≤ C.high) :
    ∀ low : Nat, low ≤ C.high → (∀ a ∈ l, low ≤ a.vma_start) → 0 < find_range_lohi C npages low l →
      let r := (find_range_lohi C npages low l).toNat
      low ≤ r ∧ r + npages ≤ C.high ∧ RangeFree l r (r + npages) := by
  have hC := C.high_lt
  induction l with
  | nil =>
    intro low hl _ hp
    simp only [find_range_lohi] at hp ⊢
    split at hp
    · omega
    next hc =>
      rw [if_neg hc, (int32_pos (by omega) hp).2]
      rw [u32_of_lt (by omega)] at hc
      exact ⟨le_rfl, by omega, by simp [Free]⟩
  | cons a l ih =>
    intro low hl hlo hp
    obtain ⟨h1, h2, h3⟩ := sorted_cons.1 hs
    have hla := hlo a (by simp)
    have hah := hh a (by simp)
    have e : usub a.vma_start low = a.vma_start - low := usub_of_le hla (by omega)
    simp only [find_range_lohi, e] at hp ⊢
    split at hp
    next hc =>
      rw [if_pos hc]
      obtain ⟨h4, h5, h6⟩ := ih h3 (fun b hb => hh b (by simp [hb])) a.vma_end hah h2 hp
      exact ⟨by omega, h5, rangeFree_cons.2 ⟨.inl h4, h6⟩⟩
    next hc =>
      rw [if_neg hc, (int32_pos (by omega) hp).2]
      refine ⟨le_rfl, by omega, rangeFree_cons.2 ⟨.inr (by omega), fun b hb => .inr ?_⟩⟩
      have := h2 b hb
      omega

/-- Over a list in descending order. -/
theorem find_range_hilo_gap {npages : Nat} (hn : npages ≤ 2 ^ 20) {l : List VmArea}
    (hs : l.Pairwise (fun a b => b.vma_end ≤ a.vma_start)) (hne : ∀ a ∈ l, a.vma_start < a.vma_end)
    (hlow : ∀ a ∈ l, C.low ≤ a.vma_start) :
    ∀ high : Nat, high ≤ C.high → C.low ≤ high → (∀ a ∈ l, a.vma_end ≤ high) → 0 < find_range_hilo C npages high l →
      let r := (find_range_hilo C npages high l).toNat
      C.low ≤ r ∧ r + npages ≤ high ∧ RangeFree l r (r + npages) := by
  have hC := C.high_lt
  induction l with
  | nil =>
    intro high hh hl _ hp
    simp only [find_range_hilo] at hp ⊢
    split at hp
    · omega
    next hc =>
      rw [if_neg hc, (int32_pos (usub_lt _ _) hp).2]
      have := (int32_pos (usub_lt _ _) hp).1
      have e : usub high npages = high - npages ∧ npages ≤ high := by unfold usub at *; omega
      exact ⟨by omega, by omega, by simp [Free]⟩
  | cons a l ih =>
    intro high hh hl hhi hp
    rw [List.pairwise_cons] at hs
    have hna := hne a (by simp)
    have hah := hhi a (by simp)
    have hal := hlow a (by simp)
    have e : usub high a.vma_end = high - a.vma_end := usub_of_le hah (by omega)
    simp only [find_range_hilo, e] at hp ⊢
    split at hp
    next hc =>
      rw [if_pos hc]
      obtain ⟨h4, h5, h6⟩ := ih hs.2 (fun b hb => hne b (by simp [hb])) (fun b hb => hlow b (by simp [hb]))
        a.vma_start (by omega) hal hs.1 hp
      exact ⟨h4, by omega, rangeFree_cons.2 ⟨.inr h5, h6⟩⟩
    next hc =>
      rw [if_neg hc, (int32_pos (usub_lt _ _) hp).2, usub_of_le (by omega) (by omega)]
      refine ⟨by omega, by omega, rangeFree_cons.2 ⟨.inl (by omega), fun b hb => .inl ?_⟩⟩
      have := hs.1 b hb
      omega

/-- A positive answer of the gap search is a gap of `npages` pages in user memory. -/
theorem vmmap_find_range_gap {m : Nat} {l : List VmArea} (hok : AreasOk C m l) {npages : Nat} (hn : npages ≤ 2 ^ 20)
    {dir : Dir} {r : Int} (h : vmmap_find_range C l npages dir = some r) (hr : 0 < r) :
    C.low ≤ r.toNat ∧ r.toNat + npages ≤ C.high ∧ RangeFree l r.toNat (r.toNat + npages) := by
  simp only [vmmap_find_range, bind, Option.bind_eq_some_iff] at h
  obtain ⟨-, -, h⟩ := h
  cases dir with
  | lohi =>
    simp only [Option.some.injEq] at h
    subst h
    exact find_range_lohi_gap hn hok.sorted hok.high C.low C.low_lt.le hok.low hr
  | hilo =>
    simp only [Option.some.injEq] at h
    subst h
    obtain ⟨h1, h2, h3⟩ := find_range_hilo_gap hn (List.pairwise_reverse.2 hok.sorted.apart)
      (fun a ha => hok.sorted.nonempty a (List.mem_reverse.1 ha)) (fun a ha => hok.low a (List.mem_reverse.1 ha))
      C.high le_rfl C.low_lt.le (fun a ha => hok.high a (List.mem_reverse.1 ha)) hr
    exact ⟨h1, h2, fun a ha => h3 a (List.mem_reverse.2 ha)⟩

/-! ## Pieces -/

/-- What `vmmap_remove` of the pages `[lo, fin)` leaves of an area of map `m`,
where `id` is the address of the second half of a split. -/
def pieces (m id lo fin : Nat) (a : VmArea) : List VmArea :=
  if fin < a.vma_end ∧ a.vma_start < lo then
    [a.cutEnd lo, { splitArea id fin a with vma_vmmap := some m }]
  else if lo < a.vma_end ∧ a.vma_start < lo then [a.cutEnd lo]
  else if fin < a.vma_end ∧ a.vma_start < fin then [a.cutStart fin]
  else if a.vma_end ≤ fin ∧ lo ≤ a.vma_start then []
  else [a]

section
variable {m id lo fin : Nat} {a b : VmArea}

/-- Moving the start of an area keeps the pages of its object. -/
theorem pagenum_move (off start fin v : Nat) (h1 : fin ≤ v) (h2 : v < 2 ^ 32) :
    usub (usub (off + fin) start + v) fin = usub (off + v) start := by
  unfold usub; omega

theorem delta_move (off start fin : Nat) (h : fin < 2 ^ 32) :
    usub (usub (off + fin) start) fin = usub off start := by
  unfold usub; omega

/-- What a piece has in common with its area. -/
structure PieceOf (lo fin : Nat) (b a : VmArea) : Prop where
  start_le : a.vma_start ≤ b.vma_start
  le_end : b.vma_end ≤ a.vma_end
  nonempty : b.vma_start < b.vma_end
  outside : b.vma_end ≤ lo ∨ fin ≤ b.vma_start
  prot : b.vma_prot = a.vma_prot
  flags : b.vma_flags = a.vma_flags
  obj : b.vma_obj = a.vma_obj
  delta : b.delta = a.delta
  pagenum : ∀ v, b.Has v → b.pagenum v = a.pagenum v
  off : b.vma_off = usub (a.vma_off + b.vma_start) a.vma_start ∨ b.vma_off = a.vma_off ∧ b.vma_start = a.vma_start

theorem pieceOf_mem (hlf : lo ≤ fin) (hne : a.vma_start < a.vma_end) (hend : a.vma_end < 2 ^ 32)
    (h : b ∈ pieces m id lo fin a) : PieceOf lo fin b a := by
  unfold pieces at h
  split at h
  next hc =>
    simp only [List.mem_cons, List.not_mem_nil, or_false] at h
    rcases h with rfl | rfl
    · exact ⟨le_rfl, by simp only [VmArea.cutEnd_end]; omega, hc.2, .inl le_rfl, rfl, rfl, rfl, rfl, fun _ _ => rfl, .inr ⟨rfl, rfl⟩⟩
    · refine ⟨by simp only [splitArea]; omega, le_rfl, hc.1, .inr le_rfl, rfl, rfl, rfl, ?_, ?_, .inl rfl⟩
      · exact delta_move _ _ _ (by omega)
      · intro v hv
        simp only [VmArea.Has, splitArea] at hv
        exact pagenum_move _ _ _ _ hv.1 (by omega)
  next hc =>
    split at h
    next hd =>
      simp only [List.mem_cons, List.not_mem_nil, or_false] at h
      subst h
      exact ⟨le_rfl, hd.1.le, hd.2, .inl le_rfl, rfl, rfl, rfl, rfl, fun _ _ => rfl, .inr ⟨rfl, rfl⟩⟩
    next hd =>
      split at h
      next he =>
        simp only [List.mem_cons, List.not_mem_nil, or_false] at h
        subst h
        refine ⟨he.2.le, le_rfl, he.1, .inr le_rfl, rfl, rfl, rfl, ?_, ?_, .inl rfl⟩
        · exact delta_move _ _ _ (by omega)
        · intro v hv
          simp only [VmArea.Has, VmArea.cutStart_start, VmArea.cutStart_end] at hv
          exact pagenum_move _ _ _ _ hv.1 (by omega)
      next he =>
        split at h
        · simp at h
        next hf =>
          simp only [List.mem_cons, List.not_mem_nil, or_false] at h
          subst h
          exact ⟨le_rfl, le_rfl, hne, by omega, rfl, rfl, rfl, rfl, fun _ _ => rfl, .inr ⟨rfl, rfl⟩⟩

/-- The pages of the area outside the range are in its pieces. -/
theorem pieces_complete {v : Nat} (hv : a.Has v) (hout : v < lo ∨ fin ≤ v) :
    ∃ b ∈ pieces m id lo fin a, b.Has v := by
  simp only [VmArea.Has] at hv
  unfold pieces
  split
  · rcases hout with h | h
    · exact ⟨a.cutEnd lo, by simp, hv.1, h⟩
    · exact ⟨{ splitArea id fin a with vma_vmmap := some m }, by simp, h, hv.2⟩
  · split
    · exact ⟨a.cutEnd lo, by simp, hv.1, by rw [VmArea.cutEnd_end]; omega⟩
    · split
      · exact ⟨a.cutStart fin, by simp,
          by rw [VmArea.cutStart_start]; omega, hv.2⟩
      · split
        · omega
        · exact ⟨a, by simp, hv⟩

theorem pieces_sorted (hlf : lo ≤ fin) (hne : a.vma_start < a.vma_end) :
    Sorted VmArea.vma_start VmArea.vma_end (pieces m id lo fin a) := by
  unfold pieces
  split
  next hc =>
    refine ⟨by simpa [splitArea] using hlf, ?_⟩
    simp only [List.mem_cons, List.not_mem_nil, or_false]
    rintro b (rfl | rfl)
    · exact hc.2
    · exact hc.1
  · split
    next hd => exact ⟨by simp, by simpa using hd.2⟩
    · split
      next he => exact ⟨by simp, by simpa using he.1⟩
      · split
        · exact .nil
        · exact ⟨by simp, by simpa using hne⟩

theorem pieces_owner (ha : a.vma_vmmap = some m) (h : b ∈ pieces m id lo fin a) : b.vma_vmmap = some m := by
  unfold pieces at h
  split at h
  · simp only [List.mem_cons, List.not_mem_nil, or_false] at h
    rcases h with rfl | rfl
    · exact ha
    · rfl
  · split at h
    · simp only [List.mem_singleton] at h; subst h; exact ha
    · split at h
      · simp only [List.mem_singleton] at h; subst h; exact ha
      · split at h
        · simp at h
        · simp only [List.mem_singleton] at h; subst h; exact ha

/-- The addresses of the pieces: that of the area, and the new one for a split. -/
theorem pieces_ids : (pieces m id lo fin a).map (·.vma_id) =
    if fin < a.vma_end ∧ a.vma_start < lo then [a.vma_id, id]
    else if a.vma_end ≤ fin ∧ lo ≤ a.vma_start then [] else [a.vma_id] := by
  unfold pieces
  split
  · rfl
  · split
    · rw [if_neg (by omega)]; rfl
    · split
      · rw [if_neg (by omega)]; rfl
      · split <;> rfl

/-- An area behind the range stays whole. -/
theorem pieces_behind (hlf : lo ≤ fin) (hne : a.vma_start < a.vma_end) (h : fin ≤ a.vma_start) :
    pieces m id lo fin a = [a] := by
  unfold pieces
  rw [if_neg (by omega), if_neg (by omega), if_neg (by omega), if_neg (by omega)]

end

theorem AreasOk.pieces {m id lo fin : Nat} (hlf : lo ≤ fin) {l : List VmArea} (hok : AreasOk C m l) :
    AreasOk C m (l.flatMap (Vm.pieces m id lo fin)) := by
  have hC := C.high_lt
  have hp : ∀ a ∈ l, ∀ b ∈ Vm.pieces m id lo fin a, PieceOf lo fin b a := fun a ha b hb => by
    have := hok.high a ha
    exact pieceOf_mem hlf (hok.sorted.nonempty a ha) (by omega) hb
  refine ⟨hok.sorted.flatMap _ fun a ha => ⟨pieces_sorted hlf (hok.sorted.nonempty a ha), fun b hb => ?_⟩,
    fun b hb => ?_, fun b hb => ?_, fun b hb => ?_⟩
  · exact ⟨(hp a ha b hb).start_le, (hp a ha b hb).le_end⟩
  all_goals obtain ⟨a, ha, hb⟩ := List.mem_flatMap.1 hb
  · exact (hok.low a ha).trans (hp a ha b hb).start_le
  · exact (hp a ha b hb).le_end.trans (hok.high a ha)
  · exact pieces_owner (hok.owner a ha) hb

/-- Replacing one area by areas inside it. -/
theorem AreasOk.replace {m : Nat} {pre l q : List VmArea} {a : VmArea} (hok : AreasOk C m (pre ++ a :: l))
    (hq : Sorted VmArea.vma_start VmArea.vma_end q)
    (hin : ∀ b ∈ q, a.vma_start ≤ b.vma_start ∧ b.vma_end ≤ a.vma_end ∧ b.vma_vmmap = some m) :
    AreasOk C m (pre ++ q ++ l) := by
  obtain ⟨hs1, hs2, hs3⟩ := sorted_append.1 hok.sorted
  obtain ⟨-, h2, h3⟩ := sorted_cons.1 hs2
  have hmem : ∀ b ∈ pre ++ q ++ l, b ∈ q ∨ b ∈ pre ++ a :: l := fun b hb => by
    simp only [List.mem_append, List.mem_cons] at hb ⊢; tauto
  have ha : a ∈ pre ++ a :: l := by simp
  refine ⟨sorted_append.2 ⟨sorted_append.2 ⟨hs1, hq, fun b hb c hc => ?_⟩, h3, fun b hb c hc => ?_⟩, fun b hb => ?_,
    fun b hb => ?_, fun b hb => ?_⟩
  · exact (hs3 b hb a (by simp)).trans (hin c hc).1
  · rcases List.mem_append.1 hb with hb | hb
    · exact hs3 b hb c (by simp [hc])
    · exact (hin b hb).2.1.trans (h2 c hc)
  all_goals rcases hmem b hb with hb | hb
  · exact (hok.low a ha).trans (hin b hb).1
  · exact hok.low b hb
  · exact (hin b hb).2.1.trans (hok.high a ha)
  · exact hok.high b hb
  · exact (hin b hb).2.2
  · exact hok.owner b hb

/-- Removing a range frees it. -/
theorem rangeFree_pieces {m id lo fin : Nat} (hlf : lo ≤ fin) {l : List VmArea} (hok : AreasOk C m l) :
    RangeFree (l.flatMap (Vm.pieces m id lo fin)) lo fin := by
  have hC := C.high_lt
  intro b hb
  obtain ⟨a, ha, hb⟩ := List.mem_flatMap.1 hb
  have := hok.high a ha
  exact (pieceOf_mem hlf (hok.sorted.nonempty a ha) (by omega) hb).outside

/-- A new area in a free range. -/
theorem AreasOk.insert {m : Nat} {l : List VmArea} (hok : AreasOk C m l) {x : VmArea} (hne : x.vma_start < x.vma_end)
    (hlow : C.low ≤ x.vma_start) (hhigh : x.vma_end ≤ C.high) (howner : x.vma_vmmap = some m)
    (hfree : RangeFree l x.vma_start x.vma_end) :
    AreasOk C m (insertBefore VmArea.vma_start VmArea.vma_end x l) := by
  refine ⟨hok.sorted.insertBefore hne hfree, fun b hb => ?_, fun b hb => ?_, fun b hb => ?_⟩
  all_goals rcases mem_insertBefore.1 hb with rfl | hb
  · exact hlow
  · exact hok.low b hb
  · exact hhigh
  · exact hok.high b hb
  · exact howner
  · exact hok.owner b hb

/-! ## One area among others -/

section
variable {pre l : List VmArea} {a : VmArea} (hnd : ((pre ++ a :: l).map (·.vma_id)).Nodup)
include hnd

theorem ids_apart : (∀ b ∈ pre, b.vma_id ≠ a.vma_id) ∧ ∀ b ∈ l, b.vma_id ≠ a.vma_id := by
  rw [List.map_append, List.nodup_append, List.map_cons, List.nodup_cons] at hnd
  obtain ⟨-, ⟨h1, -⟩, h2⟩ := hnd
  refine ⟨fun b hb => h2 _ (List.mem_map_of_mem hb) _ (by simp), fun b hb he => h1 ?_⟩
  rw [← he]
  exact List.mem_map_of_mem hb

/-- Changing the area with the address of `a` changes `a` only. -/
theorem map_at_id (f : VmArea → VmArea) :
    (pre ++ a :: l).map (fun x => if x.vma_id = a.vma_id then f x else x) = pre ++ f a :: l := by
  obtain ⟨h1, h2⟩ := ids_apart hnd
  have hid : ∀ q : List VmArea, (∀ b ∈ q, b.vma_id ≠ a.vma_id) →
      q.map (fun x => if x.vma_id = a.vma_id then f x else x) = q := fun q hq => by
    conv_rhs => rw [← List.map_id q]
    exact List.map_congr_left fun b hb => by simp [hq b hb]
  rw [List.map_append, List.map_cons, if_pos rfl, hid pre h1, hid l h2]

theorem filter_at_id : (pre ++ a :: l).filter (fun x => decide (x.vma_id ≠ a.vma_id)) = pre ++ l := by
  obtain ⟨h1, h2⟩ := ids_apart hnd
  rw [List.filter_append, List.filter_cons_of_neg (by simp), List.filter_eq_self.2 (by simpa using h1),
    List.filter_eq_self.2 (by simpa using h2)]

end

end Weenix.Vm
