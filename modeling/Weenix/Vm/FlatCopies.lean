import Weenix.Vm.FlatAccess
import Weenix.Vm.UserCopies
/-!
# Flat memory across copies

`vmmap_write` goes through the pages of the range in order and changes each one
that is mapped. `Turns` is the rule for its loops. Of a range of two pages at
most, the first of which is mapped, each page gets its part of the buffer.
-/

namespace Weenix.Vm

open Lib Lib.Intervals

variable {C : Config} {E : Env} {s s' t : State} {o m p u n v lo hi count clock : Nat} {a : VmArea} {pr : Proc} {pf : Pframe}
  {held : Nat → Int} {c c' : Cursor} {kmem : Nat → UInt8} {l lm : List VmArea} {J : Nat → State → Cursor → Prop}

/-! ## The loops -/

/-- What keeps `J` from the page number `lo` on to `hi`, where the areas are `lm`. -/
structure Turns (E : Env) (lm : List VmArea) (lo hi count : Nat) (kmem : Nat → UInt8) (J : Nat → State → Cursor → Prop) : Prop where
  skip : ∀ v s c, lo ≤ v → v < hi → (∀ a ∈ lm, ¬ a.Has v) → J v s c → J (v + 1) s c
  turn : ∀ v s s' c c' a, lo ≤ v → v < hi → a ∈ lm → a.Has v → write_pages E a kmem count 1 v s c = some (s', c') →
    J v s c → J (v + 1) s' c'

theorem write_pages_first {k : Nat} (h : write_pages E a kmem count (k + 1) v s c = some (s', c')) :
    ∃ s₁ c₁, write_pages E a kmem count 1 v s c = some (s₁, c₁) ∧ write_pages E a kmem count k (v + 1) s₁ c₁ = some (s', c') := by
  simp only [write_pages, bind, Option.bind_eq_some_iff, Prod.exists] at h ⊢
  obtain ⟨o, ho, s₁, pf, ok, hget, s₂, hdirty, hrest⟩ := h
  exact ⟨_, _, ⟨o, ho, s₁, pf, ok, hget, s₂, hdirty, rfl⟩, hrest⟩

theorem Turns.skips (h : Turns E lm lo hi count kmem J) {k : Nat} : ∀ {v : Nat}, lo ≤ v → v + k ≤ hi →
    (∀ w, v ≤ w → w < v + k → ∀ a ∈ lm, ¬ a.Has w) → J v s c → J (v + k) s c := by
  induction k with
  | zero => exact fun _ _ _ hJ => hJ
  | succ k ih =>
    intro v hlo hhi hnone hJ
    have hJ' := h.skip v s c hlo (by omega) (hnone v le_rfl (by omega)) hJ
    have := ih (show lo ≤ v + 1 by omega) (by omega) (fun w h1 h2 => hnone w (by omega) (by omega)) hJ'
    rwa [Nat.add_right_comm] at this

theorem Turns.pages (h : Turns E lm lo hi count kmem J) (ha : a ∈ lm) {k : Nat} : ∀ {v : Nat} {s : State} {c : Cursor}, lo ≤ v →
    v + k ≤ hi → (∀ w, v ≤ w → w < v + k → a.Has w) → write_pages E a kmem count k v s c = some (s', c') → J v s c → J (v + k) s' c' := by
  induction k with
  | zero =>
    intro v s c _ _ _ hw hJ
    cases hw
    exact hJ
  | succ k ih =>
    intro v s c hlo hhi hhas hw hJ
    obtain ⟨s₁, c₁, hfirst, hrest⟩ := write_pages_first hw
    have hJ' := h.turn v s s₁ c c₁ a hlo (by omega) ha (hhas v le_rfl (by omega)) hfirst hJ
    have := ih (show lo ≤ v + 1 by omega) (by omega) (fun w h1 h2 => hhas w (by omega) (by omega)) hrest hJ'
    rwa [Nat.add_right_comm] at this

/-- The areas still to come are all that have a page from `v` on. -/
theorem Turns.areas (h : Turns E lm lo hi count kmem J) : ∀ {l : List VmArea} {v : Nat} {s : State} {c : Cursor},
    Sorted VmArea.vma_start VmArea.vma_end l → l ⊆ lm → lo ≤ v → v ≤ hi → (∀ a ∈ l, v ≤ max a.vma_start lo) →
    (∀ a ∈ lm, ∀ w, a.Has w → v ≤ w → w < hi → a ∈ l) → write_areas E kmem lo hi count s c l = some s' → J v s c →
      ∃ c', J hi s' c' := by
  intro l
  induction l with
  | nil =>
    intro v s c _ _ hlo hhi _ hall hw hJ
    cases hw
    refine ⟨c, ?_⟩
    rw [← Nat.add_sub_cancel' hhi]
    exact h.skips hlo (by omega) (fun w h1 h2 a ha hv => List.not_mem_nil (hall a ha w hv h1 (by omega))) hJ
  | cons a l ih =>
    intro v s c hsort hsub hlo hhi hfirst hall hw hJ
    obtain ⟨hne, hbehind, hsort'⟩ := sorted_cons.1 hsort
    have hsub' : l ⊆ lm := fun x hx => hsub (List.mem_cons_of_mem a hx)
    -- an area of the range is this one or comes later
    have hrest {w : Nat} {b : VmArea} (hb : b ∈ lm) (hbw : b.Has w) (hvw : v ≤ w) (hwh : w < hi) (hna : ¬ a.Has w) : b ∈ l :=
      (List.mem_cons.1 (hall b hb w hbw hvw hwh)).resolve_left fun e => hna (e ▸ hbw)
    have hin (w : Nat) : a.Has w ↔ a.vma_start ≤ w ∧ w < a.vma_end := Iff.rfl
    have hlater {w : Nat} {b : VmArea} (hb : b ∈ l) (hbw : b.Has w) : a.vma_end ≤ w := (hbehind b hb).trans hbw.1
    have hnone {w : Nat} (hvw : v ≤ w) (hwh : w < hi) (hwa : w < a.vma_start) : ∀ b ∈ lm, ¬ b.Has w := fun b hb hbw => by
      have := hlater (hrest hb hbw hvw hwh (by rw [hin]; omega)) hbw
      omega
    simp only [write_areas, bind] at hw
    split at hw
    next hbefore =>
      refine ih hsort' hsub' hlo hhi (fun b hb => hfirst b (List.mem_cons_of_mem a hb)) (fun b hb w hbw hvw hwh => ?_) hw hJ
      exact hrest hb hbw hvw hwh (by rw [hin]; omega)
    next hafter =>
      split at hw
      next hlast =>
        cases hw
        refine ⟨c, ?_⟩
        rw [← Nat.add_sub_cancel' hhi]
        exact h.skips hlo (by omega) (fun w h1 h2 => hnone h1 (by omega) (by omega)) hJ
      next hin' =>
        simp only [Option.bind_eq_some_iff, Prod.exists] at hw
        obtain ⟨s₁, c₁, hp, hw⟩ := hw
        have hmax : (if a.vma_start ≤ lo then lo else a.vma_start) = max a.vma_start lo := by
          split <;> omega
        have hmin : (if a.vma_end > hi then hi else a.vma_end) = min a.vma_end hi := by
          split <;> omega
        rw [hmax, hmin] at hp
        have hv := hfirst a List.mem_cons_self
        -- up to the first page of the area there is none
        have hJ₁ : J (max a.vma_start lo) s c := by
          rw [← Nat.add_sub_cancel' hv]
          exact h.skips hlo (by omega) (fun w h1 h2 => hnone h1 (by omega) (by omega)) hJ
        have hJ₂ := h.pages (hsub List.mem_cons_self) (by omega) (by omega) (fun w h1 h2 => (hin w).2 (by omega)) hp hJ₁
        rw [Nat.add_sub_cancel' (by omega)] at hJ₂
        refine ih hsort' hsub' (by omega) (by omega) (fun b hb => ?_) (fun b hb w hbw hvw hwh => ?_) hw hJ₂
        · have := hbehind b hb
          omega
        · exact hrest hb hbw (by omega) hwh (by rw [hin]; omega)

theorem Turns.write (h : Turns E (s.vmm_list m) (ADDR_TO_PN u) (1 + ADDR_TO_PN (u + n)) n kmem J) (hL : Layout C s) (hlt : u + n < 2 ^ 32)
    (hw : vmmap_write E s m u kmem n = some s') (hJ : J (ADDR_TO_PN u) s ⟨u, 0, 0⟩) : ∃ c, J (1 + ADDR_TO_PN (u + n)) s' c := by
  have hle : ADDR_TO_PN u ≤ ADDR_TO_PN (u + n) := Nat.div_le_div_right (Nat.le_add_right _ _)
  unfold vmmap_write at hw
  rw [u32_of_lt hlt] at hw
  exact h.areas (hL.areas m).sorted (List.Subset.refl _) le_rfl (by omega) (fun a _ => by omega) (fun a ha _ _ _ _ => ha) hw hJ

/-! ## A turn -/

/-- A turn of the page loop gets the frame of the page and writes in it. -/
theorem write_page_got (hio : ∀ n, E.io n = true) (h : Backing C held s) (hheld : ∀ o, 0 ≤ held o) (ha : a ∈ s.vmm_list m)
    (hw : write_pages E a kmem count 1 v s c = some (s', c')) : ∃ o t pf clock, a.vma_obj = some o ∧ Got s o (a.pagenum v) t pf ∧
      Filled s t ∧ c' = ⟨PN_TO_ADDR (1 + v), c.temp + min (count - c.temp) (PAGE_SIZE - c.vaddr % PAGE_SIZE), c.buf + c.temp⟩ ∧
      s' = t.wrote pf (blit (t.mem pf.pf_addr) (c.vaddr % PAGE_SIZE) (min (count - c.temp) (PAGE_SIZE - c.vaddr % PAGE_SIZE)) kmem
        (c.buf + c.temp)) clock := by
  simp only [write_pages, bind, Option.bind_eq_some_iff, Option.some.injEq, Prod.mk.injEq, Prod.exists] at hw
  obtain ⟨o, ho, t, pf, ok, hget, t', hdirty, rfl, rfl⟩ := hw
  obtain ⟨ob, hob, hops⟩ := (h.hung.areas m a ha o ho).stores
  obtain ⟨b, hb⟩ := h.chains.bottom hob
  have hpos := (Nat.zero_le _).trans_lt (h.area_pos hheld ha ho)
  obtain ⟨t₁, pf₁, ok₁, hget₁, hgot, hfill⟩ := pframe_get_sure hio (a.pagenum v) h.chains h.frames h.idle hb hpos
    (h.bottom_pos hheld hb hpos)
  rw [write_pagenum_eq, hget₁] at hget
  cases hget
  obtain ⟨clock, hdirty₁⟩ := pframe_dirty_sure hio ((h.grown hgot.grown hgot.frames).idle pf hgot.mem)
    (show t.objs pf.pf_obj = some ob by rw [hgot.obj, hgot.grown.objs, hob]) hops
  rw [hdirty₁] at hdirty
  cases hdirty
  refine ⟨o, t, pf, clock, ho, hgot, hfill, rfl, ?_⟩
  simp only [State.setBusy, State.setMem, State.wrote, Function.update_idem]

theorem Mirrored.got (h : Mirrored C held s) (hpr : s.procs p = some pr) (ha : a ∈ s.vmm_list pr.p_vmmap) (hv : a.Has v)
    (ho : a.vma_obj = some o) (hown : s.OwnPage p a v) (hgot : Got s o (a.pagenum v) t pf) (hfill : Filled s t) : Mirrored C held t := by
  have hB := h.backing
  have hE : Entries State.reads t := by
    refine h.entries.grow onChain_reads hB h.owned h.apart hpr ha hv ho hgot.grown hgot.frames hgot.only fun hne => ?_
    obtain ⟨o', ho', hsome⟩ := hown hne
    rwa [Option.some.inj (ho.symm.trans ho')]
  have hhome := h.home ha hv ho
  refine h.grow hgot.grown hfill (fun q hq => (hgot.only q hq).imp_right fun hnew => ?_) t.p_pagedir (h.toLinked.got hgot hE)
    (h.marked.grown onChain_reads h.toPaged hgot.grown hgot.frames) fun q w pte hpte _ => .inl (hgot.grown.pagedir ▸ hpte)
  obtain ⟨hpn, hobj⟩ := hnew
  rw [hpn]
  rcases hobj with e | hb
  · rw [e]
    exact hhome
  · exact hhome.below hB.chains (hB.chains.reaches_bottom hb)

theorem wrote_flat (s : State) (pf : Pframe) (y : Page) (n : Nat) : (s.wrote pf y n).flat = (s.setMem pf.pf_addr y).flat := rfl

theorem Mirrored.wrote (h : Mirrored C held s) (hm : pf ∈ s.pframes) (y : Page) (n : Nat) : Mirrored C held (s.wrote pf y n) := by
  have hd (pg : Nat) (hd : s.pf_dirty pg = true) : Function.update s.pf_dirty pf.pf_addr true pg = true := by
    by_cases e : pg = pf.pf_addr
    · rw [e, Function.update_self]
    · rw [Function.update_of_ne e, hd]
  have hw : Wrote s pf y (s.wrote pf y n) := .mk _ n hd
  exact h.altered hm y _ _ n (h.toLinked.wrote onChain_reads hw).linked (h.marked.wrote hw) hd fun _ => Function.update_self ..

/-- A turn changes the page of the process. -/
theorem Mirrored.write_page (h : Mirrored C held s) (hio : ∀ n, E.io n = true) (hpr : s.procs p = some pr)
    (ha : a ∈ s.vmm_list pr.p_vmmap) (hv : a.Has v) (hown : s.OwnPage p a v)
    (hw : write_pages E a kmem count 1 v s c = some (s', c')) : Mirrored C held s' ∧ s'.spaces = s.spaces ∧
      s'.p_pagedir = s.p_pagedir ∧ (∀ q ∈ s.pframes, q ∈ s'.pframes) ∧
      c' = ⟨PN_TO_ADDR (1 + v), c.temp + min (count - c.temp) (PAGE_SIZE - c.vaddr % PAGE_SIZE), c.buf + c.temp⟩ ∧
      s'.flat = s.flat.change p v fun x => blit x (c.vaddr % PAGE_SIZE) (min (count - c.temp) (PAGE_SIZE - c.vaddr % PAGE_SIZE)) kmem
        (c.buf + c.temp) := by
  obtain ⟨o, t, pf, clock, ho, hgot, hfill, rfl, rfl⟩ := write_page_got hio h.backing h.outside.nonneg ha hw
  have ht := h.got hpr ha hv ho hown hgot hfill
  have hsp := hgot.grown.spaces
  have hpr' : t.procs p = some pr := (congrFun (congrArg Spaces.procs hsp) p).trans hpr
  have ha' : a ∈ t.vmm_list pr.p_vmmap := by rwa [show t.vmm_list = s.vmm_list from congrArg Spaces.vmm_list hsp]
  refine ⟨ht.wrote hgot.mem _ clock, hsp, hgot.grown.pagedir, hgot.grown.frames, rfl, ?_⟩
  rw [wrote_flat, ht.setMem_flat hpr' ha' hv ho hgot.frame fun x => blit x _ _ kmem (c.buf + c.temp),
    h.got_flat hpr ha hv ho hgot hfill, Flat.change_change]
  rfl

/-! ## The copy -/

/-- The range has two pages at most, and the first one is mapped. -/
def CopyFits (s : State) (p u n : Nat) : Prop :=
  u + n < 2 ^ 32 ∧ ADDR_TO_PN (u + n) ≤ ADDR_TO_PN u + 1 ∧ ∀ pr ∈ s.procs p,
    range_perm (s.vmm_list pr.p_vmmap) u n { write := true } = true → ∃ a ∈ s.vmm_list pr.p_vmmap, a.Has (ADDR_TO_PN u)

instance (s : State) (p u n : Nat) : Decidable (CopyFits s p u n) := inferInstanceAs (Decidable (_ ∧ _ ∧ ∀ _ ∈ _, _ → ∃ _ ∈ _, _))

/-- The bytes of a turn are those of the buffer for the page. -/
theorem blit_overlay (h : CursorAt u n v c) (hv : ADDR_TO_PN u ≤ v) (hbuf : c.temp < n → c.buf = 0) (x : Page) :
    blit x (c.vaddr % PAGE_SIZE) (min (n - c.temp) (PAGE_SIZE - c.vaddr % PAGE_SIZE)) kmem (c.buf + c.temp) = overlay u n kmem v x := by
  have ht := h.temp
  funext j
  unfold overlay blit
  by_cases hlt : c.temp < n
  · have ha := h.addr hlt
    rw [hbuf hlt]
    unfold ADDR_TO_PN PAGE_SIZE at *
    have hiff : (c.vaddr % 4096 ≤ j ∧ j < c.vaddr % 4096 + min (n - c.temp) (4096 - c.vaddr % 4096)) ↔
        (j < 4096 ∧ u ≤ v * 4096 + j ∧ v * 4096 + j < u + n) := by omega
    by_cases hj : j < 4096 ∧ u ≤ v * 4096 + j ∧ v * 4096 + j < u + n
    · rw [if_pos hj, if_pos (hiff.2 hj)]
      congr 1
      omega
    · rw [if_neg hj, if_neg fun h => hj (hiff.1 h)]
  · unfold PAGE_SIZE at *
    rw [if_neg (by omega), if_neg (by omega)]

theorem Flat.copied_succ (M : Flat) (hv : ADDR_TO_PN u ≤ v) :
    M.copied p u n kmem (v + 1) = (M.copied p u n kmem v).change p v (overlay u n kmem v) := by
  unfold Flat.copied
  rw [Nat.sub_add_comm hv, List.range'_1_concat, List.foldl_append, Nat.add_sub_cancel' hv]
  rfl

/-- What the turns in front of page `v` have done. -/
structure CopiedTo (C : Config) (held : Nat → Int) (s₀ : State) (p u n : Nat) (kmem : Nat → UInt8) (v : Nat) (s : State) (c : Cursor) :
    Prop where
  mirrored : Mirrored C held s
  spaces : s.spaces = s₀.spaces
  pagedir : s.p_pagedir = s₀.p_pagedir
  frames : ∀ q ∈ s₀.pframes, q ∈ s.pframes
  flat : s.flat = s₀.flat.copied p u n kmem v
  cursor : v ≤ ADDR_TO_PN u + 1 → CursorAt u n v c ∧ (c.temp < n → c.buf = 0)

theorem CopiedTo.turns {s₀ : State} (hio : ∀ n, E.io n = true) (hpr : s₀.procs p = some pr)
    (hmapped : ∃ a ∈ s₀.vmm_list pr.p_vmmap, a.Has (ADDR_TO_PN u)) (hhi : hi ≤ ADDR_TO_PN u + 2)
    (hown : ∀ a ∈ s₀.vmm_list pr.p_vmmap, ∀ v < hi, ADDR_TO_PN u ≤ v → a.Has v → s₀.OwnPage p a v) (hf : Frames s₀) :
    Turns E (s₀.vmm_list pr.p_vmmap) (ADDR_TO_PN u) hi n kmem (CopiedTo C held s₀ p u n kmem) := by
  constructor
  case skip =>
    intro v s c hlo hvhi hnone h
    have hlists : s.vmm_list = s₀.vmm_list := congrArg Spaces.vmm_list h.spaces
    have hprocs : s.procs = s₀.procs := congrArg Spaces.procs h.spaces
    have hslot : s.flat.slot p v = none := by
      rw [flat_slot (hprocs ▸ hpr)]
      exact slots_none (target_none (hlists ▸ hnone))
    refine { h with flat := ?_, cursor := fun hle => ?_ }
    · rw [Flat.copied_succ _ hlo, ← h.flat, Flat.change_none hslot]
    · obtain ⟨a, ha, hv⟩ := hmapped
      exact absurd (show v = ADDR_TO_PN u by omega ▸ hv) (hnone a ha)
  case turn =>
    intro v s s' c c' a hlo hvhi ha hv hw h
    have hlists : s.vmm_list = s₀.vmm_list := congrArg Spaces.vmm_list h.spaces
    have hprocs : s.procs = s₀.procs := congrArg Spaces.procs h.spaces
    have hown' : s.OwnPage p a v := fun hne => by
      rw [h.pagedir] at hne
      obtain ⟨o, ho, hsome⟩ := hown a ha v hvhi hlo hv hne
      obtain ⟨q, hq⟩ := Option.ne_none_iff_exists'.1 hsome
      obtain ⟨hqm, hk⟩ := (frame?_eq_some hf).1 hq
      refine ⟨o, ho, ?_⟩
      rw [(frame?_eq_some h.mirrored.backing.frames).2 ⟨h.frames q hqm, hk⟩]
      simp
    obtain ⟨h', hsp, hpd, hfr, hc', hflat⟩ := h.mirrored.write_page hio (hprocs ▸ hpr) (hlists ▸ ha) hv hown' hw
    obtain ⟨hcur, hbuf⟩ := h.cursor (by omega)
    refine ⟨h', hsp.trans h.spaces, hpd.trans h.pagedir, fun q hq => hfr q (h.frames q hq), ?_, fun hle => ?_⟩
    · rw [hflat, Flat.copied_succ _ hlo, ← h.flat]
      congr 1
      funext x
      exact blit_overlay hcur hlo hbuf x
    · subst hc'
      have hvlo : v = ADDR_TO_PN u := by omega
      have htemp : c.temp = 0 := by
        rw [hcur.temp, hvlo]
        unfold ADDR_TO_PN PAGE_SIZE
        omega
      refine ⟨hcur.turn hlo rfl _, fun hlt => ?_⟩
      show c.buf + c.temp = 0
      have hlt : c.temp + _ < n := hlt
      rw [hbuf (by omega), htemp]

/-- A copy fails, or changes the pages of its range by the bytes of the buffer. -/
theorem Mirrored.copy (h : Mirrored C held s) (hio : ∀ n, E.io n = true) {r : Except Errno Unit} (hown : OwnPages s p u n)
    (hfits : CopyFits s p u n) (hc : copy_to_user E s p u kmem n = some (s', r)) : Mirrored C held s' ∧
      ((r = .error .EFAULT ∧ s'.flat = s.flat) ∨ (r = .ok () ∧ s'.flat = s.flat.copied p u n kmem (1 + ADDR_TO_PN (u + n)))) := by
  rcases Linked.copy_to_user_cases hc with ⟨rfl, rfl⟩ | ⟨pr, hpr, hperm, hw, rfl⟩
  · exact ⟨h, .inl ⟨rfl, rfl⟩⟩
  · obtain ⟨hlt, htwo, hmapped⟩ := hfits
    have hown' := hown pr hpr hperm
    rw [u32_of_lt hlt] at hown'
    have hturns : Turns E (s.vmm_list pr.p_vmmap) (ADDR_TO_PN u) (1 + ADDR_TO_PN (u + n)) n kmem (CopiedTo C held s p u n kmem) :=
      CopiedTo.turns hio hpr (hmapped pr hpr hperm) (by omega) hown' h.backing.frames
    obtain ⟨c, hend⟩ := hturns.write h.backing.layout hlt hw
      ⟨h, rfl, rfl, fun _ hq => hq, by rw [Flat.copied, Nat.sub_self]; rfl, fun _ => ⟨.start u n, fun _ => rfl⟩⟩
    exact ⟨hend.mirrored, .inr ⟨rfl, hend.flat⟩⟩

end Weenix.Vm
