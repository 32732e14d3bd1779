import Weenix.Vm.EntryRuns
import Weenix.Vm.FileMap
/-!
# Entries of pages that are taken away

Freeing or cleaning a page leaves no entry for it exactly when the page is
traced (`freed_unmapped_iff`). The map of a process that `fork` made belongs to
no process, as far as `pframe_remove_from_pts` can tell, so what such a process
has mapped stays mapped when it is freed.
-/

namespace Weenix.Vm

open Lib Lib.Intervals

variable {C : Config} {E : Env} {R : FrameRel} {s s' : State} {p v m : Nat} {a c : VmArea} {pr : Proc} {pf : Pframe}
  {pte : Pte} {ids : List Nat} {held : Nat → Int}

/-- No entry maps the physical page. -/
def State.Unmapped (s : State) (pg : Nat) : Prop := ∀ p v pte, s.p_pagedir p v = some pte → pte.pt_page ≠ pg

/-- The page the pageout daemon looks at is traced. -/
def TracedTurn (s : State) : Event → Prop
  | .pageout => ∀ pf ∈ s.victim, s.Traced pf
  | e => e.Sane

instance (s : State) (e : Event) : Decidable (TracedTurn s e) :=
  decidable_of_iff (e.Sane ∧ ((e matches .pageout) → ∀ pf ∈ s.victim, s.Traced pf)) (by cases e <;> simp [TracedTurn, Event.Sane])

theorem TracedTurn.sane {e : Event} (h : TracedTurn s e) : e.Sane := by
  cases e with
  | pageout => trivial
  | _ => exact h

/-! ## What is not found -/

/-- The page an area on the list is unmapped at lies in the area. -/
theorem vpage_has (hL : Layout C s) (ha : a ∈ s.vmm_list m) {pn : Nat} (h1 : a.vma_off ≤ pn)
    (h2 : pn < u32 (a.vma_off + usub a.vma_end a.vma_start)) :
    a.Has (ADDR_TO_PN (PN_TO_ADDR (usub (a.vma_start + pn) a.vma_off))) := by
  have hok := hL.areas m
  have hC := C.high_lt
  have hlt := hok.sorted.nonempty a ha
  have hhigh := hok.high a ha
  rw [usub_of_le hlt.le (by omega)] at h2
  have hoff : usub (a.vma_start + pn) a.vma_off = a.vma_start + (pn - a.vma_off) := by
    unfold usub u32 at *
    omega
  have hin : a.vma_start + (pn - a.vma_off) < a.vma_end := by
    unfold u32 at h2
    omega
  rw [hoff, pn_addr_pn (by omega)]
  exact ⟨Nat.le_add_right _ _, hin⟩

/-- The entry of a page is not found if its area does not give it away. -/
theorem remove_from_areas_misses (hL : Layout C s) (hO : Owned s) (hpr : s.procs p = some pr) (ha : a ∈ s.vmm_list pr.p_vmmap)
    (hv : a.Has v) (hno : ¬ (s.vmm_proc pr.p_vmmap = some p ∧ a.vma_off ≤ pf.pf_pagenum ∧
      pf.pf_pagenum < u32 (a.vma_off + usub a.vma_end a.vma_start)))
    (h : remove_from_areas pf s ids = some s') : s'.p_pagedir p v = s.p_pagedir p v := by
  induction ids generalizing s with
  | nil =>
    cases h
    rfl
  | cons id ids ih =>
    simp only [remove_from_areas, bind, Option.bind_eq_some_iff] at h
    obtain ⟨c, hc, s₁, hone, hrest⟩ := h
    have hfirst : remove_from_areas pf s [id] = some s₁ := by simp [remove_from_areas, hc, hone]
    have hsp : s₁.spaces = s.spaces := remove_from_areas_spaces hfirst
    have hkeep : s₁.p_pagedir p v = s.p_pagedir p v := by
      obtain ⟨-, m, hcm⟩ := areaById_mem hc
      have hown := (hL.areas m).owner c hcm
      simp only [remove_from_area, bind] at hone
      split at hone
      next hin =>
        rw [hown, Option.bind_some] at hone
        split at hone
        next q hq =>
          cases hone
          by_contra hne
          have hsame : q = p ∧ ADDR_TO_PN (PN_TO_ADDR (usub (c.vma_start + pf.pf_pagenum) c.vma_off)) = v := by
            by_contra h
            refine hne (Option.ext fun pte => ?_)
            rw [pt_unmap_cases]
            constructor
            · exact fun h => h.2
            · intro hpte
              refine ⟨?_, hpte⟩
              by_contra hboth
              rw [not_or, not_ne_iff, not_ne_iff] at hboth
              exact h ⟨hboth.1.symm, hboth.2.symm⟩
          obtain ⟨rfl, hpage⟩ := hsame
          -- the map belongs to a process, and this one has only its own
          have hmap : m = pr.p_vmmap := by
            obtain ⟨q', pr', hq', rfl⟩ := hO.idle m (List.ne_nil_of_mem hcm)
            rcases hO.back q' pr' hq' with hb | hb
            · rw [hb] at hq
              cases hq
            · rw [hb] at hq
              cases hq
              rw [hq'] at hpr
              cases hpr
              rfl
          subst hmap
          have hcv : c.Has v := by
            rw [← hpage]
            exact vpage_has hL hcm hin.1 hin.2
          obtain rfl : c = a := hL.area_unique ha hcm hv hcv
          exact hno ⟨hq, hin⟩
        next =>
          cases hone
          rfl
      next =>
        cases hone
        rfl
    have hlists : s₁.vmm_list = s.vmm_list := congrArg Spaces.vmm_list hsp
    have hproc : s₁.vmm_proc = s.vmm_proc := congrArg Spaces.vmm_proc hsp
    refine (ih (hL.congr hsp) (hO.congr hsp) ((congrFun (congrArg Spaces.procs hsp) p).trans hpr) (by rw [hlists]; exact ha) ?_
      hrest).trans hkeep
    rw [hproc]
    exact hno

/-- Where the entry of an untraced page is. -/
theorem untraced (h : ¬ s.Traced pf) : ∃ p pr a pte, s.procs p = some pr ∧ a ∈ s.vmm_list pr.p_vmmap ∧
    a.Has (a.vpage pf.pf_pagenum) ∧ s.p_pagedir p (a.vpage pf.pf_pagenum) = some pte ∧ pte.pt_page = pf.pf_addr ∧
    ¬ (s.vmm_proc pr.p_vmmap = some p ∧ a.vma_off ≤ pf.pf_pagenum ∧
      pf.pf_pagenum < u32 (a.vma_off + usub a.vma_end a.vma_start)) := by
  unfold State.Traced at h
  push Not at h
  obtain ⟨p, -, pr, hpr, a, ha, hv, ⟨pte, hpte, hpage⟩, hno⟩ := h
  exact ⟨p, pr, a, pte, hpr, ha, hv, hpte, hpage, fun ⟨h1, h2, h3⟩ => absurd h3 (not_lt.2 (hno h1 h2))⟩

theorem remove_from_pts_misses (hL : Layout C s) (hO : Owned s) (hpr : s.procs p = some pr) (ha : a ∈ s.vmm_list pr.p_vmmap)
    (hv : a.Has v) (hno : ¬ (s.vmm_proc pr.p_vmmap = some p ∧ a.vma_off ≤ pf.pf_pagenum ∧
      pf.pf_pagenum < u32 (a.vma_off + usub a.vma_end a.vma_start)))
    (h : pframe_remove_from_pts s pf = some s') : s'.p_pagedir p v = s.p_pagedir p v := by
  simp only [pframe_remove_from_pts, bind, Option.bind_eq_some_iff] at h
  obtain ⟨b, -, h⟩ := h
  exact remove_from_areas_misses hL hO hpr ha hv hno h

/-! ## Freeing and cleaning -/

namespace Linked

theorem clean_unmapped_iff (hR : OnChain R) (h : Linked R C held s) (hm : pf ∈ s.pframes)
    (hc : pframe_clean E s pf = some s') : s'.Unmapped pf.pf_addr ↔ s.Traced pf := by
  constructor
  · intro hgone
    by_contra hno
    obtain ⟨p, pr, a, pte, hpr, ha, hv, hpte, hpage, hno⟩ := untraced hno
    obtain ⟨s₁, ok, dk, n, hr, rfl, -⟩ := pframe_clean_effect hc
    have hkeep := remove_from_pts_misses (s := s.setDirty pf.pf_addr false) (h.backing.layout.congr rfl) (h.owned.congr rfl)
      hpr ha hv hno hr
    exact hgone p _ pte (hkeep.trans hpte) hpage
  · intro ht
    exact (h.toPaged.clean hR hm ht hc).2.2.2

theorem free_unmapped_iff (hR : OnChain R) (h : Linked R C held s) (hm : pf ∈ s.pframes)
    (hf : pframe_free s pf = some s') : s'.Unmapped pf.pf_addr ↔ s.Traced pf := by
  have hB := h.backing
  have hpin : s.pf_pincount pf.pf_addr = 0 := by
    simp only [pframe_free, pframe_release, bind, Option.bind_eq_some_iff, KASSERT_eq_some] at hf
    obtain ⟨-, ⟨-, hpin, -⟩, -⟩ := hf
    exact hpin
  constructor
  · intro hgone
    by_contra hno
    obtain ⟨p, pr, a, pte, hpr, ha, hv, hpte, hpage, hno⟩ := untraced hno
    obtain ⟨s₁, s'', hf', hrel, hd, hput, -⟩ := pframe_free_effect hB h.outside.nonneg hm hpin
    rw [hf] at hf'
    cases hf'
    obtain ⟨s₂, hr, hpd⟩ := pframe_release_unmaps hrel
    have hkeep : s₁.p_pagedir p (a.vpage pf.pf_pagenum) = some pte := by
      rw [hpd]
      exact (remove_from_pts_misses hB.layout h.owned hpr ha hv hno hr).trans hpte
    -- the page is read through an area, so the object is not given up
    obtain ⟨pr', a', o, q, he⟩ := h.entries p _ pte hpte
    obtain ⟨hq, hreach, -⟩ := he.mem hR hB.chains hB.frames
    obtain rfl : q = pf := hB.frames.addr_inj hq hm (he.page.trans hpage)
    have hpos := hB.reaches_pos h.outside.nonneg he.area he.obj hreach
    cases hput with
    | counted => exact hgone p _ pte hkeep hpage
    | emptied hlast =>
      have hres : 0 < s.mmo_nrespages q.pf_obj := by
        rw [hB.frames.resident, List.countP_pos_iff]
        exact ⟨q, hm, by simp⟩
      rw [hd.refcount, hd.nres, Function.update_self] at hlast
      omega
  · intro ht
    exact (h.toPaged.free hR h.outside.nonneg hm hpin ht hf).2.2.2

end Linked

/-! ## Runs -/

theorem run_linked (hR : OnChain R) {s₀ : State} {ok : State → Event → Prop} {tr : List (Event × Outcome)} (h0 : Booted s₀)
    (hok : ∀ s e, ok s e → TracedTurn s e)
    (hcopy : ∀ held s p u k n s' r, Linked R C held s → ok s (.copyout p u k n) →
      copy_to_user E s p u k n = some (s', r) → Stays R C held s s')
    (h : Run (step C E) ok s₀ s tr) : ∃ held, Linked R C held s := by
  obtain ⟨held, h0⟩ := h0.linked (R := R) (C := C)
  refine ⟨held, h.inv (Linked R C held) h0 fun t e t' w hI he hst => ?_⟩
  have ht := hok t e he
  refine (hI.step hR ht.sane (fun hev => ?_) (fun p u k n r hev hc => ?_) hst).linked
  · subst hev
    exact ht
  · subst hev
    exact hcopy held t p u k n t' r hI he hc

/-- In every state reached only resident pages are mapped, and freeing or
cleaning a page leaves no entry for it exactly when it is traced. -/
theorem freed_unmapped_iff {s₀ : State} {tr : List (Event × Outcome)} (h0 : Booted s₀)
    (h : Run (step C E) TracedTurn s₀ s tr) :
    (∀ pg, pg ∉ s.usedPages → s.Unmapped pg) ∧
    ∀ pf ∈ s.pframes, ∀ s', pframe_free s pf = some s' ∨ pframe_clean E s pf = some s' →
      (s'.Unmapped pf.pf_addr ↔ s.Traced pf) := by
  obtain ⟨held, hL⟩ := run_linked onChain_below h0 (fun _ _ ht => ht) (fun _ _ _ _ _ _ _ _ hI _ hc => hI.copy_below hc) h
  refine ⟨fun pg hpg p v pte hpte e => hpg ?_, fun pf hm s' hs => ?_⟩
  · obtain ⟨pr, a, o, pf, he⟩ := hL.entries p v pte hpte
    obtain ⟨hm, -⟩ := he.mem onChain_below hL.backing.chains hL.backing.frames
    rw [← e, ← he.page]
    exact List.mem_map_of_mem hm
  · rcases hs with hf | hc
    · exact hL.free_unmapped_iff onChain_below hm hf
    · exact hL.clean_unmapped_iff onChain_below hm hc

/-- A process maps the file shared and reads its first page. -/
def readShared : List Event := openIt ++ [.mmap 0 0 4096 { read := true } { shared := true } 3 0, .load 0 0x400000]

/-- Its child reads the page too. -/
def childReads : List Event := readShared ++ [.fork 0, .load 1 0x400000]

/-- The page of a process that no `fork` made is unmapped when it is freed. -/
theorem freed_page_unmapped : ∃ s tr, Run (step .stock .simple) TracedTurn oneFile s tr ∧
    ∃ pf ∈ s.pframes, s.Maps 0 0x400 pf ∧ ∃ s', pframe_free s pf = some s' ∧ s'.Unmapped pf.pf_addr := by
  have hex : (exec (step .stock .simple) (fun s e => decide (TracedTurn s e)) oneFile readShared).bind (fun r =>
      r.1.pframes.head?.bind fun pf => (pframe_free r.1 pf).map fun _ =>
        decide (r.1.Maps 0 0x400 pf ∧ r.1.Traced pf)) = some true := by decide +kernel
  simp only [Option.bind_eq_some_iff, Option.map_eq_some_iff, Prod.exists, decide_eq_true_eq] at hex
  obtain ⟨s, tr, he, pf, hpf, s', hf, hmaps, ht⟩ := hex
  have hrun : Run (step .stock .simple) TracedTurn oneFile s tr := Run.of_exec (fun _ _ => of_decide_eq_true) he
  have hm := List.mem_of_head? hpf
  exact ⟨s, tr, hrun, pf, hm, hmaps, s', hf,
    ((freed_unmapped_iff oneFile_booted hrun).2 pf hm s' (.inl hf)).2 ht⟩

/-- The page of a child is freed, and the child still maps it. -/
theorem freed_page_mapped : ∃ s tr, Run (step .stock .simple) (fun _ e => e.Sane) oneFile s tr ∧
    ∃ pf ∈ s.pframes, ∃ s', pframe_free s pf = some s' ∧ ¬ s'.Unmapped pf.pf_addr := by
  have hex : (exec (step .stock .simple) (fun _ e => decide e.Sane) oneFile childReads).bind (fun r =>
      r.1.pframes.head?.bind fun pf => (pframe_free r.1 pf).bind fun t =>
        (t.p_pagedir 1 0x400).map fun pte => decide (pte.pt_page = pf.pf_addr)) = some true := by decide +kernel
  simp only [Option.bind_eq_some_iff, Option.map_eq_some_iff, Prod.exists, decide_eq_true_eq] at hex
  obtain ⟨s, tr, he, pf, hpf, s', hf, pte, hpte, hpage⟩ := hex
  exact ⟨s, tr, Run.of_exec (fun _ _ => of_decide_eq_true) he, pf, List.mem_of_head? hpf, s', hf,
    fun h => h 1 0x400 pte hpte hpage⟩

end Weenix.Vm
