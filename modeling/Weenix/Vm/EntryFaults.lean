import Weenix.Vm.EntryRemoval
/-!
# Entries across page faults

A fault maps the frame that the chain of the area reads the page from, or the
frame of the area's object itself for a write. The frames it adds are for that
page, at the object and at the end of its chain, so no other entry is concerned.
-/

namespace Weenix.Vm

open Lib Lib.Intervals

variable {C : Config} {E : Env} {R : FrameRel} {s s' t : State} {o b m p v pn vaddr : Nat} {a c : VmArea} {pf : Pframe}
  {pte : Pte} {pr : Proc} {held : Nat → Int} {cause : Cause}

/-! ## New frames -/

/-- A page has the frame it had, or it had none. -/
theorem Grown.frame? (h : Grown s s') (hf : Frames s) (hf' : Frames s') (y k : Nat) :
    s'.frame? y k = s.frame? y k ∨ (s.frame? y k = none ∧ ∃ q ∈ s'.pframes, q ∉ s.pframes ∧ q.pf_obj = y ∧ q.pf_pagenum = k) := by
  cases hs : s.frame? y k with
  | some q =>
    obtain ⟨hm, hq⟩ := (frame?_eq_some hf).1 hs
    exact .inl ((frame?_eq_some hf').2 ⟨h.frames q hm, hq⟩)
  | none =>
    cases hs' : s'.frame? y k with
    | none => exact .inl rfl
    | some q =>
      obtain ⟨hm, hq⟩ := (frame?_eq_some hf').1 hs'
      refine .inr ⟨rfl, q, hm, fun hold => ?_, hq⟩
      exact frame?_eq_none.1 hs q hold hq

/-- With more frames the chains have the frames they had. -/
theorem Entries.grow_below (hE : Entries State.below s) (h : Grown s s') (hf : Frames s) (hf' : Frames s') :
    Entries State.below s' := by
  intro q w pte hpte
  rw [h.pagedir] at hpte
  obtain ⟨pr, a, o, pf, he⟩ := hE q w pte hpte
  obtain ⟨y, hy, hfr⟩ := he.frame
  refine ⟨pr, a, o, pf, ?_, ?_, he.has, he.obj, ⟨y, ?_, ?_⟩, he.page, he.write⟩
  · exact (congrFun (congrArg Spaces.procs h.spaces) q).trans he.proc
  · rw [show s'.vmm_list = s.vmm_list from congrArg Spaces.vmm_list h.spaces]
    exact he.area
  · rw [parent_congr h.objs]
    exact hy
  · rcases h.frame? hf hf' y (a.pagenum w) with e | ⟨hnone, -⟩
    · exact e.trans hfr
    · rw [hnone] at hfr
      cases hfr

theorem Apart.grown (hA : Apart s) (h : Grown s s') : Apart s' :=
  hA.same (parent_congr h.objs) (congrArg Spaces.vmm_list h.spaces)

/-- The object at the end of a chain shadows nothing. -/
theorem Chains.parent_bottom (hc : Chains s) (h : s.bottomOf o = some b) : s.parent b = none := by
  obtain ⟨ob, hob, hs⟩ := hc.bottom_obj h
  exact (Chains.parent_eq hob).trans (hc.root b ob hob hs)

/-- New frames for the page of an area are no concern of the entries, but for
one of this page when the area's object had no frame. -/
theorem Entries.grow (hR : OnChain R) (hE : Entries R s) (h : Backing C held s) (hO : Owned s) (hA : Apart s)
    (hpr : s.procs p = some pr) (ha : a ∈ s.vmm_list pr.p_vmmap) (hv : a.Has v) (ho : a.vma_obj = some o)
    (hg : Grown s s') (hf : Frames s') (honly : NewFrames s o (a.pagenum v) s')
    (hself : s.p_pagedir p v ≠ none → s.frame? o (a.pagenum v) ≠ none) : Entries R s' := by
  have hc' := hg.chains h.chains
  have hpar := parent_congr hg.objs
  refine hE.keep hR h.chains hc' (.of_eq hg.pagedir) fun q w pte pr' d od pf hpte he => ⟨⟨pr', d, ?_, ?_, he.has, he.obj, rfl⟩,
    fun y hy => ⟨congrFun hpar y, ?_⟩⟩
  · rw [show s'.procs = s.procs from congrArg Spaces.procs hg.spaces]
    exact he.proc
  · rw [show s'.vmm_list = s.vmm_list from congrArg Spaces.vmm_list hg.spaces]
    exact he.area
  · rcases hg.frame? h.frames hf y (d.pagenum w) with e | ⟨hnone, x, hx, hxs, hxy, hxk⟩
    · exact .inl e
    have hroot {y : Nat} (hp : s.parent y = none) (hnone : s.frame? y (d.pagenum w) = none) :
        s'.frame? y (d.pagenum w) = s.frame? y (d.pagenum w) ∨ (s.parent y = none ∧ s.frame? y (d.pagenum w) ≠ some pf) := by
      refine .inr ⟨hp, ?_⟩
      rw [hnone]
      simp
    rcases honly x hx with hold | ⟨hk, hyo | hyb⟩
    · exact absurd hold hxs
    · have hy' : y = o := hxy.symm.trans hyo
      subst hy'
      obtain ⟨ob, hob, hsuits⟩ := h.hung.areas _ a ha y ho
      by_cases hs : a.vma_flags.shared = true
      · rw [if_pos hs] at hsuits
        refine hroot ?_ hnone
        exact (Chains.parent_eq hob).trans (h.chains.root y ob hob fun e => by simp [Mmobj.isFile, e] at hsuits)
      · -- the other entry is for the same page of the same process
        rw [Bool.not_eq_true] at hs
        have hod : od = y := hA.reached ha hs ho hy
        obtain ⟨hm, hd⟩ := hA.once _ a ha hs y ho _ d he.area (hod ▸ he.obj)
        obtain rfl : q = p := hO.own q p pr' pr he.proc hpr hm
        have hwv : w = v := pagenum_inj hd (hxk.symm.trans hk) (h.layout.page_lt ha hv) (h.layout.page_lt he.area he.has)
        subst hwv
        have hpte' : s.p_pagedir q w ≠ none := by
          rw [← hg.pagedir, hpte]
          simp
        exact absurd (by rw [← hk, hxk]; exact hnone) (hself hpte')
    · refine hroot ?_ hnone
      rw [← hxy]
      exact h.chains.parent_bottom hyb

/-! ## Mapping a page -/

theorem pt_map_cases {page q w : Nat} {wr : Bool} (h : (s.pt_map p v page wr).p_pagedir q w = some pte) :
    (q = p ∧ w = v ∧ pte = ⟨page, wr⟩) ∨ ((q ≠ p ∨ w ≠ v) ∧ s.p_pagedir q w = some pte) := by
  simp only [State.pt_map] at h
  by_cases hq : q = p
  · subst hq
    rw [Function.update_self] at h
    by_cases hw : w = v
    · subst hw
      rw [Function.update_self] at h
      exact .inl ⟨rfl, rfl, (Option.some.inj h).symm⟩
    · rw [Function.update_of_ne hw] at h
      exact .inr ⟨.inr hw, h⟩
  · rw [Function.update_of_ne hq] at h
    exact .inr ⟨.inl hq, h⟩

theorem pt_unmap_cases {q w : Nat} : (s.pt_unmap p v).p_pagedir q w = some pte ↔ (q ≠ p ∨ w ≠ v) ∧ s.p_pagedir q w = some pte := by
  unfold State.pt_unmap
  by_cases hq : q = p
  · subst hq
    by_cases hw : w = v
    · subst hw
      simp
    · simp [hw]
  · simp [hq]

/-- The rule for a new entry. -/
theorem Entries.map (hE : Entries R (s.pt_unmap p v)) {page : Nat} {wr : Bool} (hR : OnChain R) (hc : Chains s)
    (he : Entry R s p v ⟨page, wr⟩ pr a o pf) : Entries R (s.pt_map p v page wr) := by
  intro q w pte hpte
  rcases pt_map_cases hpte with ⟨rfl, rfl, rfl⟩ | ⟨hne, hold⟩
  · refine ⟨pr, a, o, pf, he.proc, he.area, he.has, he.obj, ?_, he.page, he.write⟩
    exact hR.keep hc (hc.congr rfl rfl) (fun y _ => ⟨rfl, .inl rfl⟩) he.frame
  · obtain ⟨pr', d, od, pf', h1⟩ := hE q w pte (pt_unmap_cases.2 ⟨hne, hold⟩)
    refine ⟨pr', d, od, pf', h1.proc, h1.area, h1.has, h1.obj, ?_, h1.page, h1.write⟩
    have hc₀ : Chains (s.pt_unmap p v) := hc.congr rfl rfl
    exact hR.keep hc₀ (hc.congr rfl rfl) (fun y _ => ⟨rfl, .inl rfl⟩) h1.frame

theorem Grown.pt_unmap (h : Grown s s') : Grown (s.pt_unmap p v) (s'.pt_unmap p v) :=
  ⟨h.spaces, h.objs, h.nobjs, h.vmas, by simp only [State.pt_unmap, h.pagedir], h.disk, h.num, h.temp_c, h.frames, h.refs,
    h.nres, h.mem, h.dirty, h.busy, h.filled⟩

/-! ## The handler -/

theorem fault_frame_looked (vaddr : Nat) (h : Backing C held s) (hheld : ∀ o, 0 ≤ held o) (ha : a ∈ s.vmm_list m)
    (ho : a.vma_obj = some o) (w : Bool) : ∃ s' pf, fault_frame E s a vaddr w = some (s', pf) ∧
      Looked s o (fault_pagenum a vaddr) s' pf ∧ (w = true → pf.pf_obj = o) := by
  obtain ⟨ob, hob, -⟩ := h.hung.areas m a ha o ho
  have hr : 0 < s.mmo_refcount o := Nat.zero_lt_of_lt (h.area_pos hheld ha ho)
  obtain ⟨b, hb⟩ := h.chains.bottom hob
  have hrb := h.bottom_pos hheld hb hr
  cases hbelow : ob.mmo_shadowed with
  | none =>
    obtain ⟨s', pf, ok, hget, hgot⟩ := pframe_get_total (E := E) (fault_pagenum a vaddr) h.chains h.frames h.idle hb hr hrb
    exact ⟨s', pf, by simp [fault_frame, ho, hob, hbelow, hget], hgot.looked h.chains, fun _ => hgot.obj⟩
  | some below =>
    have hops : ob.mmo_ops = .shadow := by
      by_contra e
      rw [h.chains.root o ob hob e] at hbelow
      cases hbelow
    obtain ⟨s', pf, hlook, hl, hw⟩ := shadow_lookuppage_total (E := E) (fault_pagenum a vaddr) h.chains h.frames h.idle hob
      hops hb hr hrb w
    exact ⟨s', pf, by simp [fault_frame, ho, hob, hbelow, hlook], hl, hw⟩

/-- What a fault does: it ends the process, or maps a page of an area that grants the access. -/
inductive FaultEffect (C : Config) (E : Env) (s : State) (p vaddr : Nat) (cause : Cause) : State → FaultResult → Prop
  | killed {s₁} : exit_process C s p EFAULT = some s₁ →
      (∀ pr a, s.procs p = some pr → a ∈ s.vmm_list pr.p_vmmap → a.Has (ADDR_TO_PN vaddr) →
        a.vma_prot.grants (accessRight cause) = false) →
      FaultEffect C E s p vaddr cause s₁ .killed
  | mapped (pr : Proc) (a : VmArea) (s₁ : State) (pf : Pframe) : s.procs p = some pr → a ∈ s.vmm_list pr.p_vmmap →
      a.Has (ADDR_TO_PN vaddr) → a.vma_prot.grants (accessRight cause) = true →
      fault_frame E s a vaddr cause.write = some (s₁, pf) →
      FaultEffect C E s p vaddr cause (s₁.pt_map p (ADDR_TO_PN vaddr) pf.pf_addr cause.write) .mapped

theorem handle_pagefault_effect {r : FaultResult} (hL : Layout C s) (h : handle_pagefault C E s p vaddr cause = some (s', r)) :
    FaultEffect C E s p vaddr cause s' r := by
  simp only [handle_pagefault, bind, Option.bind_eq_some_iff] at h
  obtain ⟨pr, hpr, h⟩ := h
  have hC := C.high_lt
  have hfind {a : VmArea} : vmmap_lookup (s.vmm_list pr.p_vmmap) (ADDR_TO_PN vaddr) = some a ↔
      a ∈ s.vmm_list pr.p_vmmap ∧ a.Has (ADDR_TO_PN vaddr) := (hL.areas pr.p_vmmap).sorted.find_iff
  have hkill (h : (exit_process C s p EFAULT).map (·, FaultResult.killed) = some (s', r))
      (hno : ∀ a ∈ s.vmm_list pr.p_vmmap, a.Has (ADDR_TO_PN vaddr) → a.vma_prot.grants (accessRight cause) = false) :
      FaultEffect C E s p vaddr cause s' r := by
    simp only [Option.map_eq_some_iff, Prod.mk.injEq] at h
    obtain ⟨t, ht, rfl, rfl⟩ := h
    refine .killed ht fun pr' a hpr' ha hv => ?_
    rw [hpr] at hpr'
    cases hpr'
    exact hno a ha hv
  split at h
  next hl =>
    refine hkill h fun a ha hv => ?_
    rw [hfind.2 ⟨ha, hv⟩] at hl
    cases hl
  next a hl =>
    obtain ⟨ha, hv⟩ := hfind.1 hl
    rw [addr_perm_eq hl] at h
    split at h
    next hp =>
      refine hkill h fun c hcm hcv => ?_
      rw [hL.area_unique ha hcm hv hcv]
      exact hp
    next hp =>
      simp only [Option.bind_eq_some_iff, Option.some.injEq, Prod.mk.injEq, Prod.exists] at h
      obtain ⟨s₁, pf, hf, rfl, rfl⟩ := h
      have hlt := (hL.areas pr.p_vmmap).high a ha
      have hpage : ADDR_TO_PN (PN_TO_ADDR (ADDR_TO_PN vaddr)) = ADDR_TO_PN vaddr := by
        have := hv.2
        simp only [ADDR_TO_PN, PN_TO_ADDR, PAGE_SIZE, u32] at this ⊢
        omega
      rw [hpage]
      exact .mapped pr a s₁ pf hpr ha hv (by simpa using hp) hf

/-- A fault that maps a page keeps the entries right. -/
theorem Tied.mapped (hR : OnChain R) (h : Tied R C held p pr s) (ha : a ∈ s.vmm_list pr.p_vmmap)
    (hv : a.Has (ADDR_TO_PN vaddr)) (ho : a.vma_obj = some o) {w : Bool}
    (hl : Looked s o (fault_pagenum a vaddr) s' pf) (hw : w = true → pf.pf_obj = o) :
    Tied R C held p pr (s'.pt_map p (ADDR_TO_PN vaddr) pf.pf_addr w) := by
  have hB := h.backing
  have hc' := hl.grown.chains hB.chains
  have hprocs : s'.procs = s.procs := congrArg Spaces.procs hl.grown.spaces
  have hlists : s'.vmm_list = s.vmm_list := congrArg Spaces.vmm_list hl.grown.spaces
  -- without the entry of the page, the new frames are no concern of any other
  have h0 : Entries R (s.pt_unmap p (ADDR_TO_PN vaddr)) :=
    h.entries.unmap hR hB.chains (pt_unmap_noNew _) rfl rfl rfl rfl rfl
  have hE : Entries R (s'.pt_unmap p (ADDR_TO_PN vaddr)) := by
    refine h0.grow hR (hB.pagedir _) (h.owned.congr rfl) (h.apart.same rfl rfl) h.proc ha hv ho hl.grown.pt_unmap
      (hl.frames.congr rfl rfl rfl rfl rfl rfl) hl.only fun hne => ?_
    simp [State.pt_unmap] at hne
  have hproc : s'.procs p = some pr := (congrFun hprocs p).trans h.proc
  have hnew : Entry R s' p (ADDR_TO_PN vaddr) ⟨pf.pf_addr, w⟩ pr a o pf :=
    ⟨hproc, by rw [hlists]; exact ha, hv, ho, hR.found hc' hl.found, rfl, hw⟩
  exact ⟨⟨(hB.grown hl.grown hl.frames).pagedir _, h.owned.congr hl.grown.spaces, (h.apart.grown hl.grown).same rfl rfl,
    hE.map hR hc' hnew⟩, hproc⟩

end Weenix.Vm
