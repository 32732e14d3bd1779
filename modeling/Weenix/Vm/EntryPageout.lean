import Weenix.Vm.EntryFaults
/-!
# Entries across page-outs

Cleaning and freeing a page unmap it where `pframe_remove_from_pts` finds it:
in the areas on the list of its bottom object, if the map of the area points
back to its process and the numbers of the area's pages do not wrap around.
`Traced` says that all entries of the page are found so.
-/

namespace Weenix.Vm

open Lib Lib.Intervals

variable {C : Config} {E : Env} {R : FrameRel} {s s' t : State} {o m p v id : Nat} {a : VmArea} {pf : Pframe} {pte : Pte}
  {pr : Proc} {ids : List Nat} {held : Nat → Int}

/-- The page of the area that shows page `pn` of its object. -/
def VmArea.vpage (pn : Nat) (a : VmArea) : Nat := usub (a.vma_start + pn) (u32 a.vma_off)

namespace State
variable (s : State)

/-- The frame the pageout daemon looks at. -/
def victim : Option Pframe := s.alloc_list.head?.bind fun pg => s.pframes.find? fun pf => decide (pf.pf_addr = pg)

/-- Process `p` has an entry for the physical page of `pf` at its page `v`. -/
def Maps (p v : Nat) (pf : Pframe) : Prop := ∃ pte ∈ s.p_pagedir p v, pte.pt_page = pf.pf_addr

/-- Where the page is mapped in an area, the map knows its process and the area
the number of the page. -/
def Traced (pf : Pframe) : Prop :=
  ∀ p < s.nprocs, ∀ pr ∈ s.procs p, ∀ a ∈ s.vmm_list pr.p_vmmap, a.Has (a.vpage pf.pf_pagenum) →
    s.Maps p (a.vpage pf.pf_pagenum) pf → s.vmm_proc pr.p_vmmap = some p ∧ a.vma_off ≤ pf.pf_pagenum ∧
      pf.pf_pagenum < u32 (a.vma_off + usub a.vma_end a.vma_start)

instance (p v : Nat) (pf : Pframe) : Decidable (s.Maps p v pf) := inferInstanceAs (Decidable (∃ _ ∈ _, _))

instance (pf : Pframe) : Decidable (s.Traced pf) := inferInstanceAs (Decidable (∀ _ < _, ∀ _ ∈ _, ∀ _ ∈ _, _ → _ → _))

end State

/-! ## Finding the entries -/

theorem remove_from_areas_only (h : remove_from_areas pf s ids = some s') : ∃ pd, s' = { s with p_pagedir := pd } := by
  induction ids generalizing s with
  | nil =>
    cases h
    exact ⟨_, rfl⟩
  | cons id ids ih =>
    simp only [remove_from_areas, bind, Option.bind_eq_some_iff] at h
    obtain ⟨a, -, s₁, h1, h2⟩ := h
    have h3 : ∃ pd, s₁ = { s with p_pagedir := pd } := by
      simp only [remove_from_area, bind] at h1
      split at h1
      · simp only [Option.bind_eq_some_iff] at h1
        obtain ⟨m, -, h1⟩ := h1
        split at h1
        · cases h1
          exact ⟨_, rfl⟩
        · cases h1
          exact ⟨s.p_pagedir, rfl⟩
      · cases h1
        exact ⟨s.p_pagedir, rfl⟩
    obtain ⟨pd, rfl⟩ := h3
    obtain ⟨pd', rfl⟩ := ih h2
    exact ⟨pd', rfl⟩

theorem remove_from_pts_only (h : pframe_remove_from_pts s pf = some s') : ∃ pd, s' = { s with p_pagedir := pd } := by
  simp only [pframe_remove_from_pts, bind, Option.bind_eq_some_iff] at h
  obtain ⟨b, -, h⟩ := h
  exact remove_from_areas_only h

/-- The page of an area on the list is unmapped. -/
theorem remove_from_areas_unmaps (h : remove_from_areas pf s ids = some s') (hid : id ∈ ids) (ha : s.areaById id = some a)
    (hm : a.vma_vmmap = some m) (hp : s.vmm_proc m = some p) (h1 : a.vma_off ≤ pf.pf_pagenum)
    (h2 : pf.pf_pagenum < u32 (a.vma_off + usub a.vma_end a.vma_start)) :
    s'.p_pagedir p (ADDR_TO_PN (PN_TO_ADDR (usub (a.vma_start + pf.pf_pagenum) a.vma_off))) = none := by
  induction ids generalizing s with
  | nil => cases hid
  | cons i ids ih =>
    simp only [remove_from_areas, bind, Option.bind_eq_some_iff] at h
    obtain ⟨c, hc, s₁, hone, hrest⟩ := h
    by_cases e : i = id
    · subst e
      rw [hc] at ha
      cases ha
      simp only [remove_from_area, if_pos (And.intro h1 h2), bind, hm, Option.bind_some, hp, Option.some.injEq] at hone
      subst hone
      cases hpd : s'.p_pagedir p (ADDR_TO_PN (PN_TO_ADDR (usub (a.vma_start + pf.pf_pagenum) a.vma_off))) with
      | none => rfl
      | some pte => exact absurd ((pt_unmap_cases.1 (remove_from_areas_noNew hrest _ _ _ hpd)).1) (by simp)
    · have hid' : id ∈ ids := (List.mem_cons.1 hid).resolve_left (Ne.symm e)
      have hfirst : remove_from_areas pf s [i] = some s₁ := by simp [remove_from_areas, hc, hone]
      have hsp : s₁.spaces = s.spaces := remove_from_areas_spaces hfirst
      have e1 : s₁.vmm_list = s.vmm_list := congrArg Spaces.vmm_list hsp
      have e2 : s₁.nmaps = s.nmaps := congrArg Spaces.nmaps hsp
      refine ih hrest hid' ?_ ((congrFun (congrArg Spaces.vmm_proc hsp) m).trans hp)
      unfold State.areaById at ha ⊢
      rw [e1, e2]
      exact ha

theorem vpage_pagenum (hs : a.vma_start < 2 ^ 32) (hv : v < 2 ^ 32) : a.vpage (a.pagenum v) = v := by
  unfold VmArea.vpage VmArea.pagenum usub u32
  omega

theorem pn_addr_pn (hv : v < 2 ^ 20) : ADDR_TO_PN (PN_TO_ADDR v) = v := by
  unfold ADDR_TO_PN PN_TO_ADDR u32 PAGE_SIZE
  omega

/-- No entry of a traced page is left. -/
theorem Backing.unmapped (hR : OnChain R) (h : Backing C held s) (hO : Owned s) (hE : Entries R s) (hm : pf ∈ s.pframes)
    (ht : s.Traced pf) (hr : pframe_remove_from_pts s pf = some s') (hpte : s'.p_pagedir p v = some pte) :
    pte.pt_page ≠ pf.pf_addr := by
  intro hpage
  have hC := C.high_lt
  simp only [pframe_remove_from_pts, bind, Option.bind_eq_some_iff] at hr
  obtain ⟨b, hb, hr⟩ := hr
  have hold := remove_from_areas_noNew hr p v pte hpte
  obtain ⟨pr, a, o, q, he⟩ := hE p v pte hold
  obtain ⟨hq, hreach, hnum⟩ := he.mem hR h.chains h.frames
  obtain rfl : q = pf := h.frames.addr_inj hq hm (he.page.trans hpage)
  have hv : v < 2 ^ 20 := by
    have h1 := (h.layout.areas pr.p_vmmap).high a he.area
    have h2 := he.has.2
    omega
  have hvp : a.vpage q.pf_pagenum = v := by
    have h1 := he.has.1
    rw [hnum]
    exact vpage_pagenum (by omega) (by omega)
  obtain ⟨h1, h2, h3⟩ := ht p (hO.live p pr he.proc).1 pr he.proc a he.area (by rw [hvp]; exact he.has)
    ⟨pte, by rw [hvp]; exact hold, hpage⟩
  -- the area is on the list of the bottom object of its chain
  obtain ⟨b', hb', hid⟩ := h.hung.linked _ a he.area o he.obj
  rw [h.chains.reaches hreach, hb'] at hb
  cases hb
  have := remove_from_areas_unmaps hr hid (areaById_eq h.layout he.area) ((h.layout.areas _).owner a he.area) h1 h2 h3
  have hoff : u32 a.vma_off = a.vma_off := u32_of_lt (h2.trans_lt (by rw [hnum]; exact usub_lt _ _))
  rw [show usub (a.vma_start + q.pf_pagenum) a.vma_off = v by rw [← hvp, VmArea.vpage, hoff], pn_addr_pn hv, hpte] at this
  cases this

/-! ## Cleaning -/

/-- `pframe_clean` unmaps the page and may write it; the page is dirty again if
that fails. A page of a file is written when the disk works. -/
theorem pframe_clean_effect (h : pframe_clean E s pf = some s') : ∃ s₁ ok dk n,
    pframe_remove_from_pts (s.setDirty pf.pf_addr false) pf = some s₁ ∧ s' = { s₁ with
      pf_busy := Function.update s₁.pf_busy pf.pf_addr false,
      pf_dirty := if ok = true then s₁.pf_dirty else Function.update s₁.pf_dirty pf.pf_addr true, disk := dk, clock := n } ∧
    ∀ ob, s.objs pf.pf_obj = some ob → ob.isFile = true → ok = E.io s.clock := by
  simp only [pframe_clean, cleanpage, bind, Option.bind_eq_some_iff, Option.some.injEq, Prod.exists] at h
  obtain ⟨-, -, -, -, s₁, h1, s₂, ok, ⟨ob, hob, h2⟩, rfl⟩ := h
  obtain ⟨pd, rfl⟩ := remove_from_pts_only h1
  have hsame {ob' : Mmobj} (hob' : s.objs pf.pf_obj = some ob') : ob' = ob := Option.some.inj (hob'.symm.trans hob)
  have h3 : s₂ = { ({ s.setDirty pf.pf_addr false with p_pagedir := pd }).setBusy pf.pf_addr true with
      disk := s₂.disk, clock := s₂.clock } ∧
      ∀ ob, s.objs pf.pf_obj = some ob → ob.isFile = true → ok = E.io s.clock := by
    split at h2
    next hops =>
      cases h2
      exact ⟨rfl, fun ob' hob' hfile => by rw [hsame hob', Mmobj.isFile, hops] at hfile; cases hfile⟩
    next hops =>
      cases h2
      exact ⟨rfl, fun ob' hob' hfile => by rw [hsame hob', Mmobj.isFile, hops] at hfile; cases hfile⟩
    next =>
      split at h2
      next hio =>
        cases h2
        exact ⟨rfl, fun _ _ _ => hio.symm⟩
      next hio =>
        cases h2
        exact ⟨rfl, fun _ _ _ => (eq_false_of_ne_true hio).symm⟩
  obtain ⟨h3, hio⟩ := h3
  refine ⟨_, ok, s₂.disk, s₂.clock, h1, ?_, hio⟩
  rw [h3]
  cases ok with
  | true => simp [State.setBusy]
  | false => simp [State.setBusy, State.setDirty]

theorem Paged.clean (hR : OnChain R) (h : Paged R C held s) (hm : pf ∈ s.pframes) (ht : s.Traced pf)
    (hc : pframe_clean E s pf = some s') :
    Paged R C held s' ∧ s'.objs = s.objs ∧ s'.spaces = s.spaces ∧
      ∀ q v pte, s'.p_pagedir q v = some pte → pte.pt_page ≠ pf.pf_addr := by
  obtain ⟨s₁, ok, dk, n, hr, rfl, -⟩ := pframe_clean_effect hc
  have hB : Backing C held (s.setDirty pf.pf_addr false) := ⟨h.backing.layout.congr rfl, h.backing.chains.congr rfl rfl,
    h.backing.frames.congr rfl rfl rfl rfl rfl rfl, h.backing.idle, h.backing.hung.congr rfl rfl rfl, h.backing.counted,
    h.backing.num⟩
  have hE : Entries R (s.setDirty pf.pf_addr false) := h.entries.unmap hR h.backing.chains (.of_eq rfl) rfl rfl rfl rfl rfl
  have hgone : ∀ q v pte, s₁.p_pagedir q v = some pte → pte.pt_page ≠ pf.pf_addr := fun q v pte hpte =>
    hB.unmapped hR (h.owned.congr rfl) hE hm ht hr hpte
  simp only [pframe_remove_from_pts, bind, Option.bind_eq_some_iff] at hr
  obtain ⟨b, -, hr⟩ := hr
  have hno := remove_from_areas_noNew hr
  obtain ⟨pd, rfl⟩ := remove_from_areas_only hr
  refine ⟨⟨?_, h.owned.congr rfl, h.apart.same rfl rfl, ?_⟩, rfl, rfl, hgone⟩
  · refine ⟨hB.layout.congr rfl, hB.chains.congr rfl rfl, hB.frames.congr rfl rfl rfl rfl rfl rfl, fun q hq => ?_,
      hB.hung.congr rfl rfl rfl, hB.counted, hB.num⟩
    by_cases e : q.pf_addr = pf.pf_addr
    · simp [e]
    · exact (Function.update_of_ne e ..).trans (hB.idle q hq)
  · exact hE.unmap hR hB.chains hno rfl rfl rfl rfl rfl

/-! ## Freeing -/

theorem pframe_release_unmaps (h : pframe_release s pf = some s') :
    ∃ s₁, pframe_remove_from_pts s pf = some s₁ ∧ s'.p_pagedir = s₁.p_pagedir := by
  simp only [pframe_release, bind, Option.bind_eq_some_iff, Option.some.injEq] at h
  obtain ⟨-, -, -, -, s₁, h1, rfl⟩ := h
  exact ⟨s₁, h1, rfl⟩

/-- Another page keeps its frame. -/
theorem Dropped.frame? (h : Dropped s pf s') (hf : Frames s) (hf' : Frames s') (y k : Nat) :
    s'.frame? y k = s.frame? y k ∨ s.frame? y k = some pf := by
  cases hs : s.frame? y k with
  | none =>
    refine .inl ?_
    rw [frame?_eq_none] at hs ⊢
    exact fun q hq => hs q ((h.mem_pframes hf).1 hq).2
  | some q =>
    by_cases e : q = pf
    · exact .inr (by rw [e])
    · obtain ⟨hq, hk⟩ := (frame?_eq_some hf).1 hs
      exact .inl ((frame?_eq_some hf').2 ⟨(h.mem_pframes hf).2 ⟨e, hq⟩, hk⟩)

theorem Paged.free (hR : OnChain R) (h : Paged R C held s) (hheld : ∀ o, 0 ≤ held o) (hm : pf ∈ s.pframes)
    (hpin : s.pf_pincount pf.pf_addr = 0) (ht : s.Traced pf) (hfree : pframe_free s pf = some s') :
    Paged R C held s' ∧ s'.objs = s.objs ∧ s'.spaces = s.spaces ∧
      ∀ q v pte, s'.p_pagedir q v = some pte → pte.pt_page ≠ pf.pf_addr := by
  have hB := h.backing
  obtain ⟨s₁, s'', hf, hrel, hd, hput, hB'⟩ := pframe_free_effect hB hheld hm hpin
  rw [hfree] at hf
  cases hf
  obtain ⟨e1, e2, e3, -⟩ := hput.rest
  have hsp := e1.trans hd.spaces
  have hobjs := e2.trans hd.objs
  have hprocs : s'.procs = s.procs := congrArg Spaces.procs hsp
  have hlists : s'.vmm_list = s.vmm_list := congrArg Spaces.vmm_list hsp
  have hpar := parent_congr hobjs
  obtain ⟨s₂, hr, hpd⟩ := pframe_release_unmaps hrel
  have hgone : ∀ q v pte, s'.p_pagedir q v = some pte → pte.pt_page ≠ pf.pf_addr := fun q v pte hpte => by
    have h1 := hput.noNew q v pte hpte
    rw [hpd] at h1
    exact hB.unmapped hR h.owned h.entries hm ht hr h1
  have hno : NoNewMapping s s' := (pframe_release_noNew hrel).trans hput.noNew
  have hf₁ := hd.frames hB.frames hm
  obtain ⟨ob, hob⟩ := hB.frames.owner pf hm
  -- the frame is one of a file, which shadows nothing
  have hroot : s.parent pf.pf_obj = none := by
    refine (Chains.parent_eq hob).trans (hB.chains.root _ ob hob fun e => ?_)
    have := (hB.frames.pinned pf hm ob hob (by simp [Mmobj.isFile, e])).1
    omega
  refine ⟨⟨hB', h.owned.congr hsp, h.apart.same hpar hlists, ?_⟩, hobjs, hsp, hgone⟩
  refine h.entries.keep hR hB.chains hB'.chains hno fun q v pte pr' a o pf' hpte he =>
    ⟨⟨pr', a, by rw [hprocs]; exact he.proc, by rw [hlists]; exact he.area, he.has, he.obj, rfl⟩, fun y hy =>
      ⟨congrFun hpar y, ?_⟩⟩
  have hput' : s'.frame? y (a.pagenum v) = s₁.frame? y (a.pagenum v) := by
    rcases hput.frame? y with e | e
    · exact e
    · have := hB'.reaches_pos hheld (by rw [hlists]; exact he.area) he.obj (by rw [hpar]; exact hy)
      omega
  rw [hput']
  rcases hd.frame? hB.frames hf₁ y (a.pagenum v) with e | e
  · exact .inl e
  · obtain ⟨-, rfl, -⟩ := (frame?_eq_some hB.frames).1 e
    refine .inr ⟨hroot, fun e' => hgone q v pte hpte ?_⟩
    rw [e] at e'
    rw [Option.some.inj e']
    exact he.page.symm

end Weenix.Vm
