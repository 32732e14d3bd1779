import Weenix.Vm.Fills
/-!
# Dropping references

`put` of a shadow object or of the object of a vnode returns, and either only
counts or, when nothing but its own pages refers to the object, frees these
pages (`put_total`). A shadow object itself is never freed: the counter `num`
is back at 0 whenever `shadow_put` looks at it.
-/

namespace Weenix.Vm

open Lib

variable {C : Config} {E : Env} {s s' t : State} {o b pn : Nat} {pf : Pframe} {ob : Mmobj}

/-! ## Unmapping a frame -/

theorem areaById_mem {id : Nat} {a : VmArea} (h : s.areaById id = some a) : a.vma_id = id ∧ ∃ m, a ∈ s.vmm_list m := by
  unfold State.areaById at h
  obtain ⟨m, -, hf⟩ := List.exists_of_findSome?_eq_some h
  exact ⟨by simpa using List.find?_some hf, m, List.mem_of_find?_eq_some hf⟩

/-- An area has its address for itself. -/
theorem areaById_eq (hL : Layout C s) {m : Nat} {a : VmArea} (ha : a ∈ s.vmm_list m) :
    s.areaById a.vma_id = some a := by
  have hin : (s.areaById a.vma_id).isSome = true := by
    unfold State.areaById
    rw [List.findSome?_isSome_iff]
    exact ⟨m, List.mem_range.2 (hL.created ha), List.find?_isSome.2 ⟨a, ha, by simp⟩⟩
  obtain ⟨c, hc⟩ := Option.isSome_iff_exists.1 hin
  obtain ⟨hid, m', hcm⟩ := areaById_mem hc
  have hm := hL.apart m' m c hcm a ha hid
  subst hm
  rw [hc, List.inj_on_of_nodup_map (hL.ids m') hcm ha hid]

/-- The areas on the lists of the objects exist, in some map. -/
def Listed (s : State) : Prop := ∀ b, ∀ id ∈ s.mmo_vmas b, ∃ a m, s.areaById id = some a ∧ a.vma_vmmap = some m

theorem areaById_congr (h : s'.spaces = s.spaces) (id : Nat) : s'.areaById id = s.areaById id := by
  have e1 : s'.vmm_list = s.vmm_list := congrArg Spaces.vmm_list h
  have e2 : s'.nmaps = s.nmaps := congrArg Spaces.nmaps h
  unfold State.areaById
  rw [e1, e2]

theorem Listed.congr (h : Listed s) (h1 : s'.spaces = s.spaces) (h2 : s'.mmo_vmas = s.mmo_vmas) : Listed s' := by
  intro b id hid
  rw [h2] at hid
  rw [areaById_congr h1]
  exact h b id hid

/-- Some entries of the page tables are gone. -/
def Unmaps (pd pd' : Nat → Nat → Option Pte) : Prop := ∀ p v, pd' p v = pd p v ∨ pd' p v = none

theorem Unmaps.refl (pd : Nat → Nat → Option Pte) : Unmaps pd pd := fun _ _ => .inl rfl

theorem Unmaps.trans {pd pd' pd'' : Nat → Nat → Option Pte} (h : Unmaps pd pd') (h' : Unmaps pd' pd'') :
    Unmaps pd pd'' := fun p v => by
  rcases h' p v with e | e
  · rw [e]; exact h p v
  · exact .inr e

theorem remove_from_area_total (s : State) (pf : Pframe) {a : VmArea} {m : Nat} (hm : a.vma_vmmap = some m) :
    ∃ pd, remove_from_area s pf a = some { s with p_pagedir := pd } ∧ Unmaps s.p_pagedir pd := by
  unfold remove_from_area
  split
  · cases hp : s.vmm_proc m with
    | none =>
      refine ⟨s.p_pagedir, ?_, .refl _⟩
      simp [hm, hp]
    | some p =>
      refine ⟨_, by simp only [hm, hp, bind, Option.bind_some]; rfl, fun q v => ?_⟩
      by_cases hq : q = p
      · subst hq
        rw [Function.update_self]
        by_cases hv : v = ADDR_TO_PN (PN_TO_ADDR (usub (a.vma_start + pf.pf_pagenum) a.vma_off))
        · subst hv
          exact .inr (Function.update_self ..)
        · exact .inl (Function.update_of_ne hv ..)
      · exact .inl (congrFun (Function.update_of_ne hq ..) v)
  · exact ⟨s.p_pagedir, rfl, .refl _⟩

theorem remove_from_areas_total (pf : Pframe) (ids : List Nat) :
    ∀ {s : State}, (∀ id ∈ ids, ∃ a m, s.areaById id = some a ∧ a.vma_vmmap = some m) →
      ∃ pd, remove_from_areas pf s ids = some { s with p_pagedir := pd } ∧ Unmaps s.p_pagedir pd := by
  induction ids with
  | nil => exact fun {s} _ => ⟨s.p_pagedir, rfl, .refl _⟩
  | cons id ids ih =>
    intro s h
    obtain ⟨a, m, ha, hm⟩ := h id (by simp)
    obtain ⟨pd, h1, h2⟩ := remove_from_area_total s pf hm
    obtain ⟨pd', h3, h4⟩ := @ih { s with p_pagedir := pd } fun i hi => h i (by simp [hi])
    refine ⟨pd', ?_, h2.trans h4⟩
    simp [remove_from_areas, ha, h1, h3]

/-! ## Freeing a page -/

/-- What a state without the frame `pf` has in common with `s`. -/
structure Dropped (s : State) (pf : Pframe) (s' : State) : Prop where
  spaces : s'.spaces = s.spaces
  objs : s'.objs = s.objs
  nobjs : s'.nobjs = s.nobjs
  vmas : s'.mmo_vmas = s.mmo_vmas
  disk : s'.disk = s.disk
  num : s'.num = s.num
  temp_c : s'.temp_c = s.temp_c
  refcount : s'.mmo_refcount = s.mmo_refcount
  busy : s'.pf_busy = s.pf_busy
  dirty : s'.pf_dirty = s.pf_dirty
  mem : s'.mem = s.mem
  pagedir : Unmaps s.p_pagedir s'.p_pagedir
  pframes : s'.pframes = s.pframes.erase pf
  nres : s'.mmo_nrespages = Function.update s.mmo_nrespages pf.pf_obj (s.mmo_nrespages pf.pf_obj - 1)
  pins : ∀ pg, pg ≠ pf.pf_addr → s'.pf_pincount pg = s.pf_pincount pg ∧ (pg ∈ s.pinned_list → pg ∈ s'.pinned_list)
  alloc : s'.alloc_list = s.alloc_list.erase pf.pf_addr

theorem Frames.nodup (hf : Frames s) : s.pframes.Nodup := hf.addrs.of_map _

theorem Dropped.mem_pframes (h : Dropped s pf s') (hf : Frames s) {q : Pframe} :
    q ∈ s'.pframes ↔ q ≠ pf ∧ q ∈ s.pframes := by
  rw [h.pframes, hf.nodup.mem_erase_iff]

theorem Dropped.frames (h : Dropped s pf s') (hf : Frames s) (hm : pf ∈ s.pframes) : Frames s' := by
  have hsub : s'.pframes.Sublist s.pframes := by rw [h.pframes]; exact List.erase_sublist
  have hne : ∀ q ∈ s'.pframes, q.pf_addr ≠ pf.pf_addr := fun q hq e => by
    obtain ⟨h1, h2⟩ := (h.mem_pframes hf).1 hq
    exact h1 (hf.addr_inj h2 hm e)
  have halloc : ∀ pg, pg ∈ s'.alloc_list ↔ pg ≠ pf.pf_addr ∧ pg ∈ s.alloc_list := fun pg => by
    rw [h.alloc, hf.alloc_once.mem_erase_iff]
  constructor
  case pages => exact hf.pages.sublist (hsub.map _)
  case addrs => exact hf.addrs.sublist (hsub.map _)
  case owner =>
    intro q hq
    rw [h.objs]
    exact hf.owner q (hsub.subset hq)
  case resident =>
    intro x
    rw [h.nres, h.pframes, List.countP_erase]
    by_cases e : pf.pf_obj = x
    · subst e
      simp [hf.resident, hm]
    · rw [Function.update_of_ne (Ne.symm e)]
      simp [hf.resident, e]
  case file =>
    intro q hq ob ho hfile
    rw [h.objs] at ho
    obtain ⟨h1, h2⟩ := hf.file q (hsub.subset hq) ob ho hfile
    exact ⟨(h.pins _ (hne q hq)).1.trans h1, (halloc _).2 ⟨hne q hq, h2⟩⟩
  case pinned =>
    intro q hq ob ho hfile
    rw [h.objs] at ho
    obtain ⟨h1, h2, h3⟩ := hf.pinned q (hsub.subset hq) ob ho hfile
    obtain ⟨e1, e2⟩ := h.pins _ (hne q hq)
    exact ⟨e1.trans h1, e2 h2, fun hm => h3 ((halloc _).1 hm).2⟩
  case alloc_once =>
    rw [h.alloc]
    exact hf.alloc_once.erase _
  case alloc =>
    intro pg hpg
    obtain ⟨h1, h2⟩ := (halloc pg).1 hpg
    obtain ⟨q, hq, rfl⟩ := List.mem_map.1 (hf.alloc pg h2)
    exact List.mem_map_of_mem ((h.mem_pframes hf).2 ⟨fun e => h1 (by rw [e]), hq⟩)

/-- Where no frame is busy and the areas on the lists exist, pages can be freed. -/
structure Steady (s : State) : Prop where
  chains : Chains s
  frames : Frames s
  idle : Idle s
  listed : Listed s

theorem Dropped.steady (h : Dropped s pf s') (hs : Steady s) (hm : pf ∈ s.pframes) : Steady s' :=
  ⟨hs.chains.congr h.objs h.nobjs, h.frames hs.frames hm,
    fun q hq => by rw [h.busy]; exact hs.idle q ((h.mem_pframes hs.frames).1 hq).2,
    hs.listed.congr h.spaces h.vmas⟩

theorem pframe_release_total (hs : Steady s) (hm : pf ∈ s.pframes) (hpin : s.pf_pincount pf.pf_addr = 0) :
    ∃ pd, pframe_release s pf = some (({ s with p_pagedir := pd }.dropFrame pf).setNres pf.pf_obj
      (s.mmo_nrespages pf.pf_obj - 1)) ∧ Unmaps s.p_pagedir pd := by
  obtain ⟨ob, ho⟩ := hs.frames.owner pf hm
  obtain ⟨b, hb⟩ := hs.chains.bottom ho
  obtain ⟨pd, h1, h2⟩ := remove_from_areas_total pf _ (hs.listed b)
  refine ⟨pd, ?_, h2⟩
  simp [pframe_release, pframe_remove_from_pts, KASSERT, hpin, hs.idle pf hm, hb, h1, State.dropFrame]

/-- Freeing a page of a file. -/
theorem release_file (hs : Steady s) (hm : pf ∈ s.pframes) (ho : s.objs pf.pf_obj = some ob) (hfile : ob.isFile = true) :
    ∃ s', pframe_release s pf = some s' ∧ Dropped s pf s' := by
  obtain ⟨pd, h1, h2⟩ := pframe_release_total hs hm (hs.frames.file pf hm ob ho hfile).1
  exact ⟨_, h1, rfl, rfl, rfl, rfl, rfl, rfl, rfl, rfl, rfl, rfl, rfl, h2, rfl, rfl, fun _ _ => ⟨rfl, id⟩, rfl⟩

/-- Unpinning a page that is pinned once. -/
theorem pframe_unpin_once {pg : Nat} (hp : pg ∈ s.pinned_list) (h1 : s.pf_pincount pg = 1) : pframe_unpin s pg =
    { s with
      pf_pincount := Function.update s.pf_pincount pg 0
      pinned_list := s.pinned_list.erase pg
      alloc_list := s.alloc_list ++ [pg] } := by
  unfold pframe_unpin
  rw [if_pos hp]
  simp [State.setPin, h1]

/-- Unpinning and freeing a page that is pinned once. -/
theorem pframe_release_once (h1 : s.pf_pincount pf.pf_addr = 1) (h2 : pf.pf_addr ∈ s.pinned_list)
    (h3 : pf.pf_addr ∉ s.alloc_list) (hidle : s.pf_busy pf.pf_addr = false) (hb : s.bottomOf pf.pf_obj = some b)
    (hlisted : ∀ id ∈ s.mmo_vmas b, ∃ a m, s.areaById id = some a ∧ a.vma_vmmap = some m) :
    ∃ s', pframe_release (pframe_unpin s pf.pf_addr) pf = some s' ∧ Dropped s pf s' := by
  have hlist : ∀ id ∈ s.mmo_vmas b, ∃ a m, (pframe_unpin s pf.pf_addr).areaById id = some a ∧ a.vma_vmmap = some m := by
    rw [pframe_unpin_once h2 h1]
    exact hlisted
  obtain ⟨pd, h4, h5⟩ := remove_from_areas_total pf _ hlist
  rw [pframe_unpin_once h2 h1] at h4 h5 ⊢
  refine ⟨({ s with
      p_pagedir := pd
      pf_pincount := Function.update s.pf_pincount pf.pf_addr 0
      pinned_list := s.pinned_list.erase pf.pf_addr
      alloc_list := s.alloc_list ++ [pf.pf_addr] }.dropFrame pf).setNres pf.pf_obj (s.mmo_nrespages pf.pf_obj - 1), ?_,
    rfl, rfl, rfl, rfl, rfl, rfl, rfl, rfl, rfl, rfl, rfl, h5, rfl, rfl, fun pg hpg => ⟨?_, ?_⟩, ?_⟩
  · have hb' : ({ s with
        pf_pincount := Function.update s.pf_pincount pf.pf_addr 0
        pinned_list := s.pinned_list.erase pf.pf_addr
        alloc_list := s.alloc_list ++ [pf.pf_addr] } : State).bottomOf pf.pf_obj = some b := hb
    simp [pframe_release, pframe_remove_from_pts, KASSERT, hidle, hb', h4, State.dropFrame]
  · exact Function.update_of_ne hpg ..
  · exact fun h => (List.mem_erase_of_ne hpg).2 h
  · show (s.alloc_list ++ [pf.pf_addr]).erase pf.pf_addr = s.alloc_list.erase pf.pf_addr
    rw [erase_new h3, List.erase_of_not_mem h3]

/-- Unpinning and freeing a page of an object that is not a file's. -/
theorem release_pinned (hs : Steady s) (hm : pf ∈ s.pframes) (ho : s.objs pf.pf_obj = some ob) (hfile : ob.isFile = false) :
    ∃ s', pframe_release (pframe_unpin s pf.pf_addr) pf = some s' ∧ Dropped s pf s' := by
  obtain ⟨h1, h2, h3⟩ := hs.frames.pinned pf hm ob ho hfile
  obtain ⟨b, hb⟩ := hs.chains.bottom ho
  exact pframe_release_once h1 h2 h3 (hs.idle pf hm) hb (hs.listed b)

/-! ## Freeing all pages of an object -/

/-- All frames of `o` are gone, and nothing else but references to `o`. -/
structure Emptied (s : State) (o : Nat) (s' : State) : Prop where
  spaces : s'.spaces = s.spaces
  objs : s'.objs = s.objs
  nobjs : s'.nobjs = s.nobjs
  vmas : s'.mmo_vmas = s.mmo_vmas
  disk : s'.disk = s.disk
  num : s'.num = s.num
  temp_c : s'.temp_c = s.temp_c
  busy : s'.pf_busy = s.pf_busy
  dirty : s'.pf_dirty = s.pf_dirty
  mem : s'.mem = s.mem
  refcount : ∀ x, x ≠ o → s'.mmo_refcount x = s.mmo_refcount x
  pagedir : Unmaps s.p_pagedir s'.p_pagedir
  pframes : s'.pframes = s.pframes.filter fun pf => decide (pf.pf_obj ≠ o)
  nres : s'.mmo_nrespages = Function.update s.mmo_nrespages o 0
  frames : Frames s'

theorem Emptied.none (hf : Frames s) (h : s.mmo_nrespages o = 0) (n : Nat) : Emptied s o (s.setRefcount o n) := by
  have hout : ∀ pf ∈ s.pframes, pf.pf_obj ≠ o := fun pf hm e => by
    have := hf.resident o
    rw [h, eq_comm, List.countP_eq_zero] at this
    exact this pf hm (by simpa using e)
  refine ⟨rfl, rfl, rfl, rfl, rfl, rfl, rfl, rfl, rfl, rfl, fun x hx => Function.update_of_ne hx .., .refl _, ?_, ?_,
    hf.congr rfl rfl rfl rfl rfl rfl⟩
  · exact (List.filter_eq_self.2 fun pf hm => by simpa using hout pf hm).symm
  · rw [← h]
    exact (Function.update_eq_self o _).symm

/-- Freeing one page, and then the others. -/
theorem Dropped.emptied {n : Nat} (hf : Frames s) (h : Dropped s pf t) (hobj : pf.pf_obj = o) (h' : Emptied (t.setRefcount o n) o s') :
    Emptied s o s' := by
  subst hobj
  refine ⟨h'.spaces.trans h.spaces, h'.objs.trans h.objs, h'.nobjs.trans h.nobjs, h'.vmas.trans h.vmas,
    h'.disk.trans h.disk, h'.num.trans h.num, h'.temp_c.trans h.temp_c, h'.busy.trans h.busy, h'.dirty.trans h.dirty,
    h'.mem.trans h.mem, fun x hx => ?_, h.pagedir.trans h'.pagedir, ?_, ?_, h'.frames⟩
  · rw [h'.refcount x hx]
    simp [State.setRefcount, Function.update_of_ne hx, h.refcount]
  · have hp : s'.pframes = t.pframes.filter _ := h'.pframes
    rw [hp, h.pframes, hf.nodup.erase_eq_filter, List.filter_filter]
    refine List.filter_congr fun q _ => ?_
    by_cases e : q = pf
    · simp [e]
    · simp [e]
  · have hn : s'.mmo_nrespages = Function.update t.mmo_nrespages _ 0 := h'.nres
    rw [hn, h.nres, Function.update_idem]

@[simp] theorem setRefcount_self {n : Nat} : (s.setRefcount o n).mmo_refcount o = n := Function.update_self ..

theorem Steady.setRefcount (hs : Steady s) (o n : Nat) : Steady (s.setRefcount o n) :=
  ⟨hs.chains.congr rfl rfl, hs.frames.congr rfl rfl rfl rfl rfl rfl, hs.idle, hs.listed.congr rfl rfl⟩

/-- The first frame of `o`, if its count says it has one. -/
theorem first_frame (hf : Frames s) :
    (s.mmo_nrespages o = 0 ∧ s.pframes.find? (fun pf => decide (pf.pf_obj = o)) = none) ∨
      ∃ pf, s.pframes.find? (fun pf => decide (pf.pf_obj = o)) = some pf ∧ pf ∈ s.pframes ∧ pf.pf_obj = o ∧
        0 < s.mmo_nrespages o := by
  have hr := hf.resident o
  cases h : s.pframes.find? (fun pf => decide (pf.pf_obj = o)) with
  | none =>
    refine .inl ⟨?_, rfl⟩
    rw [hr, List.countP_eq_zero]
    exact List.find?_eq_none.1 h
  | some pf =>
    have hm := List.mem_of_find?_eq_some h
    have ho : pf.pf_obj = o := by simpa using List.find?_some h
    refine .inr ⟨pf, rfl, hm, ho, ?_⟩
    rw [hr]
    exact List.countP_pos_iff.2 ⟨pf, hm, by simpa using ho⟩

/-- `num` counts a page up and down again before it is freed. -/
theorem numbered_unpin {pg : Nat} (hnum : s.num = 0) (hp : pg ∈ s.pinned_list) (h1 : s.pf_pincount pg = 1) :
    (pframe_unpin (s.setNum (s.num + 1)) pg).setNum ((pframe_unpin (s.setNum (s.num + 1)) pg).num - 1) =
      pframe_unpin s pg := by
  rw [pframe_unpin_once hp h1, pframe_unpin_once (s := s.setNum (s.num + 1)) hp h1]
  simp [State.setNum, hnum]

/-- The loop of `shadow_put` over `k` pages: every page freed puts the object
again, and that call frees the pages that are left. -/
theorem shadow_free_pages_total (hs : ob.mmo_ops = .shadow) : ∀ (k n : Nat) {s : State}, 2 * k + 1 ≤ n → Steady s →
    s.objs o = some ob → s.num = 0 → s.mmo_nrespages o = k → s.mmo_refcount o = k →
    ∃ s', shadow_free_pages n s o = some s' ∧ Emptied s o s' ∧ s'.mmo_refcount o = 0 := by
  intro k
  induction k with
  | zero =>
    intro n s hn hst ho _ hk hr
    obtain ⟨n, rfl⟩ : ∃ i, n = i + 1 := ⟨n - 1, by omega⟩
    rcases first_frame (o := o) hst.frames with ⟨-, hf⟩ | ⟨pf, -, -, -, hpos⟩
    · refine ⟨s, by simp [shadow_free_pages, hf], ?_, hr⟩
      have := Emptied.none hst.frames hk 0
      rwa [State.setRefcount, ← hr, Function.update_eq_self] at this
    · omega
  | succ k ih =>
    intro n s hn hst ho hnum hk hr
    obtain ⟨n, rfl⟩ : ∃ i, n = i + 1 + 1 := ⟨n - 2, by omega⟩
    rcases first_frame (o := o) hst.frames with ⟨h0, -⟩ | ⟨pf, hf, hm, hobj, -⟩
    · omega
    · have hfile : ob.isFile = false := by simp [Mmobj.isFile, hs]
      obtain ⟨t, hrel, hd⟩ := release_pinned hst hm (by rw [hobj]; exact ho) hfile
      have hst₁ := hd.steady hst hm
      have hnt : t.mmo_nrespages o = k := by rw [hd.nres, hobj, Function.update_self]; omega
      have hrt : t.mmo_refcount o = k + 1 := by rw [hd.refcount]; exact hr
      have hnumt : t.num = 0 := hd.num.trans hnum
      have hot : t.objs o = some ob := (congrFun hd.objs o).trans ho
      -- the nested call of `put` frees the other pages
      obtain ⟨s', hfree, he, hr'⟩ := ih n (by omega) (hst₁.setRefcount o k) hot hnumt hnt setRefcount_self
      have hput : mmobj_put (n + 1) t o = some s' := by
        have hnum' : s'.num = 0 := he.num.trans hnumt
        have hkr : (t.setRefcount o k).mmo_nrespages o = (t.setRefcount o k).mmo_refcount o :=
          hnt.trans setRefcount_self.symm
        simp only [mmobj_put, hot, hs, KASSERT, hrt, Nat.succ_pos, if_true, Nat.add_sub_cancel, hkr, hfree, hnum', bind,
          Option.bind_some]
      have hend : shadow_free_pages (n + 1) s' o = some s' := by
        rcases first_frame (o := o) he.frames with ⟨-, hf'⟩ | ⟨q, -, -, -, hpos⟩
        · simp [shadow_free_pages, hf']
        · rw [he.nres, Function.update_self] at hpos
          omega
      refine ⟨s', ?_, hd.emptied hst.frames hobj he, hr'⟩
      obtain ⟨h1, h2, -⟩ := hst.frames.pinned pf hm ob (by rw [hobj]; exact ho) hfile
      have hunpin := numbered_unpin hnum h2 h1
      have hidle : (pframe_unpin (s.setNum (s.num + 1)) pf.pf_addr).pf_busy pf.pf_addr = false := by
        rw [pframe_unpin_once (s := s.setNum (s.num + 1)) h2 h1]
        exact hst.idle pf hm
      rw [shadow_free_pages]
      simp only [hf, waitNotBusy, hidle, KASSERT, if_true, hunpin, hrel, hput, hend, bind, Option.bind_some]

/-- `vput` only counts while the file is linked or something else refers to it. -/
theorem vput_counts {vn : Nat} (ho : s.objs o = some ob) (hs : ob.mmo_ops = .vnode vn)
    (hr : s.mmo_nrespages o < s.mmo_refcount o)
    (hne : ¬ (s.mmo_nrespages o = s.mmo_refcount o - 1 ∧ (s.vnodes vn).query_vnode = false)) (n : Nat) :
    mmobj_put (n + 1) s o = some (s.setRefcount o (s.mmo_refcount o - 1)) := by
  rw [mmobj_put]
  simp only [ho, hs, KASSERT, hr, if_true, if_neg hne, bind, Option.bind_some, setRefcount_self]
  by_cases h1 : 0 < s.mmo_refcount o - 1
  · rw [if_pos h1]
  · have h0 : (s.setRefcount o (s.mmo_refcount o - 1)).mmo_nrespages o = 0 := by
      show s.mmo_nrespages o = 0
      omega
    rw [if_neg h1, if_pos h0, Option.bind_some]

/-- The loop of `vput` over `k` pages, while one reference besides theirs is held. -/
theorem vnode_free_pages_total {vn : Nat} (hs : ob.mmo_ops = .vnode vn) : ∀ (k n : Nat) {s : State}, k + 2 ≤ n →
    Steady s → s.objs o = some ob → s.mmo_nrespages o = k → s.mmo_refcount o = k + 1 →
    ∃ s', vnode_free_pages n s o = some s' ∧ Emptied s o s' ∧ s'.mmo_refcount o = 1 := by
  intro k
  induction k with
  | zero =>
    intro n s hn hst ho hk hr
    obtain ⟨n, rfl⟩ : ∃ i, n = i + 1 := ⟨n - 1, by omega⟩
    rcases first_frame (o := o) hst.frames with ⟨-, hf⟩ | ⟨pf, -, -, -, hpos⟩
    · refine ⟨s, by simp [vnode_free_pages, hf], ?_, hr⟩
      have := Emptied.none hst.frames hk (s.mmo_refcount o)
      rwa [State.setRefcount, Function.update_eq_self] at this
    · omega
  | succ k ih =>
    intro n s hn hst ho hk hr
    obtain ⟨n, rfl⟩ : ∃ i, n = i + 1 + 1 := ⟨n - 2, by omega⟩
    rcases first_frame (o := o) hst.frames with ⟨h0, -⟩ | ⟨pf, hf, hm, hobj, -⟩
    · omega
    · have hfile : ob.isFile = true := by simp [Mmobj.isFile, hs]
      obtain ⟨t, hrel, hd⟩ := release_file hst hm (by rw [hobj]; exact ho) hfile
      have hst₁ := hd.steady hst hm
      have hnt : t.mmo_nrespages o = k := by rw [hd.nres, hobj, Function.update_self]; omega
      have hrt : t.mmo_refcount o = k + 1 + 1 := by rw [hd.refcount]; exact hr
      have hot : t.objs o = some ob := (congrFun hd.objs o).trans ho
      -- the nested call of `put` only counts
      have hput : mmobj_put (n + 1) t o = some (t.setRefcount o (k + 1)) := by
        rw [vput_counts hot hs (by omega) (by omega), hrt, Nat.add_sub_cancel]
      obtain ⟨s', hfree, he, hr'⟩ := ih (n + 1) (by omega) (hst₁.setRefcount o (k + 1)) hot hnt setRefcount_self
      refine ⟨s', ?_, hd.emptied hst.frames hobj he, hr'⟩
      rw [vnode_free_pages]
      simp only [hf, waitNotBusy, hst.idle pf hm, KASSERT, if_true, hrel, hput, hfree, bind, Option.bind_some]

/-! ## Putting an object -/

/-- What `put` of `o` does: it counts, or it frees all pages of `o` when only these refer to it. -/
inductive PutEffect (s : State) (o : Nat) : State → Prop
  | counted : PutEffect s o (s.setRefcount o (s.mmo_refcount o - 1))
  | emptied {t : State} : s.mmo_refcount o = s.mmo_nrespages o + 1 → Emptied s o t → t.mmo_refcount o = 0 →
      PutEffect s o t

/-- No area has an anonymous object itself, so `anon_put` is left out. -/
theorem put_total (hst : Steady s) (hnum : s.num = 0) (ho : s.objs o = some ob) (hs : ob.mmo_ops ≠ .anon)
    (hr : s.mmo_nrespages o < s.mmo_refcount o) : ∃ s', put s o = some s' ∧ PutEffect s o s' := by
  have hpos : 0 < s.mmo_refcount o := by omega
  unfold put
  cases hops : ob.mmo_ops with
  | anon => exact absurd hops hs
  | shadow =>
    rw [mmobj_put]
    by_cases he : s.mmo_nrespages o = s.mmo_refcount o - 1
    · have hst' := hst.setRefcount o (s.mmo_refcount o - 1)
      have hkr : (s.setRefcount o (s.mmo_refcount o - 1)).mmo_refcount o = s.mmo_nrespages o := by simp [he]
      obtain ⟨s', hfree, hem, hr'⟩ := shadow_free_pages_total hops (s.mmo_nrespages o) (2 * s.mmo_nrespages o + 2)
        (by omega) hst' ho hnum rfl hkr
      have hnum' : s'.num = 0 := hem.num.trans hnum
      have hkr' : (s.setRefcount o (s.mmo_refcount o - 1)).mmo_nrespages o =
          (s.setRefcount o (s.mmo_refcount o - 1)).mmo_refcount o := hkr.symm
      refine ⟨s', ?_, .emptied (by omega) ?_ hr'⟩
      · simp only [ho, hops, KASSERT, hpos, if_true, hkr', hfree, hnum', bind, Option.bind_some]
      · exact { hem with refcount := fun x hx => (hem.refcount x hx).trans (Function.update_of_ne hx ..) }
    · have hkr : ¬ (s.setRefcount o (s.mmo_refcount o - 1)).mmo_nrespages o =
          (s.setRefcount o (s.mmo_refcount o - 1)).mmo_refcount o := fun h => he (h.trans setRefcount_self)
      refine ⟨_, ?_, .counted⟩
      simp only [ho, hops, KASSERT, hpos, if_true, hkr, if_false, bind, Option.bind_some]
  | vnode vn =>
    by_cases he : s.mmo_nrespages o = s.mmo_refcount o - 1 ∧ (s.vnodes vn).query_vnode = false
    · obtain ⟨s', hfree, hem, hr'⟩ := vnode_free_pages_total hops (s.mmo_nrespages o) (2 * s.mmo_nrespages o + 2)
        (by omega) hst ho rfl (by omega)
      have hn' : s'.mmo_nrespages o = 0 := by rw [hem.nres, Function.update_self]
      refine ⟨s'.setRefcount o 0, ?_, .emptied (by omega) ?_ setRefcount_self⟩
      · rw [mmobj_put]
        simp only [ho, hops, KASSERT, hr, if_true, if_pos he, hfree, hn', hr', bind, Option.bind_some, setRefcount_self,
          Nat.sub_self, Nat.lt_irrefl, if_false]
        rw [if_pos (by exact hn'), Option.bind_some]
      · exact { hem with
          refcount := fun x hx => (Function.update_of_ne hx ..).trans (hem.refcount x hx)
          frames := hem.frames.congr rfl rfl rfl rfl rfl rfl }
    · exact ⟨_, vput_counts ho hops hr he _, .counted⟩

namespace PutEffect

/-- Areas and objects stay as they are. -/
theorem rest (h : PutEffect s o t) : t.spaces = s.spaces ∧ t.objs = s.objs ∧ t.nobjs = s.nobjs ∧
    t.mmo_vmas = s.mmo_vmas ∧ t.num = s.num := by
  cases h with
  | counted => exact ⟨rfl, rfl, rfl, rfl, rfl⟩
  | emptied _ he => exact ⟨he.spaces, he.objs, he.nobjs, he.vmas, he.num⟩

theorem frames (h : PutEffect s o t) (hf : Frames s) : Frames t := by
  cases h with
  | counted => exact hf.congr rfl rfl rfl rfl rfl rfl
  | emptied _ he => exact he.frames

theorem idle (h : PutEffect s o t) (hi : Idle s) : Idle t := by
  cases h with
  | counted => exact hi
  | emptied _ he =>
    intro pf hm
    rw [he.busy]
    rw [he.pframes] at hm
    exact hi pf (List.mem_filter.1 hm).1

/-- Of the references besides its pages `o` has one less. -/
theorem counts (h : PutEffect s o t) (hr : 0 < s.mmo_refcount o) (x : Nat) :
    t.mmo_refcount x + s.mmo_nrespages x + (if x = o then 1 else 0) = s.mmo_refcount x + t.mmo_nrespages x := by
  cases h with
  | counted =>
    by_cases e : x = o
    · subst e
      simp only [setRefcount_self, if_true]
      show s.mmo_refcount x - 1 + s.mmo_nrespages x + 1 = s.mmo_refcount x + s.mmo_nrespages x
      omega
    · simp [State.setRefcount, e]
  | emptied h1 he h2 =>
    rw [he.nres]
    by_cases e : x = o
    · subst e
      simp only [Function.update_self, if_true]
      omega
    · simp [he.refcount x e, e]

end PutEffect

end Weenix.Vm
