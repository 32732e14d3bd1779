import Weenix.Vm.FlatForking
import Weenix.Vm.SureFills
import Weenix.Vm.WriteBytes
/-!
# Flat memory across loads and stores

A fault brings in frames. A read fault changes no page; a write fault may make
the page the process's own, with what it held, before the store changes it.
-/

namespace Weenix.Vm

open Lib Lib.Intervals

variable {C : Config} {E : Env} {s s' t : State} {o b x pn k m p v vn vaddr : Nat} {a c d : VmArea} {pr : Proc} {ob : Mmobj} {pf : Pframe}
  {held : Nat → Int} {cause : Cause}

/-! ## New frames -/

theorem slot_rights {q : Nat} {y : Slot} (hy : s'.flat.slot q v = some y) (hprocs : s'.procs = s.procs)
    (hlist : s'.vmm_list = s.vmm_list) : ∃ z, s.flat.slot q v = some z ∧ z.write = y.write := by
  cases hq : s.procs q with
  | none =>
    rw [Flat.slot, flat_none (by rw [hprocs, hq])] at hy
    cases hy
  | some pr =>
    rw [flat_slot (by rw [hprocs, hq])] at hy
    rw [flat_slot hq]
    obtain ⟨y', hy', hslot⟩ := Option.bind_eq_some_iff.1 hy
    obtain ⟨o, ho, rfl⟩ := Option.map_eq_some_iff.1 hslot
    rw [target_congr (congrFun hlist _)] at hy'
    exact ⟨⟨s.cell o y'.2.1, y'.2.2.2.shared, y'.2.2.1.write⟩, by simp only [State.slots, hy', Option.bind_some, ho, Option.map_some], rfl⟩

theorem State.Home.same (h : s.Home o pn) (hobjs : s'.objs = s.objs) (hv : s'.vnodes = s.vnodes) : s'.Home o pn := by
  intro b vn hb hvn
  rw [hv]
  rw [bottomOf_congr hobjs] at hb
  exact h b vn hb (by simpa only [State.FileOf, hobjs] using hvn)

theorem State.Fits.same {y : Option Nat × Nat × Prot × MapFlags} (h : s.Fits y) (hobjs : s'.objs = s.objs) (hv : s'.vnodes = s.vnodes) :
    s'.Fits y := by
  obtain ⟨o, ho, hhome, hkind⟩ := h.home
  exact ⟨⟨o, ho, hhome.same hobjs hv, by simpa only [State.IsFile, hobjs] using hkind⟩, h.read⟩

/-- New frames, filled with what their pages are, and new entries of the page tables. -/
theorem Mirrored.grow (h : Mirrored C held s) (hg : Grown s t) (hfill : Filled s t)
    (hhome : ∀ q ∈ t.pframes, q ∈ s.pframes ∨ s.Home q.pf_obj q.pf_pagenum) (pd : Nat → Nat → Option Pte)
    (hst : Stays State.reads C held s { t with p_pagedir := pd }) (hmarked : Marked { t with p_pagedir := pd })
    (hright : ∀ q v pte, pd q v = some pte → pte.pt_write = true → s.p_pagedir q v = some pte ∨
      ∀ y, s.flat.slot q v = some y → y.write = true) : Mirrored C held { t with p_pagedir := pd } := by
  have hv : t.vnodes = s.vnodes := congrArg Spaces.vnodes hg.spaces
  have hlist : t.vmm_list = s.vmm_list := congrArg Spaces.vmm_list hg.spaces
  have hprocs : t.procs = s.procs := congrArg Spaces.procs hg.spaces
  have hfiles : t.files = s.files := congrArg Spaces.files hg.spaces
  have hof {o vn : Nat} : t.FileOf o vn ↔ s.FileOf o vn := by simp only [State.FileOf, hg.objs]
  refine ⟨hst.linked, hmarked, fun vn => by show (t.vnodes vn).query_vnode = true; rw [hv]; exact h.stays vn, fun vn o ho => ?_,
    fun m v y hy => ?_, fun pf hpf => ?_, fun pf hpf vn hvn hd => ?_, fun q v pte hpte hw y hy => ?_,
    ⟨by show ∀ f fl, t.files f = some fl → _; rw [hfiles]; exact h.opened.counted,
      by show ∀ p pr fd f, t.procs p = some pr → _ → t.files f ≠ none; rw [hprocs, hfiles]; exact h.opened.live⟩⟩
  · have ho : (t.vnodes vn).vn_mmap = some (.ok o) := ho
    rw [hv] at ho
    exact hof.2 (h.own vn o ho)
  · have hy : t.target m v = some y := hy
    rw [target_congr (congrFun hlist m)] at hy
    obtain ⟨h1, h2⟩ := (h.fits m v y hy).same hg.objs hv
    exact ⟨h1, h2⟩
  · have hold : s.Home pf.pf_obj pf.pf_pagenum := by
      rcases hhome pf hpf with hm | hh
      · exact h.placed pf hm
      · exact hh
    exact hold.same hg.objs hv
  · have hvn : s.FileOf pf.pf_obj vn := hof.1 hvn
    have hpf : pf ∈ t.pframes := hpf
    show t.mem pf.pf_addr = t.disk vn (PN_TO_ADDR pf.pf_pagenum)
    rw [hg.disk]
    rcases hfill pf hpf with hm | ⟨hmem, -⟩
    · rw [hg.mem pf hm]
      exact h.saved pf hm vn hvn (by rw [← hg.dirty pf hm]; exact hd)
    · rcases hg.filled pf hpf with hm | ⟨hnone, -⟩
      · rw [hg.mem pf hm]
        exact h.saved pf hm vn hvn (by rw [← hg.dirty pf hm]; exact hd)
      · -- a new page of a file is read from the disk
        have hc := h.backing.chains
        rw [hmem, hc.page_root hnone (hc.file_root hvn.isFile)]
        obtain ⟨ob, hob, hops⟩ := hvn
        simp only [State.source, hob, Option.map_some, hops]
  · obtain ⟨z, hz, e⟩ := slot_rights hy hprocs hlist
    rw [← e]
    rcases hright q v pte hpte hw with hold | hnew
    · exact h.rights q v pte hold hw z hz
    · exact hnew z hz

/-- A process shows what it did where its map and the cells are as they were. -/
theorem flatProc_congr (hfiles : s'.files = s.files) (hlist : s'.vmm_list pr.p_vmmap = s.vmm_list pr.p_vmmap)
    (hcell : ∀ a ∈ s.vmm_list pr.p_vmmap, ∀ v, a.Has v → ∀ o, a.vma_obj = some o → s'.cell o (a.pagenum v) = s.cell o (a.pagenum v)) :
    s'.flatProc pr = s.flatProc pr := by
  unfold State.flatProc
  congr 1
  · funext v
    refine slots_congr (target_congr hlist v) fun y hy o ho => ?_
    rw [target_congr hlist] at hy
    obtain ⟨a, ha, hav, rfl⟩ := target_some hy
    exact hcell a ha v hav o ho
  · funext fd
    simp only [State.fdTable, hfiles]

theorem Grown.fileData (h : Grown s t) (hfill : Filled s t) (hc : Chains s) (hf : Frames s) (hf' : Frames t) : t.fileData = s.fileData := by
  have hv : t.vnodes = s.vnodes := congrArg Spaces.vnodes h.spaces
  funext vn pn
  exact fileData_congr hv fun o _ => h.page_filled hfill hc hf hf' o pn

/-- Frames at the ends of the chains change nothing that is shown. -/
theorem Grown.flat (h : Grown s t) (hfill : Filled s t) (hB : Backing C held s) (hf' : Frames t)
    (hnew : ∀ q ∈ t.pframes, q ∈ s.pframes ∨ s.parent q.pf_obj = none) : t.flat = s.flat := by
  have hprocs : t.procs = s.procs := congrArg Spaces.procs h.spaces
  unfold State.flat
  rw [h.fileData hfill hB.chains hB.frames hf', hprocs]
  congr 1
  funext p
  congr 1
  funext pr
  refine flatProc_congr (congrArg Spaces.files h.spaces) (congrFun (congrArg Spaces.vmm_list h.spaces) _) fun a _ v _ o _ => ?_
  exact h.cell hfill hB.chains hB.frames hf' fun q hq => (hnew q hq).imp_right .inl

/-! ## One page -/

/-- What changes page `a.pagenum v` of the object of a private area `a` changes page `v` of the process. -/
theorem Mirrored.flat_own (h : Mirrored C held s) (s' : State) (hpr : s.procs p = some pr) (ha : a ∈ s.vmm_list pr.p_vmmap) (hv : a.Has v)
    (ho : a.vma_obj = some o) (hpriv : a.vma_flags.shared = false) (hprocs : s'.procs = s.procs) (hlist : s'.vmm_list = s.vmm_list)
    (hfiles : s'.files = s.files) (hdata : s'.fileData = s.fileData)
    (hcells : ∀ x k, ¬ (Layers.Reaches s.parent x o ∧ k = a.pagenum v) → s'.cell x k = s.cell x k) {y : Page}
    (hself : s'.cell o (a.pagenum v) = .own y) : s'.flat = s.flat.setPages p (s.flatProc pr)
      (Function.update (s.slots pr.p_vmmap) v (some ⟨.own y, false, a.vma_prot.write⟩)) := by
  have hL := h.backing.layout
  -- whoever reads through to `o` is this area, at this page
  have hkept {m w : Nat} {d : VmArea} (hne : ¬ (m = pr.p_vmmap ∧ w = v)) (hd : d ∈ s.vmm_list m) (hdw : d.Has w) {x : Nat}
      (hdo : d.vma_obj = some x) : s'.cell x (d.pagenum w) = s.cell x (d.pagenum w) := by
    refine hcells x _ fun ⟨hreach, e⟩ => hne ?_
    have hxo := h.apart.reached ha hpriv ho hreach
    obtain ⟨hm, hdelta⟩ := h.apart.once _ a ha hpriv o ho m d hd (by rw [hdo, hxo])
    exact ⟨hm, pagenum_inj hdelta e (hL.page_lt ha hv) (hL.page_lt hd hdw)⟩
  refine flat_update (fun q hq => ?_) ?_ hdata
  · rw [hprocs]
    cases hq' : s.procs q with
    | none => rfl
    | some pr' =>
      rw [Option.map_some, Option.map_some, flatProc_congr hfiles (congrFun hlist _)]
      intro d hd w hdw x hdo
      exact hkept (fun e => hq (h.owned.own q p pr' pr hq' hpr e.1)) hd hdw hdo
  · rw [hprocs, hpr, Option.map_some]
    congr 1
    unfold State.flatProc
    congr 1
    · funext w
      by_cases e : w = v
      · subst e
        have hpr' : s'.target pr.p_vmmap w = some (a.target w) := (target_congr (congrFun hlist _) w).trans (target_of hL ha hv)
        rw [Function.update_self]
        simp only [State.slots, hpr', Option.bind_some, VmArea.target, ho, Option.map_some, hself, hpriv]
      · rw [Function.update_of_ne e]
        refine slots_congr (target_congr (congrFun hlist _) w) fun y hy x hx => ?_
        rw [target_congr (congrFun hlist _)] at hy
        obtain ⟨d, hd, hdw, rfl⟩ := target_some hy
        exact hkept (fun h => e h.2) hd hdw hx
    · funext fd
      simp only [State.fdTable, hfiles]

theorem Flat.change_id_file {M : Flat} {vn pn : Nat} {w : Bool} (h : M.slot p v = some ⟨.file vn pn, true, w⟩) : M.change p v id = M := by
  rw [Flat.change_file h, id_eq, Function.update_eq_self, Function.update_eq_self]

/-- The slot of a page, seen from the state. -/
theorem Mirrored.slot (h : Mirrored C held s) (hpr : s.procs p = some pr) (ha : a ∈ s.vmm_list pr.p_vmmap) (hv : a.Has v)
    (ho : a.vma_obj = some o) : s.flat.slot p v = some ⟨s.cell o (a.pagenum v), a.vma_flags.shared, a.vma_prot.write⟩ := by
  rw [flat_slot hpr, slots_of h.backing.layout ha hv ho]

theorem Mirrored.change_own (h : Mirrored C held s) (hpr : s.procs p = some pr) (ha : a ∈ s.vmm_list pr.p_vmmap) (hv : a.Has v)
    (ho : a.vma_obj = some o) (hpriv : a.vma_flags.shared = false) (g : Page → Page) :
    s.flat.change p v g = s.flat.setPages p (s.flatProc pr)
      (Function.update (s.slots pr.p_vmmap) v (some ⟨.own (g (s.page o (a.pagenum v))), false, a.vma_prot.write⟩)) := by
  have hslot := slots_of h.backing.layout ha hv ho
  rw [Flat.change_own (flat_procs hpr) hslot hpriv]
  show s.flat.setPages p _ (Function.update (s.slots pr.p_vmmap) v (some ⟨.own (g ((s.cell o _).look s.fileData)), _, _⟩)) = _
  rw [h.backing.chains.cell_look (h.home ha hv ho), hpriv]

/-- Getting the frame of a page makes the page the process's own, if it is private. -/
theorem Mirrored.got_flat (h : Mirrored C held s) (hpr : s.procs p = some pr) (ha : a ∈ s.vmm_list pr.p_vmmap) (hv : a.Has v)
    (ho : a.vma_obj = some o) (hgot : Got s o (a.pagenum v) t pf) (hfill : Filled s t) : t.flat = s.flat.change p v id := by
  have hB := h.backing
  have hc := hB.chains
  have hsp := hgot.grown.spaces
  have hkind := h.kind ha hv ho
  have hbottom {b : Nat} (hb : s.bottomOf o = some b) : s.parent b = none := hc.parent_bottom hb
  by_cases hfile : s.IsFile o
  · obtain ⟨vn, hvn⟩ := hfile.fileOf
    have hslot : s.flat.slot p v = some ⟨.file vn (a.pagenum v), true, a.vma_prot.write⟩ := by
      rw [h.slot hpr ha hv ho, hc.cell_file hvn, hkind.2 hfile]
    rw [Flat.change_id_file hslot]
    refine hgot.grown.flat hfill hB hgot.frames fun q hq => (hgot.only q hq).imp_right fun hnew => ?_
    rcases hnew.2 with e | hb
    · rw [e]
      exact hc.file_root hfile
    · exact hbottom hb
  · have hpriv : a.vma_flags.shared = false := by simpa using fun e => hfile (hkind.1 e)
    rw [h.change_own hpr ha hv ho hpriv]
    refine h.flat_own _ hpr ha hv ho hpriv (congrArg Spaces.procs hsp) (congrArg Spaces.vmm_list hsp) (congrArg Spaces.files hsp)
      (hgot.grown.fileData hfill hc hB.frames hgot.frames) (fun x k hx => ?_) (hgot.cell hfill hc hB.frames hfile)
    refine hgot.grown.cell hfill hc hB.frames hgot.frames fun q hq => (hgot.only q hq).imp_right fun hnew => ?_
    rcases hnew.2 with e | hb
    · exact .inr fun hq => hx ⟨e ▸ hq.1, hq.2.symm.trans hnew.1⟩
    · exact .inl (hbottom hb)

/-! ## Writing in a frame -/

/-- What the page of a frame holds, and marks of its being dirty. -/
theorem Mirrored.altered (h : Mirrored C held s) (hm : pf ∈ s.pframes) (y : Page) (b d : Nat → Bool) (n : Nat)
    (hL : Linked State.reads C held { s with mem := Function.update s.mem pf.pf_addr y, pf_busy := b, pf_dirty := d, clock := n })
    (hM : Marked { s with mem := Function.update s.mem pf.pf_addr y, pf_busy := b, pf_dirty := d, clock := n })
    (hd : ∀ pg, s.pf_dirty pg = true → d pg = true) (hfile : s.IsFile pf.pf_obj → d pf.pf_addr = true) :
    Mirrored C held { s with mem := Function.update s.mem pf.pf_addr y, pf_busy := b, pf_dirty := d, clock := n } := by
  refine ⟨hL, hM, h.stays, h.own, fun m v z hz => ?_, fun q hq => (h.placed q hq).same rfl rfl, fun q hq vn hvn hclean => ?_,
    fun q v pte hpte hw z hz => ?_, ⟨h.opened.counted, h.opened.live⟩⟩
  · obtain ⟨h1, h2⟩ := h.fits m v z hz
    exact ⟨h1, h2⟩
  · have hclean : d q.pf_addr = false := hclean
    have hne : q.pf_addr ≠ pf.pf_addr := fun e => by
      cases h.backing.frames.addr_inj hq hm e
      rw [hfile hvn.isFile] at hclean
      cases hclean
    refine (Function.update_of_ne hne ..).trans (h.saved q hq vn hvn ?_)
    by_contra hdirty
    rw [Bool.not_eq_false] at hdirty
    rw [hd _ hdirty] at hclean
    cases hclean
  · obtain ⟨z', hz', e⟩ := slot_rights (s := s) hz rfl rfl
    rw [← e]
    exact h.rights q v pte hpte hw z' hz'

theorem Mirrored.setMem (h : Mirrored C held s) (hm : pf ∈ s.pframes) (hd : s.IsFile pf.pf_obj → s.pf_dirty pf.pf_addr = true)
    (y : Page) : Mirrored C held (s.setMem pf.pf_addr y) :=
  h.altered hm y s.pf_busy s.pf_dirty s.clock (h.toLinked.setMem onChain_reads pf.pf_addr y).linked (h.marked.setMem _ _)
    (fun _ hd => hd) hd

theorem setMem_fileData (hc : Chains s) (hf : Frames s) (hm : pf ∈ s.pframes) (hfile : ¬ s.IsFile pf.pf_obj) (hfiles : FileObjs s) (y : Page) :
    (s.setMem pf.pf_addr y).fileData = s.fileData := by
  obtain ⟨-, hrest⟩ := wrote_page hc hf ((frame?_eq_some hf).2 ⟨hm, rfl, rfl⟩) y 0
  funext vn k
  refine fileData_congr rfl fun x hx => hrest x k fun _ hsees => hfile ?_
  obtain ⟨ob, hob, hisFile⟩ := hfiles vn x hx
  have hx : s.IsFile x := ⟨ob, hob, hisFile⟩
  rwa [Layers.reaches_root (hc.file_root hx) (Layers.sees_reaches hsees)]

/-- Writing in the frame of a page writes in the page of the process. -/
theorem Mirrored.setMem_flat (h : Mirrored C held s) (hpr : s.procs p = some pr) (ha : a ∈ s.vmm_list pr.p_vmmap) (hv : a.Has v)
    (ho : a.vma_obj = some o) (hfr : s.frame? o (a.pagenum v) = some pf) (g : Page → Page) :
    (s.setMem pf.pf_addr (g (s.mem pf.pf_addr))).flat = s.flat.change p v g := by
  have hB := h.backing
  have hc := hB.chains
  obtain ⟨hm, hobj, hpn⟩ := (frame?_eq_some hB.frames).1 hfr
  have hpage : s.page o (a.pagenum v) = s.mem pf.pf_addr := hc.page_own hfr
  have hkind := h.kind ha hv ho
  by_cases hfile : s.IsFile o
  · obtain ⟨vn, hvn⟩ := hfile.fileOf
    obtain ⟨hmap, hlt⟩ := h.home ha hv ho o vn (hc.bottom_file hvn) hvn
    have hslot := h.slot hpr ha hv ho
    rw [hc.cell_file hvn, hkind.2 hfile] at hslot
    rw [Flat.change_file hslot]
    have hdata : s.flat.data vn (a.pagenum v) = s.mem pf.pf_addr := by
      rw [← hpage]
      exact (h.home ha hv ho).fileData (hc.bottom_file hvn) hvn
    rw [hdata]
    obtain ⟨hseen, hrest⟩ := wrote_page hc hB.frames hfr (g (s.mem pf.pf_addr)) 0
    have hprocs : (fun p => (s.procs p).map (s.setMem pf.pf_addr (g (s.mem pf.pf_addr))).flatProc) = fun p => (s.procs p).map s.flatProc := by
      funext q
      congr 1
      funext pr'
      exact flatProc_congr rfl rfl fun d _ w _ z _ => setMem_cell hc hB.frames hm _ (.inl (hobj ▸ hfile))
    unfold State.flat
    rw [show (s.setMem pf.pf_addr (g (s.mem pf.pf_addr))).procs = s.procs from rfl, hprocs]
    congr 1
    funext vn' k
    by_cases e : vn' = vn
    · subst e
      rw [Function.update_self]
      by_cases ek : k = a.pagenum v
      · subst ek
        rw [Function.update_self, fileData_of (s := s.setMem pf.pf_addr (g (s.mem pf.pf_addr))) hmap, if_pos hlt]
        exact hseen o .refl
      · rw [Function.update_of_ne ek]
        refine fileData_congr rfl fun x hx => hrest x k fun e' _ => ek e'
    · rw [Function.update_of_ne e]
      refine fileData_congr rfl fun x hx => hrest x k fun _ hsees => e ?_
      have hxf := h.own vn' x hx
      obtain rfl := Layers.reaches_root (hc.file_root hxf.isFile) (Layers.sees_reaches hsees)
      exact State.FileOf.unique hvn hxf
  · have hpriv : a.vma_flags.shared = false := by simpa using fun e => hfile (hkind.1 e)
    have hc' : Chains (s.setMem pf.pf_addr (g (s.mem pf.pf_addr))) := hc.congr rfl rfl
    rw [h.change_own hpr ha hv ho hpriv, hpage]
    refine h.flat_own (s.setMem pf.pf_addr (g (s.mem pf.pf_addr))) hpr ha hv ho hpriv rfl rfl rfl (setMem_fileData hc hB.frames hm (hobj ▸ hfile) h.files _) (fun x k hx => ?_) ?_
    · refine setMem_cell hc hB.frames hm _ (.inr fun ⟨hreach, e⟩ => hx ⟨hobj ▸ hreach, ?_⟩)
      rw [← e, hpn]
    · rw [@Chains.cell_own _ o _ pf hc' hfile hfr]
      exact congrArg Cell.own (Function.update_self ..)

/-! ## Faults -/

theorem Filled.trans (h : Filled s t) (h' : Filled t s') (hg : Grown s t) (hg' : Grown t s') (hc : Chains s) (hf : Frames s)
    (ht : Frames t) : Filled s s' := by
  intro q hq
  rcases h' q hq with hqt | ⟨hmem, hd⟩
  · exact (h q hqt).imp_right fun ⟨hmem, hd⟩ => ⟨(hg'.mem q hqt).trans hmem, (hg'.dirty q hqt).trans hd⟩
  · exact .inr ⟨hmem.trans (hg.page_filled h hc hf ht _ _), hd⟩

/-- Looking a page up brings in frames at the end of the chain only. -/
theorem shadow_resolve_sure (hio : ∀ n, E.io n = true) (hc : Chains s) (hf : Frames s) (hi : Idle s) (ho : s.objs o = some ob)
    (hs : ob.mmo_ops = .shadow) (hb : s.bottomOf o = some b) (hr : 0 < s.mmo_refcount b) (h : shadow_resolve E s o pn = some (t, pf)) :
    Filled s t ∧ ∀ q ∈ t.pframes, q ∈ s.pframes ∨ s.parent q.pf_obj = none := by
  obtain ⟨r, hwalk, -, h2⟩ := hc.walk pn hb (chainFuel o) (by unfold chainFuel; omega)
  simp only [shadow_resolve, ho, bind, Option.bind_some, hwalk] at h
  cases r with
  | inl q =>
    cases h
    exact ⟨fun q hq => .inl hq, fun q hq => .inl hq⟩
  | inr y =>
    obtain ⟨rfl, -⟩ := h2 y rfl
    obtain ⟨below, b', e1, -, -, e4⟩ := hc.shadow o ob ho hs
    have hbo : ob.mmo_bottom_obj = some y := by rw [← hb, Chains.bottom_shadow ho e1]
    obtain ⟨obb, hob, hobs⟩ := hc.bottom_obj hb
    have hbb := hc.bottom_root hob hobs
    obtain ⟨s₁, pf₁, ok, hget, hgot, hfill⟩ := pframe_get_sure hio pn hc hf hi hbb hr hr
    simp only [hbo, Option.bind_some, hget, Option.some.injEq, Prod.mk.injEq] at h
    obtain ⟨rfl, rfl⟩ := h
    refine ⟨hfill, fun q hq => (hgot.only q hq).imp_right fun hnew => ?_⟩
    rcases hnew.2 with e | hb'
    · rw [e]
      exact hc.parent_bottom hbb
    · exact hc.parent_bottom hb'

/-- The frame of a fault: a read brings in frames at the end of the chain only, and a write gets the page's own frame. -/
theorem fault_frame_sure (hio : ∀ n, E.io n = true) (h : Backing C held s) (hheld : ∀ o, 0 ≤ held o) (ha : a ∈ s.vmm_list m)
    (ho : a.vma_obj = some o) {w : Bool} (hframe : fault_frame E s a vaddr w = some (t, pf)) :
    Looked s o (fault_pagenum a vaddr) t pf ∧ Filled s t ∧ (w = true → Got s o (fault_pagenum a vaddr) t pf) ∧
      (w = false → ∀ q ∈ t.pframes, q ∈ s.pframes ∨ s.parent q.pf_obj = none) := by
  have hc := h.chains
  obtain ⟨ob, hob, -⟩ := h.hung.areas m a ha o ho
  have hr : 0 < s.mmo_refcount o := Nat.zero_lt_of_lt (h.area_pos hheld ha ho)
  obtain ⟨b, hb⟩ := hc.bottom hob
  have hrb := h.bottom_pos hheld hb hr
  obtain ⟨t', pf', hframe', hlook, hw⟩ := fault_frame_looked (E := E) vaddr h hheld ha ho w
  rw [hframe] at hframe'
  cases hframe'
  have hown (hobj : pf.pf_obj = o) : Got s o (fault_pagenum a vaddr) t pf := by
    obtain ⟨y, -, hy⟩ := Layers.find_reaches (hlook.grown.chains hc).grounded hlook.found
    obtain ⟨-, rfl, -⟩ := (frame?_eq_some hlook.frames).1 hy
    exact ⟨hlook.grown, hlook.frames, hobj ▸ hy, hlook.only⟩
  suffices hsure : Filled s t ∧ (w = false → ∀ q ∈ t.pframes, q ∈ s.pframes ∨ s.parent q.pf_obj = none) from
    ⟨hlook, hsure.1, fun e => hown (hw e), hsure.2⟩
  simp only [fault_frame, ho, hob, bind, Option.bind_some] at hframe
  cases hbelow : ob.mmo_shadowed with
  | none =>
    obtain ⟨s₁, pf₁, ok, hget, hgot, hfill⟩ := pframe_get_sure hio (fault_pagenum a vaddr) hc h.frames h.idle hb hr hrb
    simp only [hbelow, hget, Option.bind_some, Option.some.injEq, Prod.mk.injEq] at hframe
    obtain ⟨rfl, rfl⟩ := hframe
    refine ⟨hfill, fun _ q hq => (hgot.only q hq).imp_right fun hnew => ?_⟩
    rcases hnew.2 with e | hb'
    · rw [e, Chains.parent_eq hob, hbelow]
    · exact hc.parent_bottom hb'
  | some below =>
    have hops : ob.mmo_ops = .shadow := by
      by_contra e
      rw [hc.root o ob hob e] at hbelow
      cases hbelow
    simp only [hbelow, shadow_lookuppage, bind, Option.bind_eq_some_iff, Prod.exists] at hframe
    obtain ⟨s₁, sp, hres, hframe⟩ := hframe
    obtain ⟨hfill₁, hroots⟩ := shadow_resolve_sure hio hc h.frames h.idle hob hops hb hrb hres
    obtain ⟨t', sp', hres', hl₁⟩ := shadow_resolve_total (E := E) (fault_pagenum a vaddr) hc h.frames h.idle hob hops hb hrb
    rw [hres] at hres'
    cases hres'
    split at hframe
    next hwrite =>
      have hg := hl₁.grown
      obtain ⟨s₂, pf₂, ok, hget, hgot, hfill⟩ := pframe_get_sure hio (fault_pagenum a vaddr) (hg.chains hc) hl₁.frames
        (hg.idle h.idle) (by rw [bottomOf_congr hg.objs]; exact hb) (hr.trans_le (hg.refcount_le o)) (hrb.trans_le (hg.refcount_le b))
      simp only [hget, Option.bind_some, Option.some.injEq, Prod.mk.injEq] at hframe
      obtain ⟨rfl, rfl⟩ := hframe
      refine ⟨hfill₁.trans hfill hg hgot.grown hc h.frames hl₁.frames, fun e => ?_⟩
      rw [e] at hwrite
      simp at hwrite
    next =>
      cases hframe
      exact ⟨hfill₁, fun _ => hroots⟩

/-- What a fault does: a store makes the page the process's own first. -/
inductive FaultShown (C : Config) (s : State) (p vaddr : Nat) (cause : Cause) (held : Nat → Int) (s' : State) : FaultResult → Prop
  | killed : exit_process C s p EFAULT = some s' →
      (∀ y, s.flat.slot p (ADDR_TO_PN vaddr) = some y → cause.write = true ∧ y.write = false) → FaultShown C s p vaddr cause held s' .killed
  | mapped : Mirrored C held s' →
      s'.flat = (if cause.write then s.flat.change p (ADDR_TO_PN vaddr) id else s.flat) → FaultShown C s p vaddr cause held s' .mapped

theorem pt_map_flat (s : State) (p v page : Nat) (w : Bool) : (s.pt_map p v page w).flat = s.flat := rfl

theorem Mirrored.fault (h : Mirrored C held s) (hio : ∀ n, E.io n = true) {r : FaultResult}
    (hcause : cause = {} ∨ (cause = storeCause s p vaddr ∧ MarkedStore s p vaddr))
    (hf : handle_pagefault C E s p vaddr cause = some (s', r)) : FaultShown C s p vaddr cause held s' r := by
  have hB := h.backing
  have hS := h.toLinked.fault onChain_reads hf
  have hstore (hw : cause.write = true) : cause = storeCause s p vaddr ∧ MarkedStore s p vaddr := by
    rcases hcause with rfl | hstore
    · cases hw
    · exact hstore
  have hM := (h.marked.fault (C := C) onChain_reads h.toLinked hstore hf).1
  cases handle_pagefault_effect hB.layout hf with
  | killed hx hno =>
    refine .killed hx fun y hy => ?_
    obtain ⟨x, hx, hv⟩ := Option.bind_eq_some_iff.1 hy
    cases hpr : s.procs p with
    | none =>
      rw [flat_none hpr] at hx
      cases hx
    | some pr =>
      rw [flat_slot hpr] at hy
      obtain ⟨z, hz, hslot⟩ := Option.bind_eq_some_iff.1 hy
      obtain ⟨o, -, rfl⟩ := Option.map_eq_some_iff.1 hslot
      have hread := (h.fits _ _ z hz).read
      obtain ⟨a, ha, hav, rfl⟩ := target_some hz
      have hgrant := hno pr a hpr ha hav
      rcases hcause with rfl | ⟨rfl, -⟩
      · rw [grants_plain] at hgrant
        cases hgrant
      · refine ⟨rfl, ?_⟩
        show a.vma_prot.write = false
        by_contra hw
        rw [Bool.not_eq_false] at hw
        have hr : a.vma_prot.read = true := hread hw
        simp [accessRight, storeCause, Prot.grants, hw, hr] at hgrant
  | mapped pr a t pf hpr ha hv hgrant hframe =>
    obtain ⟨o, ho, -⟩ := Option.bind_eq_some_iff.1 hframe
    obtain ⟨hlook, hfill, hgot, hroots⟩ := fault_frame_sure hio hB h.outside.nonneg ha ho hframe
    have hhome : s.Home o (a.pagenum (ADDR_TO_PN vaddr)) := h.home ha hv ho
    refine .mapped (h.grow (t := t) hlook.grown hfill (fun q hq => (hlook.only q hq).imp_right fun hnew => ?_) _ hS hM
      fun q w pte hpte hw => ?_) ?_
    · obtain ⟨hpn, hobj⟩ := hnew
      rw [show q.pf_pagenum = a.pagenum (ADDR_TO_PN vaddr) from hpn]
      rcases hobj with e | hb
      · rw [e]
        exact hhome
      · exact hhome.below hB.chains (hB.chains.reaches_bottom hb)
    · rcases pt_map_cases hpte with ⟨rfl, rfl, rfl⟩ | ⟨-, hold⟩
      · refine .inr fun y hy => ?_
        rw [h.slot hpr ha hv ho] at hy
        cases hy
        have hw : cause.write = true := hw
        simp [accessRight, Prot.grants, hw] at hgrant
        exact hgrant.1.2
      · exact .inl (hlook.grown.pagedir ▸ hold)
    · rw [pt_map_flat]
      cases hw : cause.write with
      | false => exact hlook.grown.flat hfill hB hlook.frames (hroots hw)
      | true => exact h.got_flat hpr ha hv ho (hgot hw) hfill

/-! ## Loads and stores -/

/-- What a load reads through an entry is what is behind the page. -/
theorem Mirrored.readPte (h : Mirrored C held s) {y : UInt8} (hr : readPte s p vaddr = some y) :
    ∃ z, s.flat.slot p (ADDR_TO_PN vaddr) = some z ∧ y = z.cell.look s.flat.data (vaddr % PAGE_SIZE) := by
  obtain ⟨pte, hpte, rfl⟩ := Option.map_eq_some_iff.1 hr
  obtain ⟨pr, a, o, pf, he⟩ := h.entries p _ pte hpte
  refine ⟨_, h.slot he.proc he.area he.has he.obj, ?_⟩
  show _ = (s.cell o _).look s.fileData _
  rw [h.backing.chains.cell_look (h.home he.area he.has he.obj), h.backing.chains.page_resolves he.frame, he.page]

/-- A store through an entry changes the page. -/
theorem Mirrored.writePte (h : Mirrored C held s) {y : UInt8} (hw : writePte s p vaddr y = some s') :
    (∃ z, s.flat.slot p (ADDR_TO_PN vaddr) = some z ∧ z.write = true) ∧ Mirrored C held s' ∧
      s'.flat = s.flat.change p (ADDR_TO_PN vaddr) (Function.update · (vaddr % PAGE_SIZE) y) := by
  obtain ⟨pte, hpte, hwr, rfl⟩ := writePte_cases hw
  obtain ⟨pr, a, o, pf, he⟩ := h.entries p _ pte hpte
  obtain ⟨hm, -, -⟩ := he.mem onChain_reads h.backing.chains h.backing.frames
  obtain ⟨x, -, hx⟩ := Layers.find_reaches h.backing.chains.grounded he.frame
  have hfr : s.frame? o (a.pagenum (ADDR_TO_PN vaddr)) = some pf := by
    obtain ⟨-, rfl, -⟩ := (frame?_eq_some h.backing.frames).1 hx
    rwa [← he.write hwr]
  have hslot := h.slot he.proc he.area he.has he.obj
  rw [← he.page]
  exact ⟨⟨_, hslot, h.rights p _ pte hpte hwr _ hslot⟩,
    h.setMem hm (fun hfile => h.marked p _ pte hpte hwr pf hm he.page hfile) _,
    h.setMem_flat he.proc he.area he.has he.obj hfr (Function.update · (vaddr % PAGE_SIZE) y)⟩

theorem Mirrored.load (h : Mirrored C held s) (hio : ∀ n, E.io n = true) {w : Outcome} (hl : userLoad C E s p vaddr = some (s', w)) :
    Mirrored C held s' ∧ flatStep s.flat (.load p vaddr) w = some s'.flat := by
  have hbyte {t : State} {y : UInt8} (ht : Mirrored C held t) (hflat : t.flat = s.flat) (hr : Vm.readPte t p vaddr = some y) :
      flatStep s.flat (.load p vaddr) (.byte y) = some t.flat := by
    obtain ⟨z, hz, hy⟩ := ht.readPte hr
    rw [hflat] at hz hy
    simp only [flatStep, hz, bind, Option.bind_some, if_pos hy, hflat]
  simp only [userLoad, bind] at hl
  split at hl
  next y hr =>
    cases hl
    exact ⟨h, hbyte h rfl hr⟩
  next =>
    simp only [Option.bind_eq_some_iff, Prod.exists] at hl
    obtain ⟨s₁, r, hf, hl⟩ := hl
    cases h.fault hio (.inl rfl) hf with
    | killed hx hno =>
      cases hl
      obtain ⟨h', hlive, hflat⟩ := h.exit hx
      have hnone : s.flat.slot p (ADDR_TO_PN vaddr) = none := by
        by_contra hsome
        obtain ⟨z, hz⟩ := Option.ne_none_iff_exists'.1 hsome
        cases (hno z hz).1
      have hproc : (s.flat.procs p).isSome = true := by
        show ((s.procs p).map _).isSome = true
        rwa [Option.isSome_map]
      refine ⟨h', ?_⟩
      simp only [flatStep, hproc, hnone, Option.isNone_none, and_self, if_true, hflat]
    | mapped h₁ hflat =>
      simp only [Option.bind_eq_some_iff, Option.some.injEq, Prod.mk.injEq] at hl
      obtain ⟨y, hr, rfl, rfl⟩ := hl
      exact ⟨h₁, hbyte h₁ hflat hr⟩

theorem Mirrored.store (h : Mirrored C held s) (hio : ∀ n, E.io n = true) {y : UInt8} {w : Outcome} (hm : MarkedStore s p vaddr)
    (hs : userStore C E s p vaddr y = some (s', w)) : Mirrored C held s' ∧ flatStep s.flat (.store p vaddr y) w = some s'.flat := by
  have hdone {z : Slot} (hz : s.flat.slot p (ADDR_TO_PN vaddr) = some z) (hwrite : z.write = true)
      (hflat : s'.flat = s.flat.change p (ADDR_TO_PN vaddr) (Function.update · (vaddr % PAGE_SIZE) y)) :
      flatStep s.flat (.store p vaddr y) .done = some s'.flat := by
    simp only [flatStep, hz, bind, Option.bind_some, if_pos hwrite, hflat]
  rcases userStore_cases hs with ⟨rfl, hw⟩ | ⟨rfl, hf⟩ | ⟨rfl, s₁, hf, hw⟩
  · obtain ⟨⟨z, hz, hwrite⟩, h', hflat⟩ := h.writePte hw
    exact ⟨h', hdone hz hwrite hflat⟩
  · cases h.fault hio (.inr ⟨rfl, hm⟩) hf with
    | killed hx hno =>
      obtain ⟨h', hlive, hflat⟩ := h.exit hx
      have hproc : (s.flat.procs p).isSome = true := by
        show ((s.procs p).map _).isSome = true
        rwa [Option.isSome_map]
      have hall : (s.flat.slot p (ADDR_TO_PN vaddr)).all (!·.write) = true := by
        cases hz : s.flat.slot p (ADDR_TO_PN vaddr) with
        | none => rfl
        | some z => simp [(hno z hz).2]
      refine ⟨h', ?_⟩
      simp only [flatStep, hproc, hall, and_self, if_true, hflat]
  · cases h.fault hio (.inr ⟨rfl, hm⟩) hf with
    | mapped h₁ hflat₁ =>
      have hflat₁ : s₁.flat = s.flat.change p (ADDR_TO_PN vaddr) id := hflat₁
      obtain ⟨⟨z', hz', hwrite'⟩, h', hflat⟩ := h₁.writePte hw
      -- the page made its own by the fault is the one that was there
      have hold := s.flat.change_slot p (ADDR_TO_PN vaddr) id p (ADDR_TO_PN vaddr)
      rw [← hflat₁, hz', Option.map_some, eq_comm] at hold
      obtain ⟨z, hz, hzw⟩ := Option.map_eq_some_iff.1 hold
      rw [hflat₁, Flat.change_change] at hflat
      exact ⟨h', hdone hz (hzw.trans hwrite') hflat⟩

end Weenix.Vm
