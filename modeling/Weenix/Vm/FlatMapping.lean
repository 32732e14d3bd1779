import Weenix.Vm.FlatAreas
import Weenix.Vm.MemoryMapping
import Weenix.Vm.MmapFiles
/-!
# Flat memory across new areas

A new area shows zeros, or the pages of its file, and the other pages are shown
as they were.
-/

namespace Weenix.Vm

open Lib Lib.Intervals

variable {C : Config} {s s' t : State} {o b x pn k m p v vn lo npages : Nat} {a c : VmArea} {pr : Proc} {ob : Mmobj}
  {held : Nat → Int} {file : Option Nat} {flags : MapFlags}

/-! ## New objects -/

theorem ownCell_none (hf : s.frame? o pn = none) : s.ownCell o pn = none := by
  by_cases h : s.IsFile o
  · exact ownCell_file h
  · rw [ownCell_other h]
    simp only [State.resident, hf, Option.map_none]

theorem Extends.cell (h : Extends s s') (hc : Chains s) (hc' : Chains s') (ho : s.objs o = some ob) : s'.cell o pn = s.cell o pn := by
  refine cell_congr hc hc' fun y hy => ?_
  obtain ⟨oby, hoby⟩ := hc.reaches_obj ho hy
  exact ⟨(h.objs y oby hoby).trans hoby.symm, fun _ => resident_of_frame? (by rw [h.frame?]) h.mem⟩

theorem Extends.fileData (h : Extends s s') (hc : Chains s) (hc' : Chains s') (hfiles : FileObjs s) (hv : s'.vnodes = s.vnodes) :
    s'.fileData = s.fileData :=
  fileData_keep hc hc' hfiles h.objs hv h.mem h.disk fun y _ pn => by rw [h.frame?]

/-- A new shadow object shows what it stands on. -/
theorem newShadow_cell (hc : Chains s) (hb : s.bottomOf b = some x) (hnone : s.frame? s.nobjs pn = none) :
    (s.newObj ⟨.shadow, some b, some x⟩).cell s.nobjs pn = s.cell b pn := by
  have hc' := hc.newObj (.shadow hb)
  have hext := Extends.newObj hc ⟨.shadow, some b, some x⟩
  obtain ⟨ob, hob⟩ := Chains.of_bottom hb
  rw [hc'.cell_below (ownCell_none (by rw [hext.frame?]; exact hnone)) ((newObj_parent s _ _).trans (if_pos rfl)), hext.cell hc hc' hob]

theorem newShadow_bottom (hb : s.bottomOf b = some x) : (s.newObj ⟨.shadow, some b, some x⟩).bottomOf s.nobjs = some x :=
  (Fits.shadow hb).bottom_new

theorem newShadow_kind (x y : Option Nat) : ¬ (s.newObj ⟨.shadow, x, y⟩).IsFile s.nobjs := by
  rintro ⟨ob, hob, hfile⟩
  rw [newObj_self] at hob
  cases hob
  cases hfile

/-- What page `pn` of a new mapping is. -/
def startCell : Option Nat → Nat → Cell
  | none, _ => .own fun _ => 0
  | some vn, pn => .file vn pn

/-- Object `o` of `t` maps the file, or zeros. -/
structure Attaches (s t : State) (file : Option Nat) (o : Nat) : Prop extends Extends s t where
  chains : Chains t
  cell : ∀ pn, t.cell o pn = startCell file pn
  bottom : ∀ b vn, t.bottomOf o = some b → t.FileOf b vn → file = some vn ∧ (s.vnodes vn).vn_mmap = some (.ok b)

theorem AttachEffect.attaches {area area' : VmArea} (h : AttachEffect s area file flags t area') (hB : Backing C held s)
    (hown : ∀ vn o, (s.vnodes vn).vn_mmap = some (.ok o) → s.FileOf o vn) (hkind : file = none → flags.priv = true) :
    ∃ o, area' = area.withObj (some o) ∧ Attaches s t file o ∧ (flags.priv = false ↔ t.IsFile o) := by
  have hc := hB.chains
  cases h with
  | @shared vn o _ hp ho =>
    have hof := hown vn o ho
    refine ⟨o, rfl, ⟨⟨fun _ _ hx => hx, rfl, rfl, rfl⟩, hc.congr rfl rfl, fun pn => ?_, fun b vn' hb hvn => ?_⟩,
      iff_of_true hp hof.isFile⟩
    · exact (hc.congr rfl rfl).cell_file hof pn
    · obtain rfl : b = o := Option.some.inj (hb.symm.trans (hc.bottom_file hof))
      obtain rfl := State.FileOf.unique hof hvn
      exact ⟨rfl, ho⟩
  | unset hp =>
    rw [hkind rfl] at hp
    cases hp
  | anon hp =>
    obtain ⟨hext, hc', -⟩ := newAnon_extends hc
    have hc₁ := hc.newObj .anon
    have hself : (s.newObj ⟨.anon, none, none⟩).objs s.nobjs = some ⟨.anon, none, none⟩ := newObj_self
    have hbot : (s.newObj ⟨.anon, none, none⟩).bottomOf s.nobjs = some s.nobjs := hc₁.bottom_root hself (by simp)
    refine ⟨s.nobjs + 1, rfl, ⟨⟨hext.objs, hext.frames, hext.mem, hext.disk⟩, hc'.congr rfl rfl, fun pn => ?_, fun b vn hb hvn => ?_⟩,
      iff_of_false (by simp [hp]) (newShadow_kind (s := s.newObj ⟨.anon, none, none⟩) _ _)⟩
    · have hroot : (s.newObj ⟨.anon, none, none⟩).parent s.nobjs = none := (newObj_parent s _ _).trans (if_pos rfl)
      have hown : (s.newObj ⟨.anon, none, none⟩).ownCell s.nobjs pn = none := ownCell_none (hB.frame?_new le_rfl)
      show s.newAnon.cell (s.nobjs + 1) pn = _
      refine (newShadow_cell hc₁ hbot (hB.frame?_new (Nat.le_succ _))).trans ?_
      rw [State.cell, Layers.read_root hc₁.grounded hown hroot]
      simp only [State.origin, hself, Option.map_some, startCell]
    · obtain rfl : b = s.nobjs := Option.some.inj (hb.symm.trans (newShadow_bottom hbot))
      obtain ⟨ob, hob, hops⟩ := hvn
      have hold : s.newAnon.objs s.nobjs = some ⟨.anon, none, none⟩ := hc₁.old hself
      have hob : s.newAnon.objs s.nobjs = some ob := hob
      rw [hold] at hob
      cases hob
      cases hops
  | @file vn b _ hp hb =>
    have hof := hown vn b hb
    have hc₁ : Chains (s.setRefcount b (s.mmo_refcount b + 1)) := hc.congr rfl rfl
    have hbot : (s.setRefcount b (s.mmo_refcount b + 1)).bottomOf b = some b := hc₁.bottom_file hof
    have hext := Extends.newObj hc₁ ⟨.shadow, some b, some b⟩
    refine ⟨s.nobjs, rfl, ⟨⟨hext.objs, hext.frames, hext.mem, hext.disk⟩, (hc₁.newObj (.shadow hbot)).congr rfl rfl, fun pn => ?_,
      fun b' vn' hb' hvn => ?_⟩, iff_of_false (by simp [hp]) (newShadow_kind (s := s.setRefcount b (s.mmo_refcount b + 1)) _ _)⟩
    · refine (newShadow_cell hc₁ hbot (hB.frame?_new le_rfl)).trans ?_
      exact hc₁.cell_file hof pn
    · obtain rfl : b' = b := Option.some.inj (hb'.symm.trans (newShadow_bottom hbot))
      have hof' := hof.more hext.objs
      obtain rfl := State.FileOf.unique hof' hvn
      exact ⟨rfl, hb⟩

/-! ## The new area -/

theorem target_insert {y : VmArea} (hok : AreasOk C m (s.vmm_list m)) (hy : y.vma_start < y.vma_end ∧ C.low ≤ y.vma_start ∧ y.vma_end ≤ C.high)
    (hfree : RangeFree (s.vmm_list m) y.vma_start y.vma_end)
    (hl : s'.vmm_list = Function.update s.vmm_list m (insertArea m y (s.vmm_list m))) (k v : Nat) :
    s'.target k v = if k = m ∧ y.Has v then some (y.target v) else s.target k v := by
  simp only [State.target, hl]
  by_cases e : k = m
  · subst e
    rw [Function.update_self, lookup_insertArea hok hy hfree]
    by_cases hv : y.Has v
    · rw [if_pos hv, if_pos ⟨rfl, hv⟩]
      rfl
    · rw [if_neg hv, if_neg fun h => hv h.2]
  · rw [Function.update_of_ne e, if_neg fun h => e h.1]

/-- The objects that are mapped show what they showed. -/
theorem Extends.slots (h : Extends s t) (hB : Backing C held s) (hc' : Chains t) (ht : t.target k v = s.target k v) :
    t.slots k v = s.slots k v := by
  refine slots_congr ht fun y hy o ho => ?_
  rw [ht] at hy
  obtain ⟨d, hd, -, rfl⟩ := target_some hy
  obtain ⟨ob, hob, -⟩ := hB.hung.areas k d hd o ho
  exact h.cell hB.chains hc' hob

theorem Extends.home (h : Extends s t) (hc : Chains s) (hv : t.vnodes = s.vnodes) (ho : s.objs o = some ob) (hH : s.Home o pn) :
    t.Home o pn := hH.more hc ho h.objs hv

/-- An area with its object comes into the map of `p`. -/
theorem Mirrored.insert (area : VmArea) {area' : VmArea} (h : Mirrored C held s) (hpr : s.procs p = some pr)
    (hshared : area.vma_flags.shared = !area.vma_flags.priv) (hnone : area.vma_obj = none)
    (hx : area.vma_start < area.vma_end ∧ C.low ≤ area.vma_start ∧ area.vma_end ≤ C.high)
    (hfree : RangeFree (s.vmm_list pr.p_vmmap) area.vma_start area.vma_end) (hid : area.vma_id < s.nareas)
    (hnew : ∀ m', ∀ a ∈ s.vmm_list m', a.vma_id ≠ area.vma_id) (hat : AttachEffect s area file area.vma_flags t area')
    (hkind : file = none → area.vma_flags.priv = true) (hread : area.vma_prot.write = true → area.vma_prot.read = true)
    (hpage : ∀ vn, file = some vn → ∀ v, area.Has v → area.pagenum v < 2 ^ 20)
    (hs' : s' = t.setList pr.p_vmmap (insertArea pr.p_vmmap area' (t.vmm_list pr.p_vmmap))) :
    Mirrored C held s' ∧ s'.flat = s.flat.setPages p (s.flatProc pr) (setRange (s.slots pr.p_vmmap) area.vma_start
      (area.vma_end - area.vma_start) fun v => some ⟨startCell file (area.pagenum v), area.vma_flags.shared, area.vma_prot.write⟩) := by
  have hB := h.backing
  obtain ⟨htied, hmore⟩ := (h.tied hpr).attach onChain_reads h.toLinked.fresh h.files hshared hnone hx hfree hid hnew hat
  have hsp := hat.spaces
  have hprocs : t.procs = s.procs := congrArg Spaces.procs hsp
  have hlist : t.vmm_list = s.vmm_list := congrArg Spaces.vmm_list hsp
  have hfiles : t.files = s.files := congrArg Spaces.files hsp
  have hvn : t.vnodes = s.vnodes := congrArg Spaces.vnodes hsp
  obtain ⟨o, rfl, hA, hobj⟩ := hat.attaches hB h.own hkind
  rw [← hs'] at htied
  have hst : Stays State.reads C held s s' := h.toLinked.keep htied.toPaged (by rw [hs']; exact hmore.old) (by rw [hs']; exact hvn)
  have hsh : Shrunk s s' := by
    rw [hs']
    exact hat.shrunk.trans (.same rfl rfl rfl rfl (.of_eq rfl))
  have hext : Extends s s' := by
    rw [hs']
    exact ⟨hA.objs, hA.frames, hA.mem, hA.disk⟩
  have hc' := hst.linked.backing.chains
  have hv' : s'.vnodes = s.vnodes := by rw [hs']; exact hvn
  have hprocs' : s'.procs = s.procs := by rw [hs']; exact hprocs
  have hfiles' : s'.files = s.files := by rw [hs']; exact hfiles
  have hbounds : (area.withObj (some o)).vma_start < (area.withObj (some o)).vma_end ∧ C.low ≤ (area.withObj (some o)).vma_start ∧
      (area.withObj (some o)).vma_end ≤ C.high := hx
  have htarget (k v : Nat) : s'.target k v = if k = pr.p_vmmap ∧ area.Has v then
      some (some o, area.pagenum v, area.vma_prot, area.vma_flags) else s.target k v := by
    refine target_insert (hB.layout.areas _) hbounds hfree ?_ k v
    rw [hs', show (State.setList t _ _).vmm_list = Function.update t.vmm_list _ _ from rfl, hlist]
  have hslots (k v : Nat) : s'.slots k v = if k = pr.p_vmmap ∧ area.Has v then
      some ⟨startCell file (area.pagenum v), area.vma_flags.shared, area.vma_prot.write⟩ else s.slots k v := by
    split
    next hin =>
      have hcell : s'.cell o (area.pagenum v) = startCell file (area.pagenum v) := by rw [hs']; exact hA.cell _
      simp only [State.slots, htarget, if_pos hin, Option.bind_some, Option.map_some, hcell]
    next hout => exact hext.slots hB hc' (by rw [htarget, if_neg hout])
  have htable (pr : Proc) : s'.fdTable pr = s.fdTable pr := by
    funext fd
    simp only [State.fdTable, hfiles']
  refine ⟨h.keep hst hsh hv' (fun k v y hy => ?_) (fun q v y pte hpte hy => ?_)
    ⟨by rw [hfiles']; exact h.opened.counted, by rw [hprocs', hfiles']; exact h.opened.live⟩, ?_⟩
  · rw [htarget] at hy
    split at hy
    next hin =>
      cases hy
      have hfile : area.vma_flags.shared = true ↔ s'.IsFile o := by
        rw [hshared, Bool.not_eq_true', hs']
        exact hobj
      refine ⟨⟨o, rfl, fun b vn hb hof => ?_, hfile⟩, hread⟩
      obtain ⟨hfile, hmap⟩ := hA.bottom b vn (by rw [hs'] at hb; exact hb) (by rw [hs'] at hof; exact hof)
      exact ⟨by rw [hv']; exact hmap, hpage vn hfile v hin.2⟩
    next hout =>
      have hfit := h.fits k v y hy
      obtain ⟨o', ho', hhome, hkind'⟩ := hfit.home
      obtain ⟨d, hd, -, rfl⟩ := target_some hy
      obtain ⟨ob, hob, -⟩ := hB.hung.areas k d hd o' ho'
      exact ⟨⟨o', ho', hext.home hB.chains hv' hob hhome, by rw [isFile_more hob hext.objs]; exact hkind'⟩, hfit.read⟩
  · -- an entry of a page that was not mapped there is not
    obtain ⟨pr', a, o', pf, he⟩ := h.entries q v pte (hsh.pagedir q v pte hpte)
    rw [flat_slot (by rw [hprocs']; exact he.proc), hslots] at hy
    split at hy
    next hin =>
      have ha := he.area
      rw [hin.1] at ha
      have hav := he.has
      have := hfree a ha
      simp only [VmArea.Has] at hav hin
      omega
    next hout => exact ⟨y, by rw [flat_slot he.proc]; exact hy, rfl⟩
  · refine flat_update (fun q hq => ?_) ?_ (hext.fileData hB.chains hc' h.files hv')
    · rw [hprocs']
      cases hq' : s.procs q with
      | none => rfl
      | some pr' =>
        have hm : pr'.p_vmmap ≠ pr.p_vmmap := fun e => hq (h.owned.own q p pr' pr hq' hpr e)
        simp only [Option.map_some, State.flatProc, htable]
        congr 2
        funext v
        rw [hslots, if_neg fun e => hm e.1]
    · rw [hprocs', hpr]
      simp only [Option.map_some, State.flatProc, htable]
      congr 2
      funext v
      have hrange : area.vma_start + (area.vma_end - area.vma_start) = area.vma_end := by omega
      rw [hslots]
      simp only [setRange, hrange, true_and, VmArea.Has]

/-! ## Making room -/

theorem Flat.setPages_self {M : Flat} {y : FlatProc} (h : M.procs p = some y) : M.setPages p y y.pages = M := by
  unfold Flat.setPages Flat.setProc
  rw [← h, Function.update_eq_self]

/-- Changes of one process, one after the other. -/
theorem Flat.setPages_setPages (M : Flat) (y : FlatProc) (f g : Nat → Option Slot) :
    (M.setPages p y f).setPages p { y with pages := f } g = M.setPages p y g := by
  unfold Flat.setPages Flat.setProc
  rw [Function.update_idem]

theorem setRange_setRange (f g g' : Nat → Option Slot) : setRange (setRange f lo npages g) lo npages g' = setRange f lo npages g' := by
  funext v
  unfold setRange
  split <;> rfl

theorem setRange_congr {f g g' : Nat → Option Slot} (h : ∀ v, lo ≤ v → v < lo + npages → g v = g' v) :
    setRange f lo npages g = setRange f lo npages g' := by
  funext v
  unfold setRange
  split
  next hin => exact h v hin.1 hin.2
  next => rfl

theorem Mirrored.vmarea_alloc (h : Mirrored C held s) : Mirrored C held s.vmarea_alloc := by
  have hB := h.backing
  have hst : Stays State.reads C held s s.vmarea_alloc := by
    refine h.toLinked.keep ⟨hB.vmarea_alloc, h.owned.keep rfl rfl rfl rfl fun _ hm => .inl hm, h.apart.same rfl rfl, ?_⟩
      (fun _ _ ho => ho) rfl
    exact h.entries.unmap onChain_reads hB.chains (.of_eq rfl) rfl rfl rfl rfl rfl
  refine h.keep hst (.same rfl rfl rfl rfl (.of_eq rfl)) rfl (fun k v y hy => ?_) (fun q v y _ _ hy => ⟨y, hy, rfl⟩)
    ⟨h.opened.counted, h.opened.live⟩
  obtain ⟨hhome, hread⟩ := h.fits k v y hy
  exact ⟨hhome, hread⟩

/-- Room for `npages` pages at `lo`, as `vmmap_map` makes it. -/
theorem Mirrored.room (h : Mirrored C held s) (hpr : s.procs p = some pr) (hfrom : t = s.vmarea_alloc ∨
      lo + npages < 2 ^ 32 ∧ vmmap_remove C s.vmarea_alloc p pr.p_vmmap lo npages = some t)
    (hfree : RangeFree (t.vmm_list pr.p_vmmap) lo (lo + npages)) :
    Mirrored C held t ∧ t.flat = s.flat.setPages p (s.flatProc pr) (setRange (s.slots pr.p_vmmap) lo npages fun _ => none) := by
  rcases hfrom with rfl | ⟨hlt, hr⟩
  · refine ⟨h.vmarea_alloc, ?_⟩
    have hnone : setRange (s.slots pr.p_vmmap) lo npages (fun _ => none) = (s.flatProc pr).pages := by
      funext v
      unfold setRange
      split
      next hin =>
        refine (slots_none (target_none fun a ha hav => ?_)).symm
        have := hfree a ha
        simp only [VmArea.Has] at hav
        omega
      next => rfl
    rw [hnone, Flat.setPages_self (flat_procs hpr)]
    rfl
  · exact h.vmarea_alloc.remove hpr hlt hr

/-- `vmmap_map` at a place that is given. -/
theorem Mirrored.vmmap_map {lopage start off : Nat} {prot : Prot} {dir : Dir} (h : Mirrored C held s) (hpr : s.procs p = some pr)
    (hn : npages ≤ 2 ^ 20) (hlo : 0 < lopage) (hshared : flags.shared = !flags.priv) (hkind : file = none → flags.priv = true)
    (hread : prot.write = true → prot.read = true) (hpage : ∀ vn, file = some vn → off + npages ≤ 2 ^ 20)
    (hmap : Vm.vmmap_map C s p pr.p_vmmap file lopage npages prot flags off dir = some (s', .ok start)) :
    start = lopage ∧ Mirrored C held s' ∧ s'.flat = s.flat.setPages p (s.flatProc pr) (setRange (s.slots pr.p_vmmap) lopage npages
      fun v => some ⟨startCell file (off + (v - lopage)), flags.shared, prot.write⟩) := by
  have hC := C.high_lt
  obtain ⟨⟨hpos, -⟩, heff⟩ := vmmap_map_effect h.backing.layout hn hmap
  cases heff with
  | @mapped _ t s₂ area hfrom hL₁ hroom hst hat =>
    obtain rfl := hst (by omega)
    have hprocs := room_procs h.backing.layout hfrom
    obtain ⟨h₁, hflat₁⟩ := h.room hpr hfrom hroom.free
    obtain ⟨hid, -, hnew⟩ := newArea_fresh h.backing.layout hfrom
    have hlow := hroom.low
    have hhigh := hroom.high
    have hpagenum (v : Nat) (h1 : start ≤ v) (h2 : v < start + npages) :
        startCell file ((newArea s.nareas start npages off prot flags).pagenum v) = startCell file (off + (v - start)) := by
      cases file with
      | none => rfl
      | some vn =>
        have := hpage vn rfl
        congr 1
        simp only [newArea, VmArea.pagenum, usub]
        omega
    obtain ⟨h₂, hflat₂⟩ := h₁.insert (newArea s.nareas start npages off prot flags) (hprocs ▸ hpr) hshared rfl
      ⟨by simp only [newArea]; omega, hlow, hhigh⟩ hroom.free hid hnew (attachObject_effect hat) hkind hread
      (fun vn hvn v hv => by
        have := hpage vn hvn
        simp only [newArea, VmArea.Has] at hv
        simp only [newArea, VmArea.pagenum, usub]
        omega) rfl
    refine ⟨rfl, h₂, ?_⟩
    have hproc : some (t.flatProc pr) = some { s.flatProc pr with pages := setRange (s.slots pr.p_vmmap) start npages fun _ => none } := by
      rw [← flat_procs (hprocs ▸ hpr), hflat₁]
      exact Function.update_self ..
    have hproc := Option.some.inj hproc
    have hslots : t.slots pr.p_vmmap = setRange (s.slots pr.p_vmmap) start npages fun _ => none := congrArg FlatProc.pages hproc
    rw [hflat₂, hflat₁, hproc, hslots, Flat.setPages_setPages]
    have hlen : (newArea s.nareas start npages off prot flags).vma_end - (newArea s.nareas start npages off prot flags).vma_start =
        npages := by simp [newArea]
    rw [hlen]
    show s.flat.setPages p (s.flatProc pr) (setRange (setRange _ start npages _) start npages _) = _
    rw [setRange_setRange, setRange_congr fun v h1 h2 => by rw [hpagenum v h1 h2]]
    rfl

/-! ## The calls -/

theorem mmapFile_got {len off : Nat} {prot : Prot} {fd : Int} {got : Option (Nat × Nat)}
    (h : mmapFile C s pr len prot flags fd off = (t, .ok got)) : (t = s ∧ got = none ∧ flags.anon = true) ∨
      ∃ f fl, flags.anon = false ∧ pr.p_files fd.toNat = some f ∧ s.files f = some fl ∧ t = s.gotten f fl ∧
        got = some (f, fl.f_vnode) ∧ ¬ TooBig C len off := by
  unfold mmapFile at h
  split at h
  · split at h
    · cases h
    next han =>
      cases h
      exact .inl ⟨rfl, rfl, by simpa using han⟩
  · split at h
    next han =>
      cases h
      exact .inl ⟨rfl, rfl, han⟩
    next han =>
      unfold fget at h
      cases hf : pr.p_files fd.toNat with
      | none => simp [hf] at h
      | some f =>
        cases hfl : s.files f with
        | none => simp [hf, hfl] at h
        | some fl =>
          simp only [hf, hfl] at h
          split at h
          · cases h
          next hcheck =>
            cases h
            exact .inr ⟨f, fl, by simpa using han, rfl, hfl, rfl, rfl, checkFile_fits hcheck⟩

theorem Mirrored.gotten {f : Nat} {fl : File} (h : Mirrored C held s) (hf : s.files f = some fl) :
    Mirrored C held (s.gotten f fl) ∧ (s.gotten f fl).flat = s.flat := by
  refine h.setFiles (fun g => ?_) fun g fl' hg => ?_
  · by_cases e : g = f
    · rw [e, Function.update_self, hf]
      rfl
    · rw [Function.update_of_ne e]
  · by_cases e : g = f
    · rw [e, Function.update_self] at hg
      cases hg
      exact Nat.succ_pos _
    · rw [Function.update_of_ne e] at hg
      exact h.opened.counted g fl' hg

/-- `mmap` maps zeros or the pages of the file, or fails and changes no page. -/
theorem Mirrored.mmap (h : Mirrored C held s) {addr len off : Nat} {prot : Prot} {fd : Int} {r : Except Errno Nat}
    (hbig : C.NFILES ≤ 2 ^ 8) (hlen : len < 2 ^ 32) (hread : prot.write = true → prot.read = true)
    (hanon : flags.anon = true → flags.priv = true) (hm : do_mmap C s p addr len prot flags fd off = some (s', r)) :
    Mirrored C held s' ∧ ∃ pr, s.procs p = some pr ∧ ((∃ e, r = .error e ∧ s'.flat = s.flat) ∨
      ∃ place g, r = .ok place ∧ Flat.mapped (s.flatProc pr) place prot flags fd off = some g ∧
        s'.flat = s.flat.setPages p (s.flatProc pr)
          (setRange (s.slots pr.p_vmmap) (ADDR_TO_PN place) (ADDR_TO_PN (roundLen len)) g)) := by
  have hL := h.backing.layout
  obtain ⟨pr, hpr, -⟩ := do_mmap_effect hm
  have hlive : ∀ f fl, fileBehind pr fd = some f → s.files f = some fl → 0 < fl.f_refcount := fun f fl _ hfl => h.opened.counted f fl hfl
  rcases do_mmap_eq addr off prot flags fd hL hpr hlen with ⟨fs, e, he, -⟩ | ⟨t, place, got, hpass, he⟩
  · -- an error, which may leave one more reference to the file
    rw [hm] at he
    cases he
    rcases do_mmap_files hL hpr hlen hlive hm with hfs | hsize
    · have hfs : fs = s.files := hfs
      rw [hfs]
      exact ⟨h, pr, hpr, .inl ⟨e, rfl, rfl⟩⟩
    · obtain ⟨f, fl, hasked, hleak⟩ := hsize.leaks prot hpr
      rw [hm] at hleak
      obtain ⟨hs, -⟩ := Prod.mk.inj (Option.some.inj hleak)
      obtain ⟨h', hflat⟩ := h.gotten hasked.live
      rw [hs]
      exact ⟨h', pr, hpr, .inl ⟨e, rfl, hflat⟩⟩
  · have hat := hpass.at hL hlen
    have hlow := hat.low
    have hlow' := C.low_pos
    have hret : PN_TO_ADDR (ADDR_TO_PN place) = place := by
      have := hat.page
      have := hat.high
      have := C.high_lt
      simp only [PN_TO_ADDR, u32, PAGE_SIZE] at *
      omega
    rw [hm] at he
    obtain ⟨⟨s₁, r₁⟩, hmap, hr⟩ := Option.bind_eq_some_iff.1 he.symm
    cases r₁ with
    | error e => cases hr
    | ok start =>
      rcases mmapFile_got hpass.file with ⟨rfl, rfl, han⟩ | ⟨f, fl, han, hf, hfl, rfl, rfl, hsmall⟩
      · obtain ⟨rfl, h', hflat⟩ := h.vmmap_map hpr (roundLen_pages hlen) (by omega) hpass.kind (fun _ => hanon han) hread
          (fun vn hvn => by cases hvn) hmap
        cases hr
        have hsh : flags.shared = false := by rw [hpass.kind, hanon han]; rfl
        refine ⟨h', pr, hpr, .inr ⟨place, fun _ => some ⟨.own fun _ => 0, false, prot.write⟩, by rw [hret], ?_, ?_⟩⟩
        · simp only [Flat.mapped, han, if_true]
        · rw [hflat]
          simp only [Option.map_none, startCell, hsh]
      · obtain ⟨h₀, hflat₀⟩ := h.gotten hfl
        have hpr₀ : (s.gotten f fl).procs p = some pr := hpr
        have hsame : (s.gotten f fl).flatProc pr = s.flatProc pr := by
          rw [← Option.some_inj, ← flat_procs hpr₀, hflat₀, flat_procs hpr]
        have hpages : off + ADDR_TO_PN (roundLen len) ≤ 2 ^ 20 := by
          have hoff : off % PAGE_SIZE = 0 := by simpa [PAGE_ALIGNED] using hpass.aligned
          have hpos := hpass.pages
          have hpos' := (roundLen_eq hlen).1
          unfold TooBig at hsmall
          simp only [ADDR_TO_PN, PAGE_SIZE] at *
          omega
        obtain ⟨rfl, h₁, hflat₁⟩ := h₀.vmmap_map hpr₀ (roundLen_pages hlen) (by omega) hpass.kind (fun e => by cases e) hread
          (fun _ _ => hpages) hmap
        obtain ⟨fs, hfs⟩ := fput_files (s := s₁) (f := f)
        cases hr
        have hfiles₁ : s₁.files = (s.gotten f fl).files := vmmap_map_files h₀.backing.layout (roundLen_pages hlen) hmap
        have hback : fs = s.files := by
          rw [← fput_gotten hfl (h.opened.counted f fl hfl) hfiles₁, hfs]
          rfl
        have hv (g : Nat) : (s.files g).map File.f_vnode = (s₁.files g).map File.f_vnode := by
          rw [hfiles₁]
          by_cases e : g = f
          · rw [e, hfl, show (s.gotten f fl).files f = _ from Function.update_self ..]
            rfl
          · rw [show (s.gotten f fl).files g = _ from Function.update_of_ne e ..]
        obtain ⟨h₂, hflat₂⟩ := h₁.setFiles hv h.opened.counted
        have hend : fput s₁ f = s₁.setFiles s.files := by rw [hfs, hback]
        refine ⟨show Mirrored C held (fput s₁ f) from hend ▸ h₂, pr, hpr, .inr ⟨place,
          fun v => some ⟨.file fl.f_vnode (off + (v - ADDR_TO_PN place)), flags.shared, prot.write⟩, by rw [hret], ?_, ?_⟩⟩
        · simp only [Flat.mapped, han, Bool.false_eq_true, if_false, State.flatProc, State.fdTable, hf, Option.bind_some, hfl,
            Option.map_some]
        · have hslots : (s.gotten f fl).slots pr.p_vmmap = s.slots pr.p_vmmap := congrArg FlatProc.pages hsame
          show (fput s₁ f).flat = _
          rw [hend, hflat₂, hflat₁, hflat₀, hsame, hslots]
          simp only [Option.map_some, startCell]

end Weenix.Vm
