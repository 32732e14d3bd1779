import Weenix.Vm.Cells
/-!
# Flat memory across processes and removed pages

`Mirrored` is what holds of every state reached by careful events. Removing
pages, exiting and creating processes keep it, and do to the flat memory of the
state what the flat machine does.
-/

namespace Weenix.Vm

open Lib Lib.Intervals

variable {C : Config} {s s' t : State} {o b x pn k m p v vn lo fin : Nat} {a c : VmArea} {pre l : List VmArea} {done : Bool} {pf : Pframe}
  {pr : Proc} {ob : Mmobj} {held : Nat → Int}

/-! ## What the files hold -/

/-- The file below `o`, if there is one, can be mapped, and its page `pn` is a page of `fileData`. -/
def State.Home (s : State) (o pn : Nat) : Prop :=
  ∀ b vn, s.bottomOf o = some b → s.FileOf b vn → (s.vnodes vn).vn_mmap = some (.ok b) ∧ pn < 2 ^ 20

theorem State.Home.fileData (h : s.Home o pn) (hb : s.bottomOf o = some b) (hvn : s.FileOf b vn) : s.fileData vn pn = s.page b pn := by
  obtain ⟨hmap, hlt⟩ := h b vn hb hvn
  simp only [State.fileData, hmap, if_pos hlt]

theorem Chains.bottom_file (hc : Chains s) (h : s.FileOf o vn) : s.bottomOf o = some o := by
  obtain ⟨ob, hob, hops⟩ := h
  exact hc.bottom_root hob (by simp [hops])

theorem State.Home.below (h : s.Home o pn) (hc : Chains s) (hr : Layers.Reaches s.parent o x) : s.Home x pn := by
  intro b vn hb hvn
  exact h b vn (by rw [← hc.reaches hr, hb]) hvn

/-- The cell of a page says what the page holds. -/
theorem Chains.cell_look (hc : Chains s) (h : s.Home o pn) : (s.cell o pn).look s.fileData = s.page o pn := by
  rcases hc.cell_cases o pn with e | ⟨b, vn, hb, hvn, e, hpage⟩
  · rw [e]
    rfl
  · rw [e, hpage]
    exact (h.below hc hb).fileData (hc.bottom_file hvn) hvn

theorem bottomOf_more (ho : s.objs o = some ob) (hobjs : ∀ y ob, s.objs y = some ob → s'.objs y = some ob) :
    s'.bottomOf o = s.bottomOf o := by
  simp only [State.bottomOf, hobjs o ob ho, ho]

theorem isFile_more (ho : s.objs o = some ob) (hobjs : ∀ y ob, s.objs y = some ob → s'.objs y = some ob) :
    s'.IsFile o ↔ s.IsFile o := by
  simp only [State.IsFile, hobjs o ob ho, ho]

theorem State.Home.more (h : s.Home o pn) (hc : Chains s) (ho : s.objs o = some ob)
    (hobjs : ∀ y ob, s.objs y = some ob → s'.objs y = some ob) (hv : s'.vnodes = s.vnodes) : s'.Home o pn := by
  intro b vn hb hvn
  obtain ⟨b', hb'⟩ := hc.bottom ho
  obtain ⟨ob', hob', -⟩ := hc.bottom_obj hb'
  obtain rfl : b = b' := Option.some.inj (hb.symm.trans ((bottomOf_more ho hobjs).trans hb'))
  rw [hv]
  refine h b vn hb' ?_
  obtain ⟨ob₁, hob₁, hops⟩ := hvn
  rw [hobjs b ob' hob'] at hob₁
  cases hob₁
  exact ⟨ob', hob', hops⟩

theorem fileData_of (h : (s.vnodes vn).vn_mmap = some (.ok o)) (pn : Nat) :
    s.fileData vn pn = if pn < 2 ^ 20 then s.page o pn else fun _ => 0 := by
  simp only [State.fileData, h]

theorem fileData_congr (hv : s'.vnodes = s.vnodes)
    (h : ∀ o, (s.vnodes vn).vn_mmap = some (.ok o) → s'.page o pn = s.page o pn) : s'.fileData vn pn = s.fileData vn pn := by
  unfold State.fileData
  rw [hv]
  split
  next o ho => rw [h o ho]
  next => rfl

theorem fileData_keep (hc : Chains s) (hc' : Chains s') (hfiles : FileObjs s) (hobjs : ∀ y ob, s.objs y = some ob → s'.objs y = some ob)
    (hv : s'.vnodes = s.vnodes) (hmem : s'.mem = s.mem) (hdisk : s'.disk = s.disk)
    (hkept : ∀ y, s.IsFile y → ∀ pn, s'.frame? y pn = s.frame? y pn) : s'.fileData = s.fileData := by
  funext vn pn
  refine fileData_congr hv fun o ho => ?_
  obtain ⟨ob, hob, hfile⟩ := hfiles vn o ho
  have hof : s.IsFile o := ⟨ob, hob, hfile⟩
  refine page_keep hc hc' hmem hdisk fun y hy => ?_
  rw [Layers.reaches_root (hc.file_root hof) hy]
  exact ⟨(hobjs o ob hob).trans hob.symm, hkept o hof pn⟩

/-! ## The invariant -/

/-- Files have references, and descriptors are of files. -/
structure FilesOpen (s : State) : Prop where
  counted : ∀ f fl, s.files f = some fl → 0 < fl.f_refcount
  live : ∀ p pr fd f, s.procs p = some pr → pr.p_files fd = some f → s.files f ≠ none

/-- A mapped page: its object, the page of it, protection and flags. -/
structure State.Fits (s : State) (y : Option Nat × Nat × Prot × MapFlags) : Prop where
  home : ∃ o, y.1 = some o ∧ s.Home o y.2.1 ∧ (y.2.2.2.shared = true ↔ s.IsFile o)
  read : y.2.2.1.write = true → y.2.2.1.read = true

structure Mirrored (C : Config) (held : Nat → Int) (s : State) : Prop extends Linked State.reads C held s where
  marked : Marked s
  stays : ∀ vn, (s.vnodes vn).query_vnode = true
  own : ∀ vn o, (s.vnodes vn).vn_mmap = some (.ok o) → s.FileOf o vn
  fits : ∀ m v y, s.target m v = some y → s.Fits y
  placed : ∀ pf ∈ s.pframes, s.Home pf.pf_obj pf.pf_pagenum
  saved : ∀ pf ∈ s.pframes, ∀ vn, s.FileOf pf.pf_obj vn → s.pf_dirty pf.pf_addr = false →
    s.mem pf.pf_addr = s.disk vn (PN_TO_ADDR pf.pf_pagenum)
  rights : ∀ p v pte, s.p_pagedir p v = some pte → pte.pt_write = true → ∀ x, s.flat.slot p v = some x → x.write = true
  opened : FilesOpen s

theorem target_some {y : Option Nat × Nat × Prot × MapFlags} :
    s.target m v = some y → ∃ a ∈ s.vmm_list m, a.Has v ∧ a.target v = y := by
  intro h
  obtain ⟨a, ha, rfl⟩ := Option.map_eq_some_iff.1 h
  have hv := List.find?_some ha
  simp only [decide_eq_true_eq] at hv
  exact ⟨a, List.mem_of_find?_eq_some ha, hv, rfl⟩

theorem target_of (hL : Layout C s) (ha : a ∈ s.vmm_list m) (hv : a.Has v) : s.target m v = some (a.target v) := by
  have hfind : vmmap_lookup (s.vmm_list m) v = some a := (hL.areas m).sorted.find_iff.2 ⟨ha, hv⟩
  simp only [State.target, hfind, Option.map_some]

theorem target_none (h : ∀ a ∈ s.vmm_list m, ¬ a.Has v) : s.target m v = none := by
  have hfind : vmmap_lookup (s.vmm_list m) v = none := find_none_iff.2 h
  simp only [State.target, hfind, Option.map_none]

theorem target_congr (hl : s'.vmm_list k = s.vmm_list m) (v : Nat) : s'.target k v = s.target m v := by
  simp only [State.target, hl]

theorem Mirrored.settled (h : Mirrored C held s) : Settled s := by
  intro m a ha
  have hok := (h.backing.layout.areas m).sorted.nonempty a ha
  obtain ⟨o, ho, -⟩ := (h.fits m a.vma_start _ (target_of h.backing.layout ha ⟨le_refl _, hok⟩)).home
  exact ⟨o, ho⟩

theorem Mirrored.home (h : Mirrored C held s) (ha : a ∈ s.vmm_list m) (hv : a.Has v) (ho : a.vma_obj = some o) : s.Home o (a.pagenum v) := by
  obtain ⟨o', ho', hhome, -⟩ := (h.fits m v _ (target_of h.backing.layout ha hv)).home
  rw [show (a.target v).1 = a.vma_obj from rfl, ho] at ho'
  cases ho'
  exact hhome

theorem Mirrored.kind (h : Mirrored C held s) (ha : a ∈ s.vmm_list m) (hv : a.Has v) (ho : a.vma_obj = some o) :
    a.vma_flags.shared = true ↔ s.IsFile o := by
  obtain ⟨o', ho', -, hkind⟩ := (h.fits m v _ (target_of h.backing.layout ha hv)).home
  rw [show (a.target v).1 = a.vma_obj from rfl, ho] at ho'
  cases ho'
  exact hkind

theorem flat_slot (hpr : s.procs p = some pr) (v : Nat) : s.flat.slot p v = s.slots pr.p_vmmap v := by
  simp only [Flat.slot, State.flat, hpr, Option.map_some, Option.bind_some]
  rfl

theorem flat_procs (hpr : s.procs p = some pr) : s.flat.procs p = some (s.flatProc pr) := by
  simp only [State.flat, hpr, Option.map_some]

theorem flat_none (hpr : s.procs p = none) : s.flat.procs p = none := by
  simp only [State.flat, hpr, Option.map_none]

theorem slots_of (hL : Layout C s) (ha : a ∈ s.vmm_list m) (hv : a.Has v) (ho : a.vma_obj = some o) :
    s.slots m v = some ⟨s.cell o (a.pagenum v), a.vma_flags.shared, a.vma_prot.write⟩ := by
  simp only [State.slots, target_of hL ha hv, Option.bind_some, VmArea.target, ho, Option.map_some]

theorem slots_none (h : s.target m v = none) : s.slots m v = none := by
  simp only [State.slots, h, Option.bind_none]

/-- A map shows what one showed whose pages have the same targets and the same cells. -/
theorem slots_congr (ht : s'.target k v = s.target m v) (hcell : ∀ y, s'.target k v = some y → ∀ o, y.1 = some o →
    s'.cell o y.2.1 = s.cell o y.2.1) : s'.slots k v = s.slots m v := by
  unfold State.slots
  rw [ht] at hcell ⊢
  cases hy : s.target m v with
  | none => rfl
  | some y =>
    simp only [Option.bind_some]
    cases ho : y.1 with
    | none => rfl
    | some o => simp only [Option.map_some, hcell y hy o ho]

/-- The rule for what happens to one process, and to no file. -/
theorem flat_update {f : Option FlatProc} (hsame : ∀ q, q ≠ p → (s'.procs q).map s'.flatProc = (s.procs q).map s.flatProc)
    (hself : (s'.procs p).map s'.flatProc = f) (hdata : s'.fileData = s.fileData) : s'.flat = s.flat.setProc p f := by
  unfold State.flat Flat.setProc
  rw [hdata]
  congr 1
  funext q
  by_cases e : q = p
  · rw [e, hself, Function.update_self]
  · rw [hsame q e, Function.update_of_ne e]

/-- The rule for events that map no page. -/
theorem Mirrored.keep (h : Mirrored C held s) (hst : Stays State.reads C held s s') (hsh : Shrunk s s') (hv : s'.vnodes = s.vnodes)
    (hfits : ∀ m v y, s'.target m v = some y → s'.Fits y)
    (hslot : ∀ p v x pte, s'.p_pagedir p v = some pte → s'.flat.slot p v = some x → ∃ y, s.flat.slot p v = some y ∧ y.write = x.write)
    (hopen : FilesOpen s') : Mirrored C held s' := by
  have hB := h.backing
  refine ⟨hst.linked, h.marked.shrunk hsh hB.frames hst.objs, fun vn => by rw [hv]; exact h.stays vn,
    fun vn o ho => (h.own vn o (by rw [← hv]; exact ho)).more hst.objs, hfits, fun pf hpf => ?_,
    fun pf hpf vn hvn hd => ?_, fun p v pte hpte hw x hx => ?_, hopen⟩
  · obtain ⟨ob, hob⟩ := hB.frames.owner pf (hsh.frames pf hpf)
    exact (h.placed pf (hsh.frames pf hpf)).more hB.chains hob hst.objs hv
  · obtain ⟨ob, hob⟩ := hB.frames.owner pf (hsh.frames pf hpf)
    rw [hsh.mem, hsh.disk]
    refine h.saved pf (hsh.frames pf hpf) vn ?_ (by rw [← hsh.dirty, hd])
    obtain ⟨ob', hob', hops⟩ := hvn
    rw [hst.objs _ ob hob] at hob'
    cases hob'
    exact ⟨ob, hob, hops⟩
  · obtain ⟨y, hy, e⟩ := hslot p v x pte hpte hx
    rw [← e]
    exact h.rights p v pte (hsh.pagedir p v pte hpte) hw y hy

/-! ## Removing pages -/

/-- A linked file keeps its frames. -/
theorem Backing.turn_file (h : Backing C held s) (hheld : ∀ o, 0 ≤ held o) (hlinked : ∀ vn, (s.vnodes vn).query_vnode = true)
    (hlist : s.vmm_list m = pre ++ a :: l) (heff : RemoveEffect s p m lo fin pre l a s' done) {y : Nat} (hy : s.IsFile y) (pn : Nat) :
    s'.frame? y pn = s.frame? y pn := by
  cases heff with
  | keep => rfl
  | trim => rfl
  | split _ _ _ _ hr =>
    obtain ⟨-, rfl⟩ := mmobj_ref_cases hr
    rfl
  | @drop o b s₁ _ _ ho _ hp =>
    have ha : a ∈ s.vmm_list m := by rw [hlist]; simp
    by_cases e : y = o
    · subst e
      obtain ⟨vn, ob, hob, hops⟩ := hy.fileOf
      have hcount := vput_counts (s := s.unlinkVma b a.vma_id) hob hops (h.area_pos hheld ha ho)
        (fun e => absurd e.2 (by rw [show (s.unlinkVma b a.vma_id).vnodes = s.vnodes from rfl, hlinked]; simp))
        (2 * s.mmo_nrespages y + 2)
      have hp' : mmobj_put (2 * s.mmo_nrespages y + 2 + 1) (s.unlinkVma b a.vma_id) y = some s₁ := hp
      rw [hcount] at hp'
      cases hp'
      rfl
    · obtain ⟨t, hput, he⟩ := h.put_area hheld ha ho b
      rw [hp] at hput
      cases hput
      cases he with
      | counted => rfl
      | emptied _ he => exact he.frame? e

/-- What is kept: files, and the chains of the areas that are left. -/
structure Keeps (s t : State) : Prop where
  objs : t.objs = s.objs
  vnodes : t.vnodes = s.vnodes
  mem : t.mem = s.mem
  disk : t.disk = s.disk
  file : ∀ y, s.IsFile y → ∀ pn, t.frame? y pn = s.frame? y pn
  chain : ∀ m, ∀ a ∈ t.vmm_list m, ∀ o, a.vma_obj = some o → (∃ c ∈ s.vmm_list m, c.vma_obj = some o) ∧
    ∀ y, Layers.Reaches s.parent o y → ∀ pn, t.frame? y pn = s.frame? y pn

theorem Keeps.refl (s : State) : Keeps s s :=
  ⟨rfl, rfl, rfl, rfl, fun _ _ _ => rfl, fun _ a ha _ ho => ⟨⟨a, ha, ho⟩, fun _ _ _ => rfl⟩⟩

theorem Backing.turn_keeps (h : Backing C held t) (hheld : ∀ o, 0 ≤ held o) (hlinked : ∀ vn, (s.vnodes vn).query_vnode = true)
    (hlf : lo ≤ fin) (hlist : t.vmm_list m = pre ++ a :: l) (heff : RemoveEffect t p m lo fin pre l a s' done) (hk : Keeps s t) :
    Keeps s s' := by
  have h' : Backing C held s' := h.turn hheld hlf hlist heff
  obtain ⟨hobjs, -⟩ := h.turn_objs hheld hlist heff
  obtain ⟨hmem, hdisk⟩ := h.turn_mem hheld hlist heff
  refine ⟨hobjs.trans hk.objs, (congrArg Spaces.vnodes (heff.spaces hlist)).trans hk.vnodes, hmem.trans hk.mem, hdisk.trans hk.disk,
    fun y hy pn => ?_, fun n d hd o ho => ?_⟩
  · refine (h.turn_file hheld (by rw [hk.vnodes]; exact hlinked) hlist heff ?_ pn).trans (hk.file y hy pn)
    simpa only [State.IsFile, hk.objs] using hy
  · have hold : ∃ c ∈ t.vmm_list n, c.vma_obj = some o := by
      rcases heff.area hlist hd with hd | ⟨rfl, hd⟩
      · exact ⟨d, hd, ho⟩
      · have ha : a ∈ t.vmm_list n := by rw [hlist]; simp
        exact ⟨a, ha, (h.layout.pieceOf hlf ha hd).obj ▸ ho⟩
    obtain ⟨c, hc, hco⟩ := hold
    obtain ⟨hfrom, hframes⟩ := hk.chain n c hc o hco
    refine ⟨hfrom, fun y hy pn => Eq.trans ?_ (hframes y hy pn)⟩
    rcases h.turn_frame? hheld hlist heff y with e | e
    · exact e
    · have := h'.reaches_pos hheld hd ho (by rw [parent_congr (hobjs.trans hk.objs)]; exact hy)
      omega

theorem Keeps.cell (h : Keeps s t) (hc : Chains s) (hc' : Chains t) (ha : a ∈ t.vmm_list m) (ho : a.vma_obj = some o) (pn : Nat) :
    t.cell o pn = s.cell o pn := by
  obtain ⟨-, hframes⟩ := h.chain m a ha o ho
  exact cell_congr hc hc' fun y hy => ⟨congrFun h.objs y, fun _ => resident_of_frame? (hframes y hy pn) h.mem⟩

theorem Keeps.fileData (h : Keeps s t) (hc : Chains s) (hc' : Chains t) (hfiles : FileObjs s) : t.fileData = s.fileData :=
  fileData_keep hc hc' hfiles (fun y ob hy => by rw [h.objs]; exact hy) h.vnodes h.mem h.disk h.file

theorem Keeps.home (h : Keeps s t) (hH : s.Home o pn) : t.Home o pn := by
  intro b vn hb hvn
  rw [h.vnodes]
  rw [bottomOf_congr h.objs] at hb
  exact hH b vn hb (by simpa only [State.FileOf, h.objs] using hvn)

theorem Keeps.fits {y : Option Nat × Nat × Prot × MapFlags} (h : Keeps s t) (hy : s.Fits y) : t.Fits y := by
  obtain ⟨o, ho, hhome, hkind⟩ := hy.home
  exact ⟨⟨o, ho, h.home hhome, by simpa only [State.IsFile, h.objs] using hkind⟩, hy.read⟩

/-- A page that is mapped as it was is shown as it was. -/
theorem Keeps.slots (h : Keeps s t) (hc : Chains s) (hc' : Chains t) (ht : t.target k v = s.target k v) : t.slots k v = s.slots k v := by
  refine slots_congr ht fun y hy o ho => ?_
  obtain ⟨a, ha, -, rfl⟩ := target_some hy
  exact h.cell hc hc' ha ho _

/-- `vmmap_remove` keeps the rest. -/
theorem Backing.remove_keeps {npages : Nat} (h : Backing C held s) (hheld : ∀ o, 0 ≤ held o)
    (hlinked : ∀ vn, (s.vnodes vn).query_vnode = true) (hlt : lo + npages < 2 ^ 32)
    (hr : vmmap_remove C s p m lo npages = some s') : Keeps s s' := by
  obtain ⟨-, -, hkeeps⟩ := vmmap_remove_rule (I := fun t => Backing C held t ∧ Keeps s t) hlt
    (fun _ hlist heff ht => ⟨ht.1.turn hheld (Nat.le_add_right _ _) hlist heff,
      ht.1.turn_keeps hheld hlinked (Nat.le_add_right _ _) hlist heff ht.2⟩) h.layout ⟨h, .refl s⟩ hr
  exact hkeeps

theorem vmmap_remove_target {npages : Nat} (hL : Layout C s) (hlt : lo + npages < 2 ^ 32)
    (hr : vmmap_remove C s p m lo npages = some s') (k v : Nat) :
    s'.target k v = if k = m ∧ lo ≤ v ∧ v < lo + npages then none else s.target k v := by
  have hlist : s'.vmm_list = Function.update s.vmm_list m ((s.vmm_list m).flatMap (pieces m s.nareas lo (lo + npages))) :=
    congrArg Spaces.vmm_list (vmmap_remove_list hlt hL hr)
  have hok := hL.areas m
  simp only [State.target, hlist]
  by_cases e : k = m
  · subst e
    rw [Function.update_self]
    by_cases hin : lo ≤ v ∧ v < lo + npages
    · rw [if_pos ⟨rfl, hin⟩, lookup_gone hok (Nat.le_add_right _ _) hin.1 hin.2, Option.map_none]
    · rw [if_neg fun h => hin h.2, lookup_kept hok (Nat.le_add_right _ _) (by omega)]
  · rw [Function.update_of_ne e, if_neg fun h => e h.1]

theorem remove_slots {npages : Nat} (h : Backing C held s) (h' : Backing C held s') (hk : Keeps s s') (hlt : lo + npages < 2 ^ 32)
    (hr : vmmap_remove C s p m lo npages = some s') (k v : Nat) :
    s'.slots k v = if k = m ∧ lo ≤ v ∧ v < lo + npages then none else s.slots k v := by
  have ht := vmmap_remove_target h.layout hlt hr k v
  split
  next hin => exact slots_none (by rw [ht, if_pos hin])
  next hout => exact hk.slots h.chains h'.chains (by rw [ht, if_neg hout])

theorem Mirrored.remove (h : Mirrored C held s) (hpr : s.procs p = some pr) {npages : Nat} (hlt : lo + npages < 2 ^ 32)
    (hr : vmmap_remove C s p pr.p_vmmap lo npages = some s') : Mirrored C held s' ∧
      s'.flat = s.flat.setPages p (s.flatProc pr) (setRange (s.slots pr.p_vmmap) lo npages fun _ => none) := by
  have hB := h.backing
  have hst := h.toLinked.remove onChain_reads hpr hlt hr
  have hB' := hst.linked.backing
  have hkeeps := hB.remove_keeps h.outside.nonneg h.stays hlt hr
  have hslots := remove_slots hB hB' hkeeps hlt hr
  have hsp := vmmap_remove_list hlt hB.layout hr
  have hprocs : s'.procs = s.procs := congrArg Spaces.procs hsp
  have hfiles : s'.files = s.files := congrArg Spaces.files hsp
  have htable (pr : Proc) : s'.fdTable pr = s.fdTable pr := by
    funext fd
    simp only [State.fdTable, hfiles]
  have hflat : s'.flat = s.flat.setPages p (s.flatProc pr) (setRange (s.slots pr.p_vmmap) lo npages fun _ => none) := by
    refine flat_update (fun q hq => ?_) ?_ (hkeeps.fileData hB.chains hB'.chains h.files)
    · rw [hprocs]
      cases hq' : s.procs q with
      | none => rfl
      | some pr' =>
        have hm : pr'.p_vmmap ≠ pr.p_vmmap := fun e => hq (h.owned.own q p pr' pr hq' hpr e)
        simp only [Option.map_some, State.flatProc, htable]
        congr 2
        funext v
        rw [hslots, if_neg fun e => hm e.1]
    · rw [hprocs, hpr]
      simp only [Option.map_some, State.flatProc, htable]
      congr 2
      funext v
      rw [hslots]
      simp only [true_and]
      rfl
  refine ⟨h.keep hst (vmmap_remove_shrunk hB.layout hlt hr) hkeeps.vnodes (fun k v x hx => ?_) (fun q v x pte hpte hx => ?_)
    ⟨by rw [hfiles]; exact h.opened.counted, by rw [hprocs, hfiles]; exact h.opened.live⟩, hflat⟩
  · rw [vmmap_remove_target hB.layout hlt hr] at hx
    split at hx
    · cases hx
    · exact hkeeps.fits (h.fits k v x hx)
  · cases hq : s.procs q with
    | none =>
      rw [Flat.slot, flat_none (by rw [hprocs, hq])] at hx
      cases hx
    | some pr' =>
      rw [flat_slot (by rw [hprocs, hq]), hslots] at hx
      split at hx
      · cases hx
      · exact ⟨x, by rw [flat_slot hq]; exact hx, rfl⟩

/-! ## Exiting -/

theorem Mirrored.exit (h : Mirrored C held s) {code : Int} (hx : exit_process C s p code = some s') :
    Mirrored C held s' ∧ (s.procs p).isSome = true ∧ s'.flat = s.flat.setProc p none := by
  have hB := h.backing
  have hL := hB.layout
  have hheld := h.outside.nonneg
  have hst := h.toLinked.exit onChain_reads hx
  have hsh := exit_process_shrunk hL hx
  simp only [exit_process, bind, Option.bind_eq_some_iff, Option.some.injEq] at hx
  obtain ⟨pr, hpr, t, hd, rfl⟩ := hx
  obtain ⟨-, ⟨hBt, hkeeps⟩, hsp⟩ := vmmap_destroy_rule (I := fun t => Backing C held t ∧ Keeps s t)
    (fun hlf _ hlist heff ht => ⟨ht.1.turn hheld hlf hlist heff, ht.1.turn_keeps hheld h.stays hlf hlist heff ht.2⟩) hL
    ⟨hB, .refl s⟩ hd
  have hprocs : t.procs = s.procs := congrArg Spaces.procs hsp
  have hfiles : t.files = s.files := congrArg Spaces.files hsp
  have hlist : t.vmm_list = Function.update s.vmm_list pr.p_vmmap [] := congrArg Spaces.vmm_list hsp
  have htarget (k v : Nat) : t.target k v = if k = pr.p_vmmap then none else s.target k v := by
    by_cases e : k = pr.p_vmmap
    · rw [if_pos e, State.target, hlist, e, Function.update_self]
      rfl
    · rw [if_neg e, State.target, hlist, Function.update_of_ne e]
      rfl
  have hprocs' : ((t.setProc p none).setZombie p code).procs = Function.update s.procs p none := by
    rw [← hprocs]
    rfl
  have hshown {q : Nat} {pr' : Proc} (hq : q ≠ p) (hpr' : s.procs q = some pr') :
      ((t.setProc p none).setZombie p code).flatProc pr' = s.flatProc pr' := by
    have hm : pr'.p_vmmap ≠ pr.p_vmmap := fun e => hq (h.owned.own q p pr' pr hpr' hpr e)
    have hfd : ((t.setProc p none).setZombie p code).fdTable pr' = s.fdTable pr' := by
      rw [← show t.fdTable pr' = s.fdTable pr' from funext fun fd => by simp only [State.fdTable, hfiles]]
      rfl
    simp only [State.flatProc, hfd]
    congr 1
    funext v
    exact hkeeps.slots hB.chains hBt.chains (by rw [htarget, if_neg hm])
  refine ⟨h.keep hst hsh hkeeps.vnodes (fun k v x hx => ?_) (fun q v x pte hpte hx => ?_) ?_, by simp [hpr], ?_⟩
  · have hx : t.target k v = some x := hx
    rw [htarget] at hx
    split at hx
    · cases hx
    · obtain ⟨hhome, hread⟩ := hkeeps.fits (h.fits k v x hx)
      exact ⟨hhome, hread⟩
  · by_cases e : q = p
    · rw [Flat.slot, flat_none (by rw [hprocs', e, Function.update_self])] at hx
      cases hx
    · have hq' : ((t.setProc p none).setZombie p code).procs q = s.procs q := by rw [hprocs', Function.update_of_ne e]
      cases hq : s.procs q with
      | none =>
        rw [Flat.slot, flat_none (hq'.trans hq)] at hx
        cases hx
      | some pr' =>
        rw [flat_slot (hq'.trans hq)] at hx
        refine ⟨x, ?_, rfl⟩
        rw [flat_slot hq, ← hx]
        exact (congrFun (congrArg FlatProc.pages (hshown e hq)) v).symm
  · refine ⟨by show ∀ f fl, t.files f = some fl → _; rw [hfiles]; exact h.opened.counted, fun q pr' fd f hq hf => ?_⟩
    show t.files f ≠ none
    rw [hfiles]
    rw [hprocs'] at hq
    by_cases e : q = p
    · rw [e, Function.update_self] at hq
      cases hq
    · rw [Function.update_of_ne e] at hq
      exact h.opened.live q pr' fd f hq hf
  · refine flat_update (fun q hq => ?_) (by rw [hprocs', Function.update_self]; rfl) (hkeeps.fileData hB.chains hBt.chains h.files)
    rw [hprocs', Function.update_of_ne hq]
    cases hq' : s.procs q with
    | none => rfl
    | some pr' => simp only [Option.map_some, hshown hq hq']

/-! ## New processes and files -/

theorem Mirrored.spawn (h : Mirrored C held s) : Mirrored C held (proc_create s) ∧ s.flat.procs s.nprocs = none ∧
    (proc_create s).flat = s.flat.setProc s.nprocs (some ⟨fun _ => none, fun _ => none⟩) := by
  have hprocs : (proc_create s).procs = Function.update s.procs s.nprocs (some ⟨s.nmaps, 0, fun _ => none⟩) := rfl
  have htarget (k v : Nat) : (proc_create s).target k v = if k = s.nmaps then none else s.target k v := by
    by_cases e : k = s.nmaps
    · rw [if_pos e, State.target, show (proc_create s).vmm_list k = [] by simp only [proc_create, vmmap_create, e, Function.update_self]]
      rfl
    · rw [if_neg e]
      exact target_congr (by simp only [proc_create, vmmap_create, Function.update_of_ne e]) v
  have hcell : (proc_create s).cell = s.cell := rfl
  have hshown {q : Nat} {pr' : Proc} (hq : s.procs q = some pr') : (proc_create s).flatProc pr' = s.flatProc pr' := by
    have hm : pr'.p_vmmap ≠ s.nmaps := (h.owned.live q pr' hq).2.ne
    unfold State.flatProc
    congr 1
    funext v
    exact slots_congr (by rw [htarget, if_neg hm]) fun y _ o _ => by rw [hcell]
  refine ⟨h.keep (h.toLinked.spawn onChain_reads) (.same rfl rfl rfl rfl (proc_create_pagedir s)) rfl (fun k v y hy => ?_)
    (fun q v x pte hpte hx => ?_) ⟨h.opened.counted, fun q pr' fd f hq hf => ?_⟩, flat_none h.owned.next,
    flat_update (fun q hq => ?_) ?_ rfl⟩
  · rw [htarget] at hy
    split at hy
    · cases hy
    · obtain ⟨hhome, hread⟩ := h.fits k v y hy
      exact ⟨hhome, hread⟩
  · have hq : q ≠ s.nprocs := fun e => by
      rw [show (proc_create s).p_pagedir = Function.update s.p_pagedir s.nprocs fun _ => none from rfl, e, Function.update_self] at hpte
      cases hpte
    have hsame : (proc_create s).procs q = s.procs q := by rw [hprocs, Function.update_of_ne hq]
    cases hq' : s.procs q with
    | none =>
      rw [Flat.slot, flat_none (hsame.trans hq')] at hx
      cases hx
    | some pr' =>
      rw [flat_slot (hsame.trans hq')] at hx
      refine ⟨x, ?_, rfl⟩
      rw [flat_slot hq', ← hx]
      exact (congrFun (congrArg FlatProc.pages (hshown hq')) v).symm
  · rw [hprocs] at hq
    by_cases e : q = s.nprocs
    · rw [e, Function.update_self] at hq
      cases hq
      cases hf
    · rw [Function.update_of_ne e] at hq
      exact h.opened.live q pr' fd f hq hf
  · rw [hprocs, Function.update_of_ne hq]
    cases hq' : s.procs q with
    | none => rfl
    | some pr' => simp only [Option.map_some, hshown hq']
  · rw [hprocs, Function.update_self]
    simp only [Option.map_some, State.flatProc]
    congr 2
    · funext v
      exact slots_none (by rw [htarget, if_pos rfl])

theorem Mirrored.openFile (h : Mirrored C held s) (hpr : s.procs p = some pr) (fd : Nat) {f : Nat} (mode : FileMode) (vn : Nat)
    (hf : s.files f = none) : Mirrored C held (openFile s p pr fd f mode vn) ∧ (Vm.openFile s p pr fd f mode vn).flat =
      s.flat.setProc p (some { s.flatProc pr with fds := Function.update (s.fdTable pr) fd (some vn) }) := by
  have hprocs : (Vm.openFile s p pr fd f mode vn).procs =
      Function.update s.procs p (some { pr with p_files := Function.update pr.p_files fd (some f) }) := rfl
  have hfiles : (Vm.openFile s p pr fd f mode vn).files = Function.update s.files f (some ⟨1, mode, vn⟩) := rfl
  have hold {q : Nat} {pr' : Proc} {g n : Nat} (hq : s.procs q = some pr') (hg : pr'.p_files n = some g) : g ≠ f := fun e =>
    h.opened.live q pr' n g hq hg (e ▸ hf)
  have htable {q : Nat} {pr' : Proc} (hq : s.procs q = some pr') (n : Nat) :
      (pr'.p_files n).bind (Vm.openFile s p pr fd f mode vn).files = (pr'.p_files n).bind s.files := by
    cases hg : pr'.p_files n with
    | none => rfl
    | some g => simp only [Option.bind_some, hfiles, Function.update_of_ne (hold hq hg)]
  refine ⟨h.keep (h.toLinked.opened onChain_reads hpr fd f mode vn) (.same rfl rfl rfl rfl (.of_eq rfl)) rfl (fun k v y hy => ?_)
    (fun q v x pte _ hx => ?_) ⟨fun g fl hg => ?_, fun q pr' n g hq hg => ?_⟩, flat_update (fun q hq => ?_) ?_ rfl⟩
  · obtain ⟨hhome, hread⟩ := h.fits k v y hy
    exact ⟨hhome, hread⟩
  · by_cases e : q = p
    · rw [e, flat_slot (by rw [hprocs, Function.update_self])] at hx
      exact ⟨x, by rw [e, flat_slot hpr]; exact hx, rfl⟩
    · refine ⟨x, ?_, rfl⟩
      rw [← hx, Flat.slot, Flat.slot, State.flat, State.flat, hprocs]
      simp only [Function.update_of_ne e]
      cases s.procs q <;> rfl
  · rw [hfiles] at hg
    by_cases e : g = f
    · rw [e, Function.update_self] at hg
      cases hg
      exact Nat.one_pos
    · rw [Function.update_of_ne e] at hg
      exact h.opened.counted g fl hg
  · rw [hfiles]
    by_cases e : g = f
    · rw [e, Function.update_self]
      simp
    · rw [Function.update_of_ne e]
      rw [hprocs] at hq
      by_cases e' : q = p
      · rw [e', Function.update_self] at hq
        cases hq
        have hg : Function.update pr.p_files fd (some f) n = some g := hg
        by_cases en : n = fd
        · rw [en, Function.update_self] at hg
          cases hg
          exact absurd rfl e
        · rw [Function.update_of_ne en] at hg
          exact h.opened.live p pr n g hpr hg
      · rw [Function.update_of_ne e'] at hq
        exact h.opened.live q pr' n g hq hg
  · rw [hprocs, Function.update_of_ne hq]
    cases hq' : s.procs q with
    | none => rfl
    | some pr' =>
      have hfd : (Vm.openFile s p pr fd f mode vn).fdTable pr' = s.fdTable pr' := by
        funext n
        simp only [State.fdTable, htable hq']
      simp only [Option.map_some, State.flatProc, hfd]
      rfl
  · rw [hprocs, Function.update_self]
    simp only [Option.map_some, State.flatProc]
    congr 2
    funext n
    by_cases e : n = fd
    · simp only [State.fdTable, e, Function.update_self, Option.bind_some, hfiles, Option.map_some]
    · simp only [State.fdTable, Function.update_of_ne e, htable hpr]

/-- Counting references to the files changes nothing. -/
theorem Mirrored.setFiles (h : Mirrored C held s) {fs : Nat → Option File} (hv : ∀ f, (fs f).map File.f_vnode = (s.files f).map File.f_vnode)
    (hpos : ∀ f fl, fs f = some fl → 0 < fl.f_refcount) : Mirrored C held (s.setFiles fs) ∧ (s.setFiles fs).flat = s.flat := by
  have htable (pr : Proc) : (s.setFiles fs).fdTable pr = s.fdTable pr := by
    funext fd
    unfold State.fdTable
    cases pr.p_files fd with
    | none => rfl
    | some f => exact hv f
  have hflat : (s.setFiles fs).flat = s.flat := by
    have hshown : (s.setFiles fs).flatProc = s.flatProc := by
      funext pr
      simp only [State.flatProc, htable]
      rfl
    unfold State.flat
    rw [hshown]
    rfl
  refine ⟨h.keep (h.toLinked.setFiles onChain_reads fs) (.same rfl rfl rfl rfl (.of_eq rfl)) rfl (fun k v y hy => ?_)
    (fun q v x pte _ hx => ⟨x, by rw [← hflat]; exact hx, rfl⟩) ⟨hpos, fun q pr' fd f hq hf e => ?_⟩, hflat⟩
  · obtain ⟨hhome, hread⟩ := h.fits k v y hy
    exact ⟨hhome, hread⟩
  · have e : fs f = none := e
    have hnone : (s.files f).map File.f_vnode = none := by rw [← hv, e]; rfl
    exact h.opened.live q pr' fd f hq hf (by simpa using hnone)

end Weenix.Vm
