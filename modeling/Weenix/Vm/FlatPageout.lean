import Weenix.Vm.FlatAccess
import Weenix.Vm.WriteBack
/-!
# Flat memory across page-outs

The pageout daemon takes pages of files only. A page that it frees is clean, and
one that is clean holds what the disk holds for it; a page that it cleans keeps
its frame. So no file has changed.
-/

namespace Weenix.Vm

open Lib Lib.Intervals

variable {C : Config} {E : Env} {R : FrameRel} {s s' t : State} {o p v vn pn : Nat} {pf q : Pframe} {held : Nat → Int} {ob : Mmobj}

theorem Linked.to_below (h : Linked State.reads C held s) : Linked State.below C held s := by
  refine ⟨⟨h.backing, h.owned, h.apart, fun p v pte hpte => ?_⟩, h.outside, h.files⟩
  obtain ⟨pr, a, o, pf, he⟩ := h.entries p v pte hpte
  exact ⟨pr, a, o, pf, he.proc, he.area, he.has, he.obj, resolves_below h.backing.chains he.frame, he.page, he.write⟩

/-- The daemon looks at a page of a file. -/
theorem Linked.victim_file (hB : Backing C held s) (h : s.victim = some pf) : ∃ vn, s.FileOf pf.pf_obj vn := by
  obtain ⟨hm, hpin⟩ := victim_mem hB h
  obtain ⟨ob, hob⟩ := hB.frames.owner pf hm
  refine State.IsFile.fileOf ⟨ob, hob, ?_⟩
  by_contra hfile
  have := (hB.frames.pinned pf hm ob hob (by simpa using hfile)).1
  omega

/-- The object of a page of a file is the one that is mapped. -/
theorem Mirrored.placed_file (h : Mirrored C held s) (hm : pf ∈ s.pframes) (hvn : s.FileOf pf.pf_obj vn) :
    (s.vnodes vn).vn_mmap = some (.ok pf.pf_obj) ∧ pf.pf_pagenum < 2 ^ 20 :=
  h.placed pf hm pf.pf_obj vn (h.backing.chains.bottom_file hvn) hvn

/-- Nothing that is shown changes where the pages of files hold what they held. -/
theorem Mirrored.flat_files (h : Mirrored C held s) (hc' : Chains s') (hobjs : s'.objs = s.objs) (hsp : s'.spaces = s.spaces)
    (hres : ∀ y, ¬ s.IsFile y → ∀ k, s'.resident y k = s.resident y k)
    (hpage : ∀ y vn k, (s.vnodes vn).vn_mmap = some (.ok y) → k < 2 ^ 20 → s'.page y k = s.page y k) : s'.flat = s.flat := by
  have hprocs : s'.procs = s.procs := congrArg Spaces.procs hsp
  have hv : s'.vnodes = s.vnodes := congrArg Spaces.vnodes hsp
  have hdata : s'.fileData = s.fileData := by
    funext vn k
    by_cases hk : k < 2 ^ 20
    · exact fileData_congr hv fun y hy => hpage y vn k hy hk
    · unfold State.fileData
      rw [hv]
      simp only [if_neg hk]
  unfold State.flat
  rw [hdata, hprocs]
  congr 1
  funext p
  congr 1
  funext pr
  refine flatProc_congr (congrArg Spaces.files hsp) (congrFun (congrArg Spaces.vmm_list hsp) _) fun a _ v _ o _ => ?_
  exact cell_congr h.backing.chains hc' fun y _ => ⟨congrFun hobjs y, fun hy => hres y hy _⟩

/-- What is left of the page tables, and of the frames. -/
theorem Mirrored.fewer (h : Mirrored C held s) (hL : Linked State.reads C held s') (hM : Marked s') (hobjs : s'.objs = s.objs)
    (hsp : s'.spaces = s.spaces) (hframes : ∀ q ∈ s'.pframes, q ∈ s.pframes) (hno : NoNewMapping s s')
    (hsaved : ∀ q ∈ s'.pframes, ∀ vn, s.FileOf q.pf_obj vn → s'.pf_dirty q.pf_addr = false →
      s'.mem q.pf_addr = s'.disk vn (PN_TO_ADDR q.pf_pagenum)) : Mirrored C held s' := by
  have hprocs : s'.procs = s.procs := congrArg Spaces.procs hsp
  have hlist : s'.vmm_list = s.vmm_list := congrArg Spaces.vmm_list hsp
  have hfiles : s'.files = s.files := congrArg Spaces.files hsp
  have hv : s'.vnodes = s.vnodes := congrArg Spaces.vnodes hsp
  have hof {o vn : Nat} : s'.FileOf o vn ↔ s.FileOf o vn := by simp only [State.FileOf, hobjs]
  refine ⟨hL, hM, fun vn => by rw [hv]; exact h.stays vn, fun vn o ho => hof.2 (h.own vn o (by rw [← hv]; exact ho)),
    fun m v y hy => ?_, fun q hq => (h.placed q (hframes q hq)).same hobjs hv, fun q hq vn hvn => hsaved q hq vn (hof.1 hvn),
    fun p v pte hpte hw y hy => ?_, ⟨by rw [hfiles]; exact h.opened.counted, by rw [hprocs, hfiles]; exact h.opened.live⟩⟩
  · rw [target_congr (congrFun hlist m)] at hy
    exact (h.fits m v y hy).same hobjs hv
  · obtain ⟨z, hz, e⟩ := slot_rights hy hprocs hlist
    rw [← e]
    exact h.rights p v pte (hno p v pte hpte) hw z hz

/-! ## Cleaning -/

theorem PN_TO_ADDR_inj {k k' : Nat} (h : PN_TO_ADDR k = PN_TO_ADDR k') (hk : k < 2 ^ 20) (hk' : k' < 2 ^ 20) : k = k' := by
  rw [PN_TO_ADDR_lt hk, PN_TO_ADDR_lt hk'] at h
  omega

/-- A page that is not on the disk yet is unmapped, and cleaned. -/
theorem Mirrored.clean (h : Mirrored C held s) (hio : ∀ n, E.io n = true) (hm : pf ∈ s.pframes) (hvn : s.FileOf pf.pf_obj vn)
    (ht : s.Traced pf) (hc : pframe_clean E s pf = some s') : Mirrored C held s' ∧ s'.flat = s.flat := by
  have hB := h.backing
  have hch := hB.chains
  obtain ⟨hmap, hlt⟩ := h.placed_file hm hvn
  obtain ⟨hP, hobjs, hsp, hgone⟩ := h.toPaged.clean onChain_reads hm ht hc
  have hL := (h.toLinked.keep hP (fun o ob ho => by rw [hobjs]; exact ho) (congrArg Spaces.vnodes hsp)).linked
  have hdirty : s.pf_dirty pf.pf_addr = true := by
    simp only [pframe_clean, bind, Option.bind_eq_some_iff, KASSERT_eq_some] at hc
    obtain ⟨-, hd, -⟩ := hc
    exact hd
  obtain ⟨pd, hpd, hc'⟩ := pframe_clean_file (E := E) hB.steady hm hvn hdirty
  rw [hc'] at hc
  cases hc
  simp only [hio, Bool.not_true, if_true] at hL hP hgone ⊢
  have hno : NoNewMapping s { s with p_pagedir := pd } := Unmaps.noNew hpd
  have hM : ∀ p v pte, pd p v = some pte → pte.pt_write = true → ∀ q ∈ s.pframes, q.pf_addr = pte.pt_page → s.IsFile q.pf_obj →
      Function.update s.pf_dirty pf.pf_addr false q.pf_addr = true := fun p v pte hpte hw q hq hpage hfile => by
    rw [Function.update_of_ne fun e => hgone p v pte hpte (hpage.symm.trans e)]
    exact h.marked p v pte (hno p v pte hpte) hw q hq hpage hfile
  -- the disk changes at this page
  have hdisk {y vn' k : Nat} (hy : (s.vnodes vn').vn_mmap = some (.ok y)) (hk : k < 2 ^ 20) (hne : ¬ (y = pf.pf_obj ∧ k = pf.pf_pagenum)) :
      Function.update s.disk vn (Function.update (s.disk vn) (PN_TO_ADDR pf.pf_pagenum) (s.mem pf.pf_addr)) vn' (PN_TO_ADDR k) =
        s.disk vn' (PN_TO_ADDR k) := by
    by_cases e : vn' = vn
    · subst e
      rw [hmap] at hy
      cases hy
      rw [Function.update_self, Function.update_of_ne]
      exact fun e => hne ⟨rfl, PN_TO_ADDR_inj e hk hlt⟩
    · rw [Function.update_of_ne e]
  refine ⟨h.fewer hL hM hobjs hsp (fun q hq => hq) hno fun q hq vn' hvn' hd => ?_, ?_⟩
  · have hq : q ∈ s.pframes := hq
    have hd : Function.update s.pf_dirty pf.pf_addr false q.pf_addr = false := hd
    show s.mem q.pf_addr = Function.update s.disk vn _ vn' _
    by_cases e : q = pf
    · subst e
      rw [hvn.unique hvn', Function.update_self, Function.update_self]
    · have haddr : q.pf_addr ≠ pf.pf_addr := fun e' => e (hB.frames.addr_inj hq hm e')
      rw [Function.update_of_ne haddr] at hd
      obtain ⟨hmap', hlt'⟩ := h.placed_file hq hvn'
      rw [hdisk hmap' hlt', h.saved q hq vn' hvn' hd]
      intro ⟨e1, e2⟩
      have h1 := (frame?_eq_some hB.frames).2 ⟨hq, e1, e2⟩
      rw [(frame?_eq_some hB.frames).2 ⟨hm, rfl, rfl⟩] at h1
      exact e (Option.some.inj h1).symm
  · refine h.flat_files (hch.congr rfl rfl) rfl rfl (fun _ _ _ => rfl) fun y vn' k hy hk => ?_
    obtain ⟨ob, hob, hops⟩ := h.own vn' y hy
    have hroot := hch.file_root (h.own vn' y hy).isFile
    cases hfr : s.frame? y k with
    | some q =>
      rw [hch.page_own hfr]
      exact hP.backing.chains.page_own hfr
    | none =>
      rw [hch.page_root hfr hroot]
      refine (hP.backing.chains.page_root hfr hroot).trans ?_
      simp only [State.source, hob, Option.map_some, hops]
      refine hdisk hy hk fun e => ?_
      obtain ⟨e1, e2⟩ := e
      rw [e1, e2, (frame?_eq_some hB.frames).2 ⟨hm, rfl, rfl⟩] at hfr
      cases hfr

/-! ## Freeing -/

/-- The page is gone, and the references to its object are counted. -/
theorem pframe_free_counts (hB : Backing C held s) (hheld : ∀ o, 0 ≤ held o) (hm : pf ∈ s.pframes) (hpin : s.pf_pincount pf.pf_addr = 0)
    (hvn : s.FileOf pf.pf_obj vn) (hlinked : (s.vnodes vn).query_vnode = true) (hf : pframe_free s pf = some s') :
    ∃ t, Dropped s pf t ∧ s'.pframes = t.pframes := by
  obtain ⟨ob, hob, hops⟩ := hvn
  obtain ⟨t, s₁, hf', hrel, hd, hput, -⟩ := pframe_free_effect hB hheld hm hpin
  rw [hf] at hf'
  cases hf'
  refine ⟨t, hd, ?_⟩
  simp only [pframe_free, hrel, bind, Option.bind_some, put] at hf
  cases hput with
  | counted => rfl
  | emptied hr he hzero =>
    -- a linked file keeps its other pages
    have hot : t.objs pf.pf_obj = some ob := (congrFun hd.objs _).trans hob
    have hvt : (t.vnodes vn).query_vnode = true := by rwa [show t.vnodes = s.vnodes from congrArg Spaces.vnodes hd.spaces]
    rw [vput_counts hot hops (by omega) (fun e => by simp [hvt] at e)] at hf
    cases hf
    rfl

theorem Mirrored.free (h : Mirrored C held s) (hv : s.victim = some pf) (hclean : s.pf_dirty pf.pf_addr = false) (ht : s.Traced pf)
    (hM : Marked s') (hf : pframe_free s pf = some s') : Mirrored C held s' ∧ s'.flat = s.flat := by
  have hB := h.backing
  have hch := hB.chains
  have hheld := h.outside.nonneg
  obtain ⟨hm, hpin⟩ := Linked.victim_mem hB hv
  obtain ⟨vn, hvn⟩ := Linked.victim_file hB hv
  obtain ⟨hP, hobjs, hsp, -⟩ := h.toPaged.free onChain_reads hheld hm hpin ht hf
  have hL := (h.toLinked.keep hP (fun o ob ho => by rw [hobjs]; exact ho) (congrArg Spaces.vnodes hsp)).linked
  obtain ⟨t, hd, hframes⟩ := pframe_free_counts hB hheld hm hpin hvn (h.stays vn) hf
  simp only [pframe_free, bind, Option.bind_eq_some_iff] at hf
  obtain ⟨t', hrel, hput⟩ := hf
  have hsh := (pframe_release_shrunk hrel).trans (shrunk_putSteps.put hput)
  have hmem (q : Pframe) : q ∈ s'.pframes ↔ q ≠ pf ∧ q ∈ s.pframes := by rw [hframes, hd.mem_pframes hB.frames]
  have hfr (y k : Nat) : s'.frame? y k = s.frame? y k ∨ (s.frame? y k = some pf ∧ s'.frame? y k = none) := by
    cases hs : s.frame? y k with
    | none =>
      refine .inl ?_
      rw [frame?_eq_none] at hs ⊢
      exact fun q hq => hs q ((hmem q).1 hq).2
    | some q =>
      obtain ⟨hq, hk⟩ := (frame?_eq_some hB.frames).1 hs
      by_cases e : q = pf
      · subst e
        refine .inr ⟨rfl, frame?_eq_none.2 fun x hx hxk => ((hmem x).1 hx).1 ?_⟩
        have := (frame?_eq_some hB.frames).2 ⟨((hmem x).1 hx).2, hxk⟩
        rw [hs] at this
        exact (Option.some.inj this).symm
      · exact .inl ((frame?_eq_some hP.backing.frames).2 ⟨(hmem q).2 ⟨e, hq⟩, hk⟩)
  refine ⟨h.fewer hL hM hobjs hsp hsh.frames hsh.pagedir fun q hq vn' hvn' hd' => ?_,
    h.flat_files hP.backing.chains hobjs hsp (fun y hy k => ?_) fun y vn' k hy hk => ?_⟩
  · rw [hsh.mem, hsh.disk]
    rw [hsh.dirty] at hd'
    exact h.saved q (hsh.frames q hq) vn' hvn' hd'
  · rcases hfr y k with e | ⟨e, -⟩
    · exact resident_of_frame? e hsh.mem
    · obtain ⟨-, rfl, -⟩ := (frame?_eq_some hB.frames).1 e
      exact absurd hvn.isFile hy
  · have hroot := hch.file_root (h.own vn' y hy).isFile
    have hroot' : s'.parent y = none := (congrFun (parent_congr hobjs) y).trans hroot
    obtain ⟨ob, hob, hops⟩ := h.own vn' y hy
    have hsource : s'.source y k = s.source y k := by simp only [State.source, hobjs, hsh.disk]
    rcases hfr y k with e | ⟨e, e'⟩
    · cases hs : s.frame? y k with
      | some q => rw [hch.page_own hs, hP.backing.chains.page_own (e.trans hs), hsh.mem]
      | none => rw [hch.page_root hs hroot, hP.backing.chains.page_root (e.trans hs) hroot', hsource]
    · -- the page was clean, so the disk has it
      obtain ⟨-, rfl, rfl⟩ := (frame?_eq_some hB.frames).1 e
      rw [hch.page_own e, hP.backing.chains.page_root e' hroot', hsource, h.saved pf hm vn' (h.own vn' _ hy) hclean]
      simp only [State.source, hob, Option.map_some, hops]

/-- A turn of the pageout daemon shows nothing. -/
theorem Mirrored.pageout (h : Mirrored C held s) (hio : ∀ n, E.io n = true) (ht : ∀ pf ∈ s.victim, s.Traced pf)
    (hp : pageoutd_turn E s = some s') : Mirrored C held s' ∧ s'.flat = s.flat := by
  have hM := (h.marked.pageout h.toLinked.to_below ht hp).1
  rcases Linked.pageout_cases hp with rfl | ⟨pf, hv, ⟨-, hc⟩ | ⟨hclean, hf⟩⟩
  · exact ⟨h, rfl⟩
  · obtain ⟨vn, hvn⟩ := Linked.victim_file h.backing hv
    exact h.clean hio (Linked.victim_mem h.backing hv).1 hvn (ht pf hv) hc
  · exact h.free hv hclean (ht pf hv) hM hf

end Weenix.Vm
