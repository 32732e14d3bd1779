import Weenix.Vm.Fills
/-!
# Pages on a disk that works

When no page operation of a file system fails, a frame that is added holds what
its page held, on every chain, and is clean. So getting a page changes no page.
-/

namespace Weenix.Vm

open Lib

variable {E : Env} {s s' t : State} {o b pn : Nat} {pf : Pframe} {ob : Mmobj} {ok : Bool}

/-- The frames `s'` has more than `s` hold what the pages held, and are clean. -/
def Filled (s s' : State) : Prop := ∀ pf ∈ s'.pframes, pf ∈ s.pframes ∨
  s'.mem pf.pf_addr = s.page pf.pf_obj pf.pf_pagenum ∧ s'.pf_dirty pf.pf_addr = false

/-- Then no page has changed. -/
theorem Grown.page_filled (h : Grown s s') (hfill : Filled s s') (hc : Chains s) (hf : Frames s) (hf' : Frames s')
    (o pn : Nat) : s'.page o pn = s.page o pn := by
  apply h.page_of hc hf hf'
  intro pf hm _
  exact (hfill pf hm).imp_right And.left

theorem Filled.new (hn : Fresh s o pn pf) (hp : t.pframes = pf :: s.pframes) (hm : t.mem pf.pf_addr = s.page o pn)
    (hd : t.pf_dirty pf.pf_addr = false) : Filled s t := by
  intro q hq
  rw [hp] at hq
  rcases List.mem_cons.1 hq with rfl | hq
  · refine .inr ⟨?_, hd⟩
    rw [hn.obj, hn.pagenum]
    exact hm
  · exact .inl hq

/-- A fill operation that fills a new frame with what the page held. -/
def FillsSure (fill : State → Nat → Pframe → Option (State × Bool)) (s : State) (o pn : Nat) : Prop :=
  ∀ pf t ok, Fresh s o pn pf → fill ((s.withFrame pf).setBusy pf.pf_addr true) o pf = some (t, ok) → Filled s t

theorem pframe_get_by_filled {fill : State → Nat → Pframe → Option (State × Bool)} (ho : s.objs o = some ob)
    (hr : 0 < s.mmo_refcount o) (hfill : FillsSure fill s o pn) (h : pframe_get_by E fill s o pn = some (s', pf, ok)) :
    Filled s s' := by
  cases hres : s.frame? o pn with
  | some p =>
    have hsame : s'.pframes = s.pframes := by
      simp only [pframe_get_by, pframe_get_resident, hres] at h
      split at h
      next t q he =>
        split at h
        · cases h
        · cases h
          split at he <;> cases he <;> rfl
      next he => split at he <;> cases he
    intro q hq
    rw [hsame] at hq
    exact .inl hq
  | none =>
    obtain ⟨p, hn, ha⟩ := pframe_alloc_total (E := E) ho hr hres
    simp only [pframe_get_by, pframe_get_resident, hres, ha, pframe_fill, bind, Option.bind_some, Option.bind_eq_some_iff,
      Option.some.injEq, Prod.mk.injEq, Prod.exists] at h
    obtain ⟨t', ok', ⟨t, ok'', ht, rfl, rfl⟩, rfl, rfl, rfl⟩ := h
    rw [hn.obj] at ht
    exact hfill p t _ hn ht

theorem fillBottom_sure (hio : ∀ n, E.io n = true) (hc : Chains s) (hf : Frames s) (ho : s.objs o = some ob)
    (hs : ob.mmo_ops ≠ .shadow) : FillsSure (fillBottom E) s o pn := by
  intro pf t ok hn h
  have hpage : s.page o pn = s.source o pn := hc.page_root hn.page ((Chains.parent_eq ho).trans (hc.root o ob ho hs))
  have ho' : ((s.withFrame pf).setBusy pf.pf_addr true).objs o = some ob := ho
  cases hops : ob.mmo_ops with
  | shadow => exact absurd hops hs
  | anon =>
    simp only [fillBottom, ho', hops, bind, Option.bind_some, anon_fillpage_eq newFrame_busy newFrame_pin,
      pframe_pin_new hf hn] at h
    cases h
    apply Filled.new hn rfl
    · rw [hpage]
      simp [State.source, ho, hops, State.setMem]
    · exact Function.update_self ..
  | vnode vn =>
    simp only [fillBottom, ho', hops, bind, Option.bind_some, vreadpage, hio, if_true] at h
    cases h
    apply Filled.new hn rfl
    · rw [hpage]
      simp only [State.source, ho, hops, Option.map_some, State.setMem, Function.update_self, hn.pagenum]
      rfl
    · exact Function.update_self ..

/-- A new frame of a shadow object is a copy of what is found below, and so is one that is added at the bottom for it. -/
theorem shadow_fillpage_sure (hio : ∀ n, E.io n = true) (hc : Chains s) (hf : Frames s) (ho : s.objs o = some ob)
    (hs : ob.mmo_ops = .shadow) (hb : s.bottomOf o = some b) (hr : 0 < s.mmo_refcount b)
    (hidle : ∀ q, s.frame? b pn = some q → s.pf_busy q.pf_addr = false) : FillsSure (shadow_fillpage E) s o pn := by
  intro pf t ok hn h
  obtain ⟨below, b', e1, e2, e3, e4⟩ := hc.shadow o ob ho hs
  have hbb : b' = b := by
    rw [Chains.bottom_shadow ho e1, e4] at hb
    exact Option.some.inj hb
  subst hbb
  obtain ⟨obb, hob, hobs⟩ := hc.bottom_obj e3
  have hpar : s.parent o = some below := (Chains.parent_eq ho).trans e1
  have hpo : s.page o pn = s.page below pn := hc.page_below hn.page hpar
  have hadd := added_pinned hn ho (by simp [Mmobj.isFile, hs]) (s.mem pf.pf_addr)
  have hclean : (s.withPinned pf (s.mem pf.pf_addr)).pf_dirty pf.pf_addr = false := Function.update_self ..
  have hu := hadd.frames hf hn ho
  generalize hw : (s.withPinned pf (s.mem pf.pf_addr)).setBusy pf.pf_addr true = w at *
  have hwobjs : w.objs = s.objs := by rw [← hw]; rfl
  have hwframes : w.pframes = pf :: s.pframes := by rw [← hw]; rfl
  have hwclean : w.pf_dirty pf.pf_addr = false := by rw [← hw]; exact hclean
  have hcw : Chains w := by rw [← hw]; exact hc.congr hadd.objs hadd.nobjs
  have hfw : Frames w := by rw [← hw]; exact hu.congr rfl rfl rfl rfl rfl rfl
  have hpage : ∀ x, x < o → w.page x pn = s.page x pn := fun x hx => by
    rw [← hw]
    exact hadd.page_below hn hc hx
  have hbw : w.bottomOf below = some b' := (bottomOf_congr hwobjs below).trans e3
  obtain ⟨r, hwalk, h1, h2⟩ := hcw.walk pn hbw (chainFuel below) (by unfold chainFuel; omega)
  rw [shadow_fillpage_walk hf hn hpar (hw ▸ hwalk), hw] at h
  cases r with
  | inl np =>
    cases h
    apply Filled.new hn
    · exact hwframes
    · rw [hpo, ← hpage below e2, hcw.page_resolves (h1 np rfl)]
      exact Function.update_self ..
    · exact hwclean
  | inr x =>
    obtain ⟨rfl, hbare⟩ := h2 x rfl
    have hlt : x < o := (hc.bottom_le e3).trans_lt e2
    have hbx : w.bottomOf x = some x := hcw.bottom_root ((congrFun hwobjs x).trans hob) hobs
    have hpx : s.page o pn = w.page x pn := by
      rw [hpo, ← hpage below e2, hbare.page hcw hbw]
    have hidle' : ∀ q, w.frame? x pn = some q → w.pf_busy q.pf_addr = false := fun q hq => by
      obtain ⟨hm, hqx, hqp⟩ := (frame?_eq_some hfw).1 hq
      rw [hwframes] at hm
      rcases List.mem_cons.1 hm with rfl | hm
      · have := hn.obj
        omega
      · have hne := hn.addr_ne hm
        rw [← hw]
        simp only [State.setBusy, Function.update_of_ne hne]
        rw [(hadd.others _ hne).1]
        exact hidle q ((frame?_eq_some hf).2 ⟨hm, hqx, hqp⟩)
    have hr' : 0 < w.mmo_refcount x := by
      rw [← hw]
      have h1 := (hadd.grown_refs x).1
      have h2 := (hadd.grown_refs x).2
      exact Nat.lt_of_lt_of_le hr (by simp only [State.setBusy]; omega)
    obtain ⟨u, np, ok', hget, hgot⟩ := pframe_get_bottom_total (E := E) hcw hfw ((congrFun hwobjs x).trans hob) hobs hr' hidle'
    have hfill : Filled w u := pframe_get_by_filled ((congrFun hwobjs x).trans hob) hr'
      (fillBottom_sure hio hcw hfw ((congrFun hwobjs x).trans hob) hobs) hget
    have hmem : u.mem np.pf_addr = s.page o pn := by
      rw [hpx, ← hgot.grown.page_filled hfill hcw hfw hgot.frames, (hgot.grown.chains hcw).page_own hgot.frame]
    have hin : pf ∈ u.pframes := hgot.grown.frames pf (by rw [hwframes]; exact List.mem_cons_self)
    simp only [Sum.elim_inr, hget, Option.map_some, Option.some.injEq, Prod.mk.injEq] at h
    obtain ⟨rfl, -⟩ := h
    intro q hq
    have hqu : q ∈ u.pframes := hq
    by_cases e : q = pf
    · subst e
      refine .inr ⟨?_, ?_⟩
      · rw [hn.obj, hn.pagenum, ← hmem]
        exact Function.update_self ..
      · exact (hgot.grown.dirty q (by rw [hwframes]; exact List.mem_cons_self)).trans hwclean
    · have hne : q.pf_addr ≠ pf.pf_addr := fun h => e (hgot.frames.addr_inj hqu hin h)
      rcases hfill q hqu with hold | ⟨hnew, hd⟩
      · rw [hwframes] at hold
        exact .inl ((List.mem_cons.1 hold).resolve_left e)
      · rcases hgot.only q hqu with hold | ⟨hq1, hq2⟩
        · rw [hwframes] at hold
          exact .inl ((List.mem_cons.1 hold).resolve_left e)
        · have hqx : q.pf_obj = x := by
            rcases hq2 with hq2 | hq2
            · exact hq2
            · rw [hbx] at hq2
              exact (Option.some.inj hq2).symm
          refine .inr ⟨?_, hd⟩
          simp only [State.setMem, Function.update_of_ne hne]
          rw [hnew, hqx, hq1]
          exact hpage x hlt

theorem fillpage_sure (hio : ∀ n, E.io n = true) (hc : Chains s) (hf : Frames s) (hi : Idle s) (hb : s.bottomOf o = some b)
    (hr : 0 < s.mmo_refcount b) : FillsSure (fillpage E) s o pn := by
  obtain ⟨ob, ho⟩ := Chains.of_bottom hb
  intro pf t ok hn h
  have ho' : ((s.withFrame pf).setBusy pf.pf_addr true).objs o = some ob := ho
  by_cases hs : ob.mmo_ops = .shadow
  · simp only [fillpage, ho', hs, bind, Option.bind_some] at h
    exact shadow_fillpage_sure hio hc hf ho hs hb hr hi.frame pf t ok hn h
  · have e : fillpage E ((s.withFrame pf).setBusy pf.pf_addr true) o pf =
        fillBottom E ((s.withFrame pf).setBusy pf.pf_addr true) o pf := by
      cases hops : ob.mmo_ops with
      | shadow => exact absurd hops hs
      | anon => simp only [fillpage, ho', hops, bind, Option.bind_some]
      | vnode vn => simp only [fillpage, ho', hops, bind, Option.bind_some]
    rw [e] at h
    exact fillBottom_sure hio hc hf ho hs pf t ok hn h

/-- A page that is got holds what it held, and no other has changed. -/
theorem pframe_get_sure (hio : ∀ n, E.io n = true) (pn : Nat) (hc : Chains s) (hf : Frames s) (hi : Idle s)
    (hb : s.bottomOf o = some b) (hr : 0 < s.mmo_refcount o) (hrb : 0 < s.mmo_refcount b) :
    ∃ s' pf ok, pframe_get E s o pn = some (s', pf, ok) ∧ Got s o pn s' pf ∧ Filled s s' := by
  obtain ⟨ob, ho⟩ := Chains.of_bottom hb
  obtain ⟨s', pf, ok, hget, hgot⟩ := pframe_get_total (E := E) pn hc hf hi hb hr hrb
  exact ⟨s', pf, ok, hget, hgot, pframe_get_by_filled ho hr (fillpage_sure hio hc hf hi hb hrb) hget⟩

end Weenix.Vm
