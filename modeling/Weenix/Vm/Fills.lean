import Weenix.Vm.Resident
/-!
# Getting pages

`pframe_get` and `shadow_lookuppage` return where `Chains` and `Frames` hold and
the objects involved have references; they keep `Frames` and only add frames.
-/

namespace Weenix.Vm

open Lib

variable {C : Config} {E : Env} {s s' t : State} {o b pn : Nat} {pf : Pframe} {ob : Mmobj}

/-! ## A new frame -/

/-- `pf` is a frame for page `pn` of `o`, which is not resident, in a physical page that is not used. -/
structure Fresh (s : State) (o pn : Nat) (pf : Pframe) : Prop where
  obj : pf.pf_obj = o
  pagenum : pf.pf_pagenum = pn
  addr : pf.pf_addr ∉ s.usedPages
  page : s.frame? o pn = none

/-- The state after `pframe_alloc`. -/
def State.withFrame (s : State) (pf : Pframe) : State :=
  { s with
    clock := s.clock + 1
    alloc_list := s.alloc_list ++ [pf.pf_addr]
    pframes := pf :: s.pframes
    pf_busy := Function.update s.pf_busy pf.pf_addr false
    pf_dirty := Function.update s.pf_dirty pf.pf_addr false
    pf_pincount := Function.update s.pf_pincount pf.pf_addr 0
    mmo_refcount := Function.update s.mmo_refcount pf.pf_obj (s.mmo_refcount pf.pf_obj + 1)
    mmo_nrespages := Function.update s.mmo_nrespages pf.pf_obj (s.mmo_nrespages pf.pf_obj + 1) }

theorem pframe_alloc_total (ho : s.objs o = some ob) (hr : 0 < s.mmo_refcount o) (hn : s.frame? o pn = none) :
    ∃ pf, Fresh s o pn pf ∧ pframe_alloc E s o pn = some (s.withFrame pf, pf) := by
  refine ⟨⟨E.page_alloc s.clock s.usedPages, o, pn⟩, ⟨rfl, rfl, E.page_fresh _ _, hn⟩, ?_⟩
  simp [pframe_alloc, mmobj_ref, KASSERT, State.insertFrame, State.tick, State.setBusy, State.setDirty, State.setPin,
    State.setRefcount, State.setNres, State.withFrame, ho, hr]

namespace Fresh

theorem not_mem (h : Fresh s o pn pf) : pf ∉ s.pframes := fun hm => h.addr (List.mem_map_of_mem hm)

theorem addr_ne (h : Fresh s o pn pf) {q : Pframe} (hq : q ∈ s.pframes) : q.pf_addr ≠ pf.pf_addr := fun e =>
  h.addr (e ▸ List.mem_map_of_mem hq)

end Fresh

/-- What a state with the frame `pf` more has in common with `s`. -/
structure Added (s : State) (pf : Pframe) (s' : State) : Prop where
  spaces : s'.spaces = s.spaces
  objs : s'.objs = s.objs
  nobjs : s'.nobjs = s.nobjs
  vmas : s'.mmo_vmas = s.mmo_vmas
  pagedir : s'.p_pagedir = s.p_pagedir
  disk : s'.disk = s.disk
  num : s'.num = s.num
  temp_c : s'.temp_c = s.temp_c
  pframes : s'.pframes = pf :: s.pframes
  refcount : s'.mmo_refcount = Function.update s.mmo_refcount pf.pf_obj (s.mmo_refcount pf.pf_obj + 1)
  nres : s'.mmo_nrespages = Function.update s.mmo_nrespages pf.pf_obj (s.mmo_nrespages pf.pf_obj + 1)
  busy : s'.pf_busy pf.pf_addr = false
  pin : ∀ ob, s.objs pf.pf_obj = some ob →
    if ob.isFile then s'.pf_pincount pf.pf_addr = 0 ∧ s'.alloc_list = s.alloc_list ++ [pf.pf_addr]
    else s'.pf_pincount pf.pf_addr = 1 ∧ pf.pf_addr ∈ s'.pinned_list ∧ s'.alloc_list = s.alloc_list
  others : ∀ pg, pg ≠ pf.pf_addr → s'.pf_busy pg = s.pf_busy pg ∧ s'.pf_dirty pg = s.pf_dirty pg ∧
    s'.pf_pincount pg = s.pf_pincount pg ∧ (pg ∈ s.pinned_list → pg ∈ s'.pinned_list) ∧ s'.mem pg = s.mem pg

namespace Added

theorem frames (h : Added s pf s') (hf : Frames s) (hn : Fresh s o pn pf) (ho : s.objs o = some ob) : Frames s' := by
  obtain ⟨rfl, rfl, haddr, hpage⟩ := hn
  have hne : ∀ q ∈ s.pframes, q.pf_addr ≠ pf.pf_addr := fun q hq e => haddr (e ▸ List.mem_map_of_mem hq)
  have hpin := h.pin ob ho
  have halloc : ∀ pg, pg ∈ s'.alloc_list ↔ pg ∈ s.alloc_list ∨ (ob.isFile = true ∧ pg = pf.pf_addr) := fun pg => by
    cases hfile : ob.isFile <;> rw [hfile] at hpin
    · rw [hpin.2.2]; simp
    · rw [hpin.2]; simp
  constructor
  case pages =>
    rw [h.pframes, List.map_cons, List.nodup_cons]
    refine ⟨fun hm => ?_, hf.pages⟩
    obtain ⟨q, hq, he⟩ := List.mem_map.1 hm
    exact frame?_eq_none.1 hpage q hq ⟨congrArg Prod.fst he, congrArg Prod.snd he⟩
  case addrs =>
    simp only [State.usedPages, h.pframes, List.map_cons, List.nodup_cons]
    exact ⟨haddr, hf.addrs⟩
  case owner =>
    intro q hq
    rw [h.pframes] at hq
    rw [h.objs]
    rcases List.mem_cons.1 hq with rfl | hq
    · exact ⟨ob, ho⟩
    · exact hf.owner q hq
  case resident =>
    intro x
    rw [h.nres, h.pframes, List.countP_cons]
    by_cases e : pf.pf_obj = x
    · subst e
      simp [hf.resident]
    · rw [Function.update_of_ne (Ne.symm e), hf.resident]
      simp [e]
  case file =>
    intro q hq ob' hob hfile
    rw [h.pframes] at hq
    rw [h.objs] at hob
    rcases List.mem_cons.1 hq with rfl | hq
    · rw [ho] at hob
      cases hob
      rw [hfile] at hpin
      exact ⟨hpin.1, (halloc _).2 (.inr ⟨hfile, rfl⟩)⟩
    · obtain ⟨h1, h2⟩ := hf.file q hq ob' hob hfile
      exact ⟨(h.others _ (hne q hq)).2.2.1.trans h1, (halloc _).2 (.inl h2)⟩
  case pinned =>
    intro q hq ob' hob hfile
    rw [h.pframes] at hq
    rw [h.objs] at hob
    rcases List.mem_cons.1 hq with rfl | hq
    · rw [ho] at hob
      cases hob
      rw [hfile] at hpin
      refine ⟨hpin.1, hpin.2.1, fun hm => ?_⟩
      rw [halloc, hfile] at hm
      simp only [Bool.false_eq_true, false_and, or_false] at hm
      exact haddr (hf.alloc _ hm)
    · obtain ⟨h1, h2, h3⟩ := hf.pinned q hq ob' hob hfile
      obtain ⟨-, -, e1, e2, -⟩ := h.others _ (hne q hq)
      refine ⟨e1.trans h1, e2 h2, fun hm => ?_⟩
      rcases (halloc _).1 hm with hm | ⟨-, e⟩
      · exact h3 hm
      · exact hne q hq e
  case alloc_once =>
    cases hfile : ob.isFile <;> rw [hfile] at hpin
    · rw [hpin.2.2]; exact hf.alloc_once
    · rw [hpin.2]
      refine List.nodup_append.2 ⟨hf.alloc_once, by simp, fun x hx y hy => ?_⟩
      rw [List.mem_singleton.1 hy]
      rintro rfl
      exact haddr (hf.alloc _ hx)
  case alloc =>
    intro pg hpg
    simp only [State.usedPages, h.pframes, List.map_cons, List.mem_cons]
    rcases (halloc pg).1 hpg with hm | ⟨-, e⟩
    · exact .inr (hf.alloc pg hm)
    · exact .inl e

theorem grown_refs (h : Added s pf s') (x : Nat) :
    s'.mmo_refcount x + s.mmo_nrespages x = s.mmo_refcount x + s'.mmo_nrespages x ∧
      s.mmo_nrespages x ≤ s'.mmo_nrespages x := by
  rw [h.refcount, h.nres]
  by_cases e : x = pf.pf_obj
  · subst e
    simp only [Function.update_self]
    omega
  · simp [Function.update_of_ne e]

theorem grown (h : Added s pf s') (hn : Fresh s o pn pf)
    (hmem : s.Anonymous o → s'.mem pf.pf_addr = s.page o pn) : Grown s s' := by
  obtain ⟨rfl, rfl, haddr, hpage⟩ := hn
  have hne : ∀ q ∈ s.pframes, q.pf_addr ≠ pf.pf_addr := fun q hq e => haddr (e ▸ List.mem_map_of_mem hq)
  refine ⟨h.spaces, h.objs, h.nobjs, h.vmas, h.pagedir, h.disk, h.num, h.temp_c, fun q hq => ?_,
    fun x => (h.grown_refs x).1, fun x => (h.grown_refs x).2, fun q hq => (h.others _ (hne q hq)).2.2.2.2, fun q hq => (h.others _ (hne q hq)).2.1,
    fun q hq hb => ?_, fun q hq => ?_⟩
  · rw [h.pframes]; exact List.mem_cons_of_mem _ hq
  · rw [h.pframes] at hq
    rcases List.mem_cons.1 hq with rfl | hq
    · rw [h.busy] at hb; cases hb
    · exact ⟨hq, by rwa [(h.others _ (hne q hq)).1] at hb⟩
  · rw [h.pframes] at hq
    rcases List.mem_cons.1 hq with rfl | hq
    · exact .inr ⟨hpage, hmem⟩
    · exact .inl hq

end Added

/-! ## Getting a frame -/

/-- The new frames are for page `pn` of `o` or of its bottom object. -/
def NewFrames (s : State) (o pn : Nat) (s' : State) : Prop :=
  ∀ q ∈ s'.pframes, q ∈ s.pframes ∨ (q.pf_pagenum = pn ∧ (q.pf_obj = o ∨ s.bottomOf o = some q.pf_obj))

/-- `pf` is the resident frame of page `pn` of `o` after getting it. -/
structure Got (s : State) (o pn : Nat) (s' : State) (pf : Pframe) : Prop where
  grown : Grown s s'
  frames : Frames s'
  frame : s'.frame? o pn = some pf
  only : NewFrames s o pn s'

namespace Got

theorem mem (h : Got s o pn s' pf) : pf ∈ s'.pframes := ((frame?_eq_some h.frames).1 h.frame).1

theorem obj (h : Got s o pn s' pf) : pf.pf_obj = o := ((frame?_eq_some h.frames).1 h.frame).2.1

/-- The frame holds what the page held. -/
theorem page (h : Got s o pn s' pf) (hc : Chains s) (hf : Frames s) (ha : s.Anonymous o) :
    s'.mem pf.pf_addr = s.page o pn := by
  rw [← h.grown.page hc hf h.frames ha, (h.grown.chains hc).page_own h.frame]

end Got

theorem touch_got (hf : Frames s) (h : s.frame? o pn = some pf) (hpin : s.pf_pincount pf.pf_addr = 0) :
    Got s o pn (s.touchFrame pf) pf := by
  obtain ⟨hm, -⟩ := (frame?_eq_some hf).1 h
  have hin : pf.pf_addr ∈ s.alloc_list := by
    obtain ⟨ob, ho⟩ := hf.owner pf hm
    cases hfile : ob.isFile with
    | true => exact (hf.file pf hm ob ho hfile).2
    | false =>
      have := (hf.pinned pf hm ob ho hfile).1
      omega
  have halloc : ∀ pg, pg ∈ (s.touchFrame pf).alloc_list ↔ pg ∈ s.alloc_list := fun pg => by
    simp only [State.touchFrame, List.mem_append, List.mem_singleton, hf.alloc_once.mem_erase_iff]
    by_cases e : pg = pf.pf_addr
    · simp [e, hin]
    · simp [e]
  refine ⟨⟨rfl, rfl, rfl, rfl, rfl, rfl, rfl, rfl, fun _ h => h, fun _ => rfl, fun _ => le_rfl, fun _ _ => rfl,
    fun _ _ => rfl, fun _ hm h => ⟨hm, h⟩, fun _ h => .inl h⟩, ⟨hf.pages, hf.addrs, hf.owner, hf.resident, ?_, ?_, ?_, ?_⟩, h, ?_⟩
  · intro q hq ob ho hfile
    rw [halloc]
    exact hf.file q hq ob ho hfile
  · intro q hq ob ho hfile
    rw [halloc]
    exact hf.pinned q hq ob ho hfile
  · refine List.nodup_append.2 ⟨hf.alloc_once.erase _, by simp, fun x hx y hy => ?_⟩
    rw [List.mem_singleton.1 hy]
    exact ((hf.alloc_once.mem_erase_iff).1 hx).1
  · intro pg hpg
    exact hf.alloc pg ((halloc pg).1 hpg)
  · exact fun q hq => .inl hq

/-- A fill operation that returns when `pf` is a new frame for page `pn` of `o`, marked busy. -/
def FillsPage (fill : State → Nat → Pframe → Option (State × Bool)) (s : State) (o pn : Nat) : Prop :=
  ∀ pf, Fresh s o pn pf → ∃ t ok, fill ((s.withFrame pf).setBusy pf.pf_addr true) o pf = some (t, ok) ∧
    Grown s (t.setBusy pf.pf_addr false) ∧ Frames (t.setBusy pf.pf_addr false) ∧ pf ∈ t.pframes ∧
    NewFrames s o pn (t.setBusy pf.pf_addr false)

theorem pframe_get_by_total {fill : State → Nat → Pframe → Option (State × Bool)} (hf : Frames s)
    (ho : s.objs o = some ob) (hr : 0 < s.mmo_refcount o)
    (hidle : ∀ pf, s.frame? o pn = some pf → s.pf_busy pf.pf_addr = false) (hfill : FillsPage fill s o pn) :
    ∃ s' pf ok, pframe_get_by E fill s o pn = some (s', pf, ok) ∧ Got s o pn s' pf := by
  cases hres : s.frame? o pn with
  | some pf =>
    have hb := hidle pf hres
    by_cases hpin : s.pf_pincount pf.pf_addr = 0
    · refine ⟨s.touchFrame pf, pf, true, ?_, touch_got hf hres hpin⟩
      have : (s.touchFrame pf).pf_busy pf.pf_addr = false := hb
      simp [pframe_get_by, pframe_get_resident, hres, hpin, this]
    · refine ⟨s, pf, true, ?_, .refl s, hf, hres, fun q hq => .inl hq⟩
      simp [pframe_get_by, pframe_get_resident, hres, hpin, hb]
  | none =>
    obtain ⟨pf, hn, ha⟩ := pframe_alloc_total (E := E) ho hr hres
    obtain ⟨t, ok, ht, hg, hf', hm, ho'⟩ := hfill pf hn
    have hobj := hn.obj
    refine ⟨t.setBusy pf.pf_addr false, pf, ok, ?_, hg, hf', (frame?_eq_some hf').2 ⟨hm, hn.obj, hn.pagenum⟩, ho'⟩
    subst hobj
    simp [pframe_get_by, pframe_get_resident, pframe_fill, hres, ha, ht]

/-! ## Filling -/

/-- The state with the new frame `pf` pinned and filled with `x`. -/
def State.withPinned (s : State) (pf : Pframe) (x : Page) : State :=
  { s with
    clock := s.clock + 1
    pinned_list := s.pinned_list ++ [pf.pf_addr]
    pframes := pf :: s.pframes
    pf_busy := Function.update s.pf_busy pf.pf_addr false
    pf_dirty := Function.update s.pf_dirty pf.pf_addr false
    pf_pincount := Function.update s.pf_pincount pf.pf_addr 1
    mmo_refcount := Function.update s.mmo_refcount pf.pf_obj (s.mmo_refcount pf.pf_obj + 1)
    mmo_nrespages := Function.update s.mmo_nrespages pf.pf_obj (s.mmo_nrespages pf.pf_obj + 1)
    mem := Function.update s.mem pf.pf_addr x }

theorem erase_new {l : List Nat} {x : Nat} (h : x ∉ l) : (l ++ [x]).erase x = l := by
  rw [List.erase_append_right _ h]
  simp

theorem pframe_pin_new (hf : Frames s) (hn : Fresh s o pn pf) :
    pframe_pin ((s.withFrame pf).setBusy pf.pf_addr true) pf.pf_addr =
      (s.withPinned pf (s.mem pf.pf_addr)).setBusy pf.pf_addr true := by
  have hout : pf.pf_addr ∉ s.alloc_list := fun hm => hn.addr (hf.alloc _ hm)
  unfold pframe_pin
  rw [if_pos (by simp [State.withFrame, State.setBusy])]
  simp [State.withFrame, State.setBusy, State.setPin, State.withPinned, erase_new hout]

theorem withPinned_fill (x y : Page) :
    (((s.withPinned pf x).setBusy pf.pf_addr true).setMem pf.pf_addr y).setBusy pf.pf_addr false = s.withPinned pf y := by
  simp [State.setBusy, State.setMem, State.withPinned]

theorem added_pinned (hn : Fresh s o pn pf) (ho : s.objs o = some ob) (hfile : ob.isFile = false) (x : Page) :
    Added s pf (s.withPinned pf x) := by
  refine ⟨rfl, rfl, rfl, rfl, rfl, rfl, rfl, rfl, rfl, rfl, rfl, Function.update_self .., fun ob' ho' => ?_,
    fun pg hpg => ?_⟩
  · rw [hn.obj, ho] at ho'
    cases ho'
    simp [hfile, State.withPinned]
  · simp only [State.withPinned, Function.update_of_ne hpg, true_and, and_true]
    exact fun h => List.mem_append_left _ h

theorem added_file (hn : Fresh s o pn pf) (ho : s.objs o = some ob) (hfile : ob.isFile = true) (n : Nat)
    {m : Nat → Page} (hm : ∀ pg, pg ≠ pf.pf_addr → m pg = s.mem pg) : Added s pf
      ({ (s.withFrame pf).setBusy pf.pf_addr true with clock := n, mem := m }.setBusy pf.pf_addr false) := by
  refine ⟨rfl, rfl, rfl, rfl, rfl, rfl, rfl, rfl, rfl, rfl, rfl, by simp [State.setBusy], fun ob' ho' => ?_,
    fun pg hpg => ?_⟩
  · rw [hn.obj, ho] at ho'
    cases ho'
    simp [hfile, State.setBusy, State.withFrame]
  · simp only [State.setBusy, State.withFrame, Function.update_of_ne hpg, true_and, hm pg hpg, and_true]
    exact id

theorem newFrame_busy : ((s.withFrame pf).setBusy pf.pf_addr true).pf_busy pf.pf_addr = true :=
  Function.update_self ..

theorem newFrame_pin : ((s.withFrame pf).setBusy pf.pf_addr true).pf_pincount pf.pf_addr = 0 :=
  Function.update_self ..

theorem anon_fillpage_eq (hb : s.pf_busy pf.pf_addr = true) (hp : s.pf_pincount pf.pf_addr = 0) :
    anon_fillpage s pf = some ((pframe_pin s pf.pf_addr).setMem pf.pf_addr fun _ => 0, true) := by
  simp [anon_fillpage, KASSERT, hb, hp]

/-- A new frame that is filled, with what has become of the state. -/
theorem filled {fill : State → Nat → Pframe → Option (State × Bool)} {ok : Bool} (hf : Frames s) (hn : Fresh s o pn pf)
    (ho : s.objs o = some ob) (hfill : fill ((s.withFrame pf).setBusy pf.pf_addr true) o pf = some (t, ok))
    (hadd : Added s pf (t.setBusy pf.pf_addr false)) (hpage : s.Anonymous o → t.mem pf.pf_addr = s.page o pn) :
    ∃ t ok, fill ((s.withFrame pf).setBusy pf.pf_addr true) o pf = some (t, ok) ∧
      Grown s (t.setBusy pf.pf_addr false) ∧ Frames (t.setBusy pf.pf_addr false) ∧ pf ∈ t.pframes ∧
      NewFrames s o pn (t.setBusy pf.pf_addr false) := by
  have hm : t.pframes = pf :: s.pframes := hadd.pframes
  refine ⟨t, ok, hfill, hadd.grown hn hpage, hadd.frames hf hn ho, by rw [hm]; simp, fun q hq => ?_⟩
  rw [hadd.pframes] at hq
  rcases List.mem_cons.1 hq with rfl | hq
  · exact .inr ⟨hn.pagenum, .inl hn.obj⟩
  · exact .inl hq

theorem fillBottom_total (hc : Chains s) (hf : Frames s) (ho : s.objs o = some ob) (hs : ob.mmo_ops ≠ .shadow) :
    FillsPage (fillBottom E) s o pn := by
  intro pf hn
  have ho' : ((s.withFrame pf).setBusy pf.pf_addr true).objs o = some ob := ho
  cases hops : ob.mmo_ops with
  | shadow => exact absurd hops hs
  | anon =>
    have hfile : ob.isFile = false := by simp [Mmobj.isFile, hops]
    have hfill : fillBottom E ((s.withFrame pf).setBusy pf.pf_addr true) o pf =
        some ((pframe_pin ((s.withFrame pf).setBusy pf.pf_addr true) pf.pf_addr).setMem pf.pf_addr fun _ => 0, true) := by
      simp only [fillBottom, ho', hops, bind, Option.bind_some]
      exact anon_fillpage_eq newFrame_busy newFrame_pin
    apply filled hf hn ho hfill (by rw [pframe_pin_new hf hn, withPinned_fill]; exact added_pinned hn ho hfile _)
    intro _
    rw [hc.page_root hn.page ((Chains.parent_eq ho).trans (hc.root o ob ho hs))]
    simp [State.source, ho, hops, State.setMem]
  | vnode vn =>
    have hfile : ob.isFile = true := by simp [Mmobj.isFile, hops]
    have hano : ¬ s.Anonymous o := by
      rintro ⟨b, ob', h1, h2, h3⟩
      rw [hc.bottom_root ho hs] at h1
      cases h1
      rw [ho] at h2
      cases h2
      rw [hops] at h3
      cases h3
    have hread : fillBottom E ((s.withFrame pf).setBusy pf.pf_addr true) o pf =
        vreadpage E ((s.withFrame pf).setBusy pf.pf_addr true) vn pf := by
      simp only [fillBottom, ho', hops, bind, Option.bind_some]
    cases hio : E.io ((s.withFrame pf).setBusy pf.pf_addr true).clock with
    | true =>
      rw [vreadpage, if_pos hio] at hread
      apply filled hf hn ho hread _ fun h => absurd h hano
      exact added_file hn ho hfile _ fun pg hpg => Function.update_of_ne hpg _ _
    | false =>
      rw [vreadpage, if_neg (by simp [hio])] at hread
      apply filled hf hn ho hread _ fun h => absurd h hano
      exact added_file hn ho hfile _ fun _ _ => rfl

theorem pframe_get_bottom_total (hc : Chains s) (hf : Frames s) (ho : s.objs o = some ob) (hs : ob.mmo_ops ≠ .shadow)
    (hr : 0 < s.mmo_refcount o) (hidle : ∀ pf, s.frame? o pn = some pf → s.pf_busy pf.pf_addr = false) :
    ∃ s' pf ok, pframe_get_bottom E s o pn = some (s', pf, ok) ∧ Got s o pn s' pf :=
  pframe_get_by_total hf ho hr hidle (fillBottom_total hc hf ho hs)

/-- What is reached from an older object is older. -/
theorem Chains.reaches_lt (hc : Chains s) {x y : Nat} (hy : Layers.Reaches s.parent x y) (hx : x < o) : y < o := by
  induction hy with
  | refl => exact hx
  | tail _ hz ih => exact (hc.parent_lt hz).trans ih

/-- A new frame of `o` is no frame of another object. -/
theorem Added.frame?_ne (h : Added s pf t) (hn : Fresh s o pn pf) {y : Nat} (k : Nat) (hy : y ≠ o) :
    t.frame? y k = s.frame? y k := by
  unfold State.frame?
  rw [h.pframes, List.find?_cons_of_neg]
  have := hn.obj
  simp only [decide_eq_true_eq]
  omega

/-- The chains below `o` do not see a new frame of `o`. -/
theorem Added.resolves_below (h : Added s pf t) (hn : Fresh s o pn pf) (hc : Chains s) {x : Nat} (k : Nat) (hx : x < o) :
    t.resolves x k = s.resolves x k := by
  have hg : Layers.Grounded t.parent := by rw [parent_congr h.objs]; exact hc.grounded
  unfold State.resolves Layers.find
  apply Layers.read_congr hc.grounded hg
  intro y hy
  have hlt := hc.reaches_lt hy hx
  exact ⟨by rw [parent_congr h.objs], by rw [h.frame?_ne hn k hlt.ne], rfl⟩

/-- The pages below hold what they held. -/
theorem Added.page_below (h : Added s pf t) (hn : Fresh s o pn pf) (hc : Chains s) {x k : Nat} (hx : x < o) :
    t.page x k = s.page x k := by
  have hg : Layers.Grounded t.parent := by rw [parent_congr h.objs]; exact hc.grounded
  unfold State.page
  apply Layers.read_congr hc.grounded hg
  intro y hy
  have hfr := h.frame?_ne hn k (hc.reaches_lt hy hx).ne
  refine ⟨by rw [parent_congr h.objs], ?_, by rw [source_congr h.objs h.disk]⟩
  simp only [State.resident, hfr]
  cases hs : s.frame? y k with
  | none => rfl
  | some q =>
    have hq : q ∈ s.pframes := List.mem_of_find?_eq_some hs
    simp [(h.others _ (hn.addr_ne hq)).2.2.2.2]

/-- A new frame of `o` is filled from the frame `np` of the bottom object `b`,
which was got when the new frame was there already. -/
theorem filled_over {np : Pframe} {u : State} (hc : Chains s) (hn : Fresh s o pn pf)
    (hadd : Added s pf u) (hu : Frames u) (hb : s.bottomOf o = some b) (hlt : b < o)
    (hpage : s.page o pn = s.page b pn) (hg : Got (u.setBusy pf.pf_addr true) b pn t np) :
    Grown s ((t.setMem pf.pf_addr (t.mem np.pf_addr)).setBusy pf.pf_addr false) := by
  have hgr := hg.grown
  have hcu : Chains (u.setBusy pf.pf_addr true) := hc.congr hadd.objs hadd.nobjs
  have hfu : Frames (u.setBusy pf.pf_addr true) := hu.congr rfl rfl rfl rfl rfl rfl
  have hbpage : u.page b pn = s.page b pn := hadd.page_below hn hc hlt
  have hbot : ∀ x, (u.setBusy pf.pf_addr true).bottomOf x = s.bottomOf x := fun x => bottomOf_congr hadd.objs x
  have hbb : s.bottomOf b = some b := by
    obtain ⟨ob, h1, h2⟩ := hc.bottom_obj hb
    exact hc.bottom_root h1 h2
  have hanon : ∀ x, (u.setBusy pf.pf_addr true).Anonymous x ↔ s.Anonymous x := fun x => by
    have hobjs : (u.setBusy pf.pf_addr true).objs = s.objs := hadd.objs
    unfold State.Anonymous
    simp only [bottomOf_congr hobjs, hobjs]
  have hin : ∀ q ∈ s.pframes, q ∈ u.pframes := fun q hq => by rw [hadd.pframes]; exact List.mem_cons_of_mem _ hq
  constructor
  case spaces => exact hgr.spaces.trans hadd.spaces
  case objs => exact hgr.objs.trans hadd.objs
  case nobjs => exact hgr.nobjs.trans hadd.nobjs
  case vmas => exact hgr.vmas.trans hadd.vmas
  case pagedir => exact hgr.pagedir.trans hadd.pagedir
  case disk => exact hgr.disk.trans hadd.disk
  case num => exact hgr.num.trans hadd.num
  case temp_c => exact hgr.temp_c.trans hadd.temp_c
  case frames => exact fun q hq => hgr.frames q (hin q hq)
  case refs =>
    intro x
    have h1 := (hadd.grown_refs x).1
    have h2 : t.mmo_refcount x + u.mmo_nrespages x = u.mmo_refcount x + t.mmo_nrespages x := hgr.refs x
    simp only [State.setBusy, State.setMem]
    omega
  case nres =>
    intro x
    exact (hadd.grown_refs x).2.trans (hgr.nres x :)
  case mem =>
    intro q hq
    have h1 := hgr.mem q (hin q hq)
    have h2 := (hadd.others _ (hn.addr_ne hq)).2.2.2.2
    simp only [State.setBusy, State.setMem, Function.update_of_ne (hn.addr_ne hq)]
    exact h1.trans h2
  case dirty =>
    intro q hq
    exact (hgr.dirty q (hin q hq) :).trans (hadd.others _ (hn.addr_ne hq)).2.1
  case busy =>
    intro q hq hbq
    by_cases e : q.pf_addr = pf.pf_addr
    · simp [State.setBusy, e] at hbq
    · simp only [State.setBusy, State.setMem, Function.update_of_ne e] at hbq
      obtain ⟨h1, h2⟩ := hgr.busy q hq hbq
      simp only [State.setBusy, Function.update_of_ne e] at h1 h2
      rw [hadd.pframes] at h1
      rcases List.mem_cons.1 h1 with rfl | h1
      · exact absurd rfl e
      · exact ⟨h1, (hadd.others _ (hn.addr_ne h1)).1 ▸ h2⟩
  case filled =>
    intro q hq
    have hq' : q ∈ t.pframes := hq
    -- the frame of the bottom object holds what the page held
    have hmem : s.Anonymous b → t.mem np.pf_addr = s.page b pn := fun ha =>
      (hg.page hcu hfu ((hanon b).2 ha)).trans hbpage
    by_cases e : q.pf_addr = pf.pf_addr
    · have hqp : q = pf := hg.frames.addr_inj hq' (hgr.frames pf (by show pf ∈ u.pframes; rw [hadd.pframes]; simp)) e
      subst hqp
      refine .inr ⟨by rw [hn.obj, hn.pagenum]; exact hn.page, fun ha => ?_⟩
      rw [hn.obj] at ha ⊢
      obtain ⟨b', ob', h1, h2, h3⟩ := ha
      rw [hb] at h1
      cases h1
      simp only [State.setBusy, State.setMem, Function.update_self]
      rw [hn.pagenum, hpage]
      exact hmem ⟨b, ob', hbb, h2, h3⟩
    · have hstay : ((t.setMem pf.pf_addr (t.mem np.pf_addr)).setBusy pf.pf_addr false).mem q.pf_addr = t.mem q.pf_addr := by
        simp only [State.setBusy, State.setMem, Function.update_of_ne e]
      rcases hgr.filled q hq' with h1 | ⟨h1, h2⟩
      · have h1' : q ∈ u.pframes := h1
        rw [hadd.pframes] at h1'
        rcases List.mem_cons.1 h1' with rfl | h1'
        · exact absurd rfl e
        · exact .inl h1'
      · rcases hg.only q hq' with h3 | ⟨h3, h4⟩
        · exact absurd ⟨rfl, rfl⟩ (frame?_eq_none.1 h1 q h3)
        · have hqb : q.pf_obj = b := by
            rcases h4 with h4 | h4
            · exact h4
            · rw [hbot, hbb] at h4
              exact (Option.some.inj h4).symm
          refine .inr ⟨?_, fun ha => ?_⟩
          · rw [frame?_eq_none] at h1 ⊢
            exact fun x hx => h1 x (hin x hx)
          · rw [hstay, h2 ((hanon _).2 ha), hqb, h3]
            exact hbpage

/-- A new frame is pinned, and filled from what the walk over the chain below finds. -/
theorem shadow_fillpage_walk {below : Nat} {r : Pframe ⊕ Nat} (hf : Frames s) (hn : Fresh s o pn pf)
    (hpar : s.parent o = some below) (hwalk : chainWalk ((s.withPinned pf (s.mem pf.pf_addr)).setBusy pf.pf_addr true) pn
      (chainFuel below) below = some r) :
    shadow_fillpage E ((s.withFrame pf).setBusy pf.pf_addr true) o pf =
      r.elim (fun np => some (((s.withPinned pf (s.mem pf.pf_addr)).setBusy pf.pf_addr true).setMem pf.pf_addr
          (((s.withPinned pf (s.mem pf.pf_addr)).setBusy pf.pf_addr true).mem np.pf_addr), true))
        fun b => (pframe_get_bottom E ((s.withPinned pf (s.mem pf.pf_addr)).setBusy pf.pf_addr true) b pn).map
          fun g => (g.1.setMem pf.pf_addr (g.1.mem g.2.1.pf_addr), true) := by
  have hpar₁ : ((s.withPinned pf (s.mem pf.pf_addr)).setBusy pf.pf_addr true).parent o = some below := hpar
  unfold shadow_fillpage
  rw [pframe_pin_new hf hn, hn.pagenum]
  simp only [newFrame_busy, newFrame_pin, KASSERT, if_true, hpar₁, hwalk, bind, Option.bind_some]
  cases r with
  | inl np => rfl
  | inr b =>
    simp only [Sum.elim_inr]
    cases pframe_get_bottom E ((s.withPinned pf (s.mem pf.pf_addr)).setBusy pf.pf_addr true) b pn <;> rfl

theorem shadow_fillpage_total (hc : Chains s) (hf : Frames s) (ho : s.objs o = some ob) (hs : ob.mmo_ops = .shadow)
    (hb : s.bottomOf o = some b) (hr : 0 < s.mmo_refcount b)
    (hidle : ∀ q, s.frame? b pn = some q → s.pf_busy q.pf_addr = false) : FillsPage (shadow_fillpage E) s o pn := by
  intro pf hn
  obtain ⟨below, b', e1, e2, e3, e4⟩ := hc.shadow o ob ho hs
  have hbb : b' = b := by
    rw [Chains.bottom_shadow ho e1, e4] at hb
    exact Option.some.inj hb
  subst hbb
  obtain ⟨obb, hob, hobs⟩ := hc.bottom_obj e3
  have hlt : b' < o := (hc.bottom_le e3).trans_lt e2
  have hfile : ob.isFile = false := by simp [Mmobj.isFile, hs]
  have hpar : s.parent o = some below := (Chains.parent_eq ho).trans e1
  have hpo : s.page o pn = s.page below pn := hc.page_below hn.page hpar
  have hadd := added_pinned hn ho hfile (s.mem pf.pf_addr)
  have hu := hadd.frames hf hn ho
  generalize hu' : s.withPinned pf (s.mem pf.pf_addr) = u at hadd hu
  have hc₁ : Chains (u.setBusy pf.pf_addr true) := hc.congr hadd.objs hadd.nobjs
  have hf₁ : Frames (u.setBusy pf.pf_addr true) := hu.congr rfl rfl rfl rfl rfl rfl
  have hbot : ∀ x, (u.setBusy pf.pf_addr true).bottomOf x = s.bottomOf x := fun x => bottomOf_congr hadd.objs x
  have hb₁ : (u.setBusy pf.pf_addr true).bottomOf below = some b' := (hbot below).trans e3
  obtain ⟨r, hwalk, h1, h2⟩ := hc₁.walk pn hb₁ (chainFuel below) (by unfold chainFuel; omega)
  have hpage : ∀ x, x < o → (u.setBusy pf.pf_addr true).page x pn = s.page x pn := fun x hx =>
    hadd.page_below hn hc hx
  have hstart := shadow_fillpage_walk (E := E) hf hn hpar (hu'.symm ▸ hwalk)
  rw [hu'] at hstart
  cases r with
  | inl np =>
    have hnp := hc₁.page_resolves (h1 np rfl)
    apply filled hf hn ho hstart
    · rw [← hu', withPinned_fill]
      exact added_pinned hn ho hfile _
    · intro _
      rw [hpo, ← hpage below e2, hnp]
      exact Function.update_self ..
  | inr x =>
    obtain ⟨rfl, hbare⟩ := h2 x rfl
    have hx := hbare.page hc₁ hb₁
    have hidle₁ : ∀ q, (u.setBusy pf.pf_addr true).frame? x pn = some q →
        (u.setBusy pf.pf_addr true).pf_busy q.pf_addr = false := fun q hq => by
      obtain ⟨hm, hqx, hqp⟩ := (frame?_eq_some hf₁).1 hq
      have hm' : q ∈ u.pframes := hm
      rw [hadd.pframes] at hm'
      rcases List.mem_cons.1 hm' with rfl | hm'
      · have := hn.obj
        omega
      · have hne := hn.addr_ne hm'
        simp only [State.setBusy, Function.update_of_ne hne]
        rw [(hadd.others _ hne).1]
        exact hidle q ((frame?_eq_some hf).2 ⟨hm', hqx, hqp⟩)
    have hr₁ : 0 < (u.setBusy pf.pf_addr true).mmo_refcount x := by
      show 0 < u.mmo_refcount x
      have h1 := (hadd.grown_refs x).1
      have h2 := (hadd.grown_refs x).2
      omega
    obtain ⟨t, np, ok, hget, hg⟩ := pframe_get_bottom_total (E := E) hc₁ hf₁
      (show (u.setBusy pf.pf_addr true).objs x = some obb from (congrFun hadd.objs x).trans hob) hobs hr₁ hidle₁
    rw [Sum.elim_inr, hget] at hstart
    have hpx : s.page o pn = s.page x pn := by
      rw [hpo, ← hpage below e2, hx, hpage x hlt]
    refine ⟨_, true, hstart, filled_over hc hn hadd hu hb hlt hpx hg, hg.frames.congr rfl rfl rfl rfl rfl rfl,
      hg.grown.frames pf (by show pf ∈ u.pframes; rw [hadd.pframes]; simp), fun q hq => ?_⟩
    rcases hg.only q hq with h3 | ⟨h3, h4⟩
    · have h3' : q ∈ u.pframes := h3
      rw [hadd.pframes] at h3'
      rcases List.mem_cons.1 h3' with rfl | h3'
      · exact .inr ⟨hn.pagenum, .inl hn.obj⟩
      · exact .inl h3'
    · refine .inr ⟨h3, .inr ?_⟩
      rcases h4 with h4 | h4
      · rw [h4]; exact hb
      · rw [hbot, hc.bottom_root hob hobs] at h4
        rw [← Option.some.inj h4]; exact hb

/-! ## `pframe_get` and `shadow_lookuppage` -/

/-- No frame is busy. -/
def Idle (s : State) : Prop := ∀ pf ∈ s.pframes, s.pf_busy pf.pf_addr = false

theorem Grown.idle (h : Grown s s') (hi : Idle s) : Idle s' := fun pf hm => by
  cases hb : s'.pf_busy pf.pf_addr with
  | false => rfl
  | true =>
    obtain ⟨h1, h2⟩ := h.busy pf hm hb
    rw [hi pf h1] at h2
    cases h2

theorem Idle.frame (hi : Idle s) (pf : Pframe) (h : s.frame? o pn = some pf) : s.pf_busy pf.pf_addr = false :=
  hi pf (List.mem_of_find?_eq_some h)

theorem fillpage_total (hc : Chains s) (hf : Frames s) (hi : Idle s) (hb : s.bottomOf o = some b)
    (hr : 0 < s.mmo_refcount b) : FillsPage (fillpage E) s o pn := by
  obtain ⟨ob, ho⟩ := Chains.of_bottom hb
  intro pf hn
  have ho' : ((s.withFrame pf).setBusy pf.pf_addr true).objs o = some ob := ho
  by_cases hs : ob.mmo_ops = .shadow
  · have e : fillpage E ((s.withFrame pf).setBusy pf.pf_addr true) o pf =
        shadow_fillpage E ((s.withFrame pf).setBusy pf.pf_addr true) o pf := by
      simp only [fillpage, ho', hs, bind, Option.bind_some]
    rw [e]
    exact shadow_fillpage_total hc hf ho hs hb hr hi.frame pf hn
  · have e : fillpage E ((s.withFrame pf).setBusy pf.pf_addr true) o pf =
        fillBottom E ((s.withFrame pf).setBusy pf.pf_addr true) o pf := by
      cases hops : ob.mmo_ops with
      | shadow => exact absurd hops hs
      | anon => simp only [fillpage, ho', hops, bind, Option.bind_some]
      | vnode vn => simp only [fillpage, ho', hops, bind, Option.bind_some]
    rw [e]
    exact fillBottom_total hc hf ho hs pf hn

theorem pframe_get_total (pn : Nat) (hc : Chains s) (hf : Frames s) (hi : Idle s) (hb : s.bottomOf o = some b)
    (hr : 0 < s.mmo_refcount o) (hrb : 0 < s.mmo_refcount b) :
    ∃ s' pf ok, pframe_get E s o pn = some (s', pf, ok) ∧ Got s o pn s' pf := by
  obtain ⟨ob, ho⟩ := Chains.of_bottom hb
  exact pframe_get_by_total hf ho hr hi.frame (fillpage_total hc hf hi hb hrb)

/-- `pf` is the frame page `pn` of `o` reads from after looking it up. -/
structure Looked (s : State) (o pn : Nat) (s' : State) (pf : Pframe) : Prop where
  grown : Grown s s'
  frames : Frames s'
  found : s'.resolves o pn = some pf
  only : NewFrames s o pn s'

namespace Looked

theorem mem (h : Looked s o pn s' pf) (hc : Chains s) : pf ∈ s'.pframes := by
  obtain ⟨y, -, hy⟩ := Layers.find_reaches (h.grown.chains hc).grounded h.found
  exact List.mem_of_find?_eq_some hy

/-- The frame holds what the page held. -/
theorem page (h : Looked s o pn s' pf) (hc : Chains s) (hf : Frames s) (ha : s.Anonymous o) :
    s'.mem pf.pf_addr = s.page o pn := by
  rw [← h.grown.page hc hf h.frames ha, (h.grown.chains hc).page_resolves h.found]

end Looked

theorem Got.looked (h : Got s o pn s' pf) (hc : Chains s) : Looked s o pn s' pf :=
  ⟨h.grown, h.frames, Layers.find_own (h.grown.chains hc).grounded h.frame, h.only⟩

theorem shadow_resolve_total (pn : Nat) (hc : Chains s) (hf : Frames s) (hi : Idle s) (ho : s.objs o = some ob)
    (hs : ob.mmo_ops = .shadow) (hb : s.bottomOf o = some b) (hr : 0 < s.mmo_refcount b) :
    ∃ s' pf, shadow_resolve E s o pn = some (s', pf) ∧ Looked s o pn s' pf := by
  obtain ⟨r, hwalk, h1, h2⟩ := hc.walk pn hb (chainFuel o) (by unfold chainFuel; omega)
  cases r with
  | inl pf =>
    refine ⟨s, pf, by simp [shadow_resolve, ho, hwalk], .refl s, hf, h1 pf rfl, fun q hq => .inl hq⟩
  | inr x =>
    obtain ⟨rfl, hbare⟩ := h2 x rfl
    obtain ⟨below, b', e1, -, -, e4⟩ := hc.shadow o ob ho hs
    have hbo : ob.mmo_bottom_obj = some x := by rw [← hb, Chains.bottom_shadow ho e1]
    obtain ⟨obb, hob, hobs⟩ := hc.bottom_obj hb
    have hbb := hc.bottom_root hob hobs
    obtain ⟨s', pf, ok, hget, hg⟩ := pframe_get_total (E := E) pn hc hf hi hbb hr hr
    have hc' := hg.grown.chains hc
    refine ⟨s', pf, by simp [shadow_resolve, ho, hwalk, hbo, hget], hg.grown, hg.frames, ?_, fun q hq => ?_⟩
    · -- the objects above are still without the page
      have hskip : s'.resolves o pn = s'.resolves x pn := by
        refine Layers.find_skip hc'.grounded ?_ fun y hy hne => ?_
        · rw [parent_congr hg.grown.objs]
          exact hc.reaches_bottom hb
        · rw [parent_congr hg.grown.objs] at hy
          have hold := hbare y hy hne
          have hnone : s'.frame? y pn = none := by
            rw [frame?_eq_none] at hold ⊢
            intro q hq hqy
            rcases hg.only q hq with h3 | ⟨-, h4⟩
            · exact hold q h3 hqy
            · rcases h4 with h4 | h4
              · exact hne (hqy.1.symm.trans h4)
              · rw [hbb] at h4
                exact hne (hqy.1.symm.trans (Option.some.inj h4).symm)
          exact hnone
      rw [hskip]
      exact Layers.find_own hc'.grounded hg.frame
    · rcases hg.only q hq with h3 | ⟨h3, h4⟩
      · exact .inl h3
      · refine .inr ⟨h3, .inr ?_⟩
        rcases h4 with h4 | h4
        · rw [h4]; exact hb
        · rw [hbb] at h4
          rw [← Option.some.inj h4]; exact hb

theorem NewFrames.trans (h : NewFrames s o pn t) (h' : NewFrames t o pn s') (he : t.objs = s.objs) :
    NewFrames s o pn s' := by
  intro q hq
  rcases h' q hq with h1 | ⟨h1, h2⟩
  · exact h q h1
  · rw [bottomOf_congr he] at h2
    exact .inr ⟨h1, h2⟩

theorem shadow_lookuppage_total (pn : Nat) (hc : Chains s) (hf : Frames s) (hi : Idle s) (ho : s.objs o = some ob)
    (hs : ob.mmo_ops = .shadow) (hb : s.bottomOf o = some b) (hr : 0 < s.mmo_refcount o) (hrb : 0 < s.mmo_refcount b)
    (w : Bool) : ∃ s' pf, shadow_lookuppage E s o pn w = some (s', pf) ∧ Looked s o pn s' pf ∧
      (w = true → pf.pf_obj = o) := by
  obtain ⟨t, sp, hres, hl⟩ := shadow_resolve_total (E := E) pn hc hf hi ho hs hb hrb
  by_cases hw : w = true ∧ sp.pf_obj ≠ o
  · have hg := hl.grown
    obtain ⟨s', pf, ok, hget, hgot⟩ := pframe_get_total (E := E) pn (hg.chains hc) hl.frames (hg.idle hi)
      (by rw [bottomOf_congr hg.objs]; exact hb) (hr.trans_le (hg.refcount_le o)) (hrb.trans_le (hg.refcount_le b))
    refine ⟨s', pf, by simp [shadow_lookuppage, hres, hw, hget], ?_, fun _ => hgot.obj⟩
    have hl' := hgot.looked (hg.chains hc)
    exact ⟨hg.trans hl'.grown hc hf hl.frames, hl'.frames, hl'.found, hl.only.trans hl'.only hg.objs⟩
  · refine ⟨t, sp, ?_, hl, fun hw' => ?_⟩
    · unfold shadow_lookuppage
      simp only [hres, bind, Option.bind_some]
      rw [if_neg (by simpa using hw)]
    · simpa [hw'] using hw

end Weenix.Vm
