import Weenix.Vm.Chains
/-!
# Resident pages

`Frames` says how page frames stand to objects and to the lists of `pframe.c`.
`State.page` is what a page of an object holds, whether it is resident or not.
Getting a page of an object succeeds where `Chains` and `Frames` hold, keeps
them and only adds frames; on a chain over an anonymous object the frames it
adds hold what the page held before (`Grown`).
-/

namespace Weenix.Vm

open Lib

variable {C : Config} {E : Env} {s s' : State} {o b pn : Nat}

/-- The object is that of a vnode. -/
def Mmobj.isFile (ob : Mmobj) : Bool :=
  match ob.mmo_ops with
  | .vnode _ => true
  | _ => false

/-- A page and a physical page have one frame, an object counts its frames, and
the frames of files are on `alloc_list`, the others pinned once. -/
structure Frames (s : State) : Prop where
  pages : (s.pframes.map fun pf => (pf.pf_obj, pf.pf_pagenum)).Nodup
  addrs : s.usedPages.Nodup
  owner : ∀ pf ∈ s.pframes, ∃ ob, s.objs pf.pf_obj = some ob
  resident : ∀ o, s.mmo_nrespages o = s.pframes.countP fun pf => decide (pf.pf_obj = o)
  file : ∀ pf ∈ s.pframes, ∀ ob, s.objs pf.pf_obj = some ob → ob.isFile = true →
    s.pf_pincount pf.pf_addr = 0 ∧ pf.pf_addr ∈ s.alloc_list
  pinned : ∀ pf ∈ s.pframes, ∀ ob, s.objs pf.pf_obj = some ob → ob.isFile = false →
    s.pf_pincount pf.pf_addr = 1 ∧ pf.pf_addr ∈ s.pinned_list ∧ pf.pf_addr ∉ s.alloc_list
  alloc_once : s.alloc_list.Nodup
  alloc : ∀ pg ∈ s.alloc_list, pg ∈ s.usedPages

/-- `Frames` looks at the frames, the lists they are on and the kinds of the objects. -/
theorem Frames.congr (h : Frames s) (h1 : s'.pframes = s.pframes) (h2 : s'.mmo_nrespages = s.mmo_nrespages)
    (h3 : s'.objs = s.objs) (h4 : s'.pf_pincount = s.pf_pincount) (h5 : s'.alloc_list = s.alloc_list)
    (h6 : s'.pinned_list = s.pinned_list) : Frames s' := by
  have hu : s'.usedPages = s.usedPages := by simp [State.usedPages, h1]
  refine ⟨by rw [h1]; exact h.pages, by rw [hu]; exact h.addrs, by rw [h1, h3]; exact h.owner,
    by rw [h1, h2]; exact h.resident, ?_, ?_, by rw [h5]; exact h.alloc_once, by rw [h5, hu]; exact h.alloc⟩
  · rw [h1, h3, h4, h5]; exact h.file
  · rw [h1, h3, h4, h5, h6]; exact h.pinned

/-- The resident frame of a page is the one with its object and number. -/
theorem frame?_eq_some (h : Frames s) {pf : Pframe} :
    s.frame? o pn = some pf ↔ pf ∈ s.pframes ∧ pf.pf_obj = o ∧ pf.pf_pagenum = pn := by
  unfold State.frame?
  constructor
  · intro hf
    exact ⟨List.mem_of_find?_eq_some hf, by simpa using List.find?_some hf⟩
  · rintro ⟨hm, rfl, rfl⟩
    cases hf : s.pframes.find? (fun q => decide (q.pf_obj = pf.pf_obj ∧ q.pf_pagenum = pf.pf_pagenum)) with
    | none => exact absurd (List.find?_eq_none.1 hf pf hm) (by simp)
    | some q =>
      have hq : q.pf_obj = pf.pf_obj ∧ q.pf_pagenum = pf.pf_pagenum := by simpa using List.find?_some hf
      rw [List.inj_on_of_nodup_map h.pages (List.mem_of_find?_eq_some hf) hm (by rw [hq.1, hq.2])]

theorem frame?_eq_none : s.frame? o pn = none ↔ ∀ pf ∈ s.pframes, ¬ (pf.pf_obj = o ∧ pf.pf_pagenum = pn) := by
  simp [State.frame?, List.find?_eq_none]

theorem Frames.addr_inj (h : Frames s) {pf q : Pframe} (hp : pf ∈ s.pframes) (hq : q ∈ s.pframes)
    (he : pf.pf_addr = q.pf_addr) : pf = q := List.inj_on_of_nodup_map h.addrs hp hq he

/-! ## What a page holds -/

namespace State
variable (s : State)

/-- The page in its frame. -/
def resident (o pn : Nat) : Option Page := (s.frame? o pn).map fun pf => s.mem pf.pf_addr

/-- The page `fillpage` makes from scratch. -/
def source (o pn : Nat) : Page :=
  match (s.objs o).map Mmobj.mmo_ops with
  | some (MmobjOps.vnode vn) => s.disk vn (PN_TO_ADDR pn)
  | _ => fun _ => 0

/-- What page `pn` of `o` holds: the first resident one down the chain. -/
def page (o pn : Nat) : Page := Layers.read s.parent s.resident s.source o pn

/-- The frame page `pn` of `o` reads from, if any. -/
def resolves (o pn : Nat) : Option Pframe := Layers.find s.parent s.frame? o pn

/-- The chain of `o` stands on an anonymous object. -/
def Anonymous (o : Nat) : Prop := ∃ b ob, s.bottomOf o = some b ∧ s.objs b = some ob ∧ ob.mmo_ops = .anon

end State

theorem Chains.grounded (hc : Chains s) : Layers.Grounded s.parent := fun _ _ h => .inr (hc.parent_lt h)

theorem parent_congr (h : s'.objs = s.objs) : s'.parent = s.parent := by
  funext o
  simp [State.parent, h]

theorem source_congr (h1 : s'.objs = s.objs) (h2 : s'.disk = s.disk) : s'.source = s.source := by
  funext o pn
  simp [State.source, h1, h2]

theorem Chains.page_own (hc : Chains s) {pf : Pframe} (h : s.frame? o pn = some pf) :
    s.page o pn = s.mem pf.pf_addr :=
  Layers.read_own hc.grounded (by simp [State.resident, h])

theorem Chains.page_below (hc : Chains s) {below : Nat} (h : s.frame? o pn = none) (hp : s.parent o = some below) :
    s.page o pn = s.page below pn :=
  Layers.read_parent hc.grounded (by simp [State.resident, h]) hp

theorem Chains.page_root (hc : Chains s) (h : s.frame? o pn = none) (hp : s.parent o = none) :
    s.page o pn = s.source o pn :=
  Layers.read_root hc.grounded (by simp [State.resident, h]) hp

theorem Chains.page_resolves (hc : Chains s) {pf : Pframe} (h : s.resolves o pn = some pf) :
    s.page o pn = s.mem pf.pf_addr :=
  Layers.read_map hc.grounded (fun pf : Pframe => s.mem pf.pf_addr) h

/-- All of a chain stands on the same object. -/
theorem Chains.reaches (hc : Chains s) {x : Nat} (h : Layers.Reaches s.parent o x) : s.bottomOf x = s.bottomOf o := by
  induction h with
  | refl => rfl
  | @tail y z _ hz ih =>
    rw [← ih]
    unfold State.parent at hz
    obtain ⟨ob, ho, hb⟩ := Option.bind_eq_some_iff.1 hz
    by_cases hs : ob.mmo_ops = .shadow
    · obtain ⟨below, b, e1, -, e3, e4⟩ := hc.shadow y ob ho hs
      rw [e1] at hb
      cases hb
      rw [Chains.bottom_shadow ho e1, e3, e4]
    · rw [hc.root y ob ho hs] at hb
      cases hb

theorem Chains.reaches_bottom (hc : Chains s) (h : s.bottomOf o = some b) : Layers.Reaches s.parent o b :=
  hc.induct (P := fun o => Layers.Reaches s.parent o b) (fun _ _ _ => .refl)
    (fun _ _ _ ho _ hbelow _ _ ih => .head ((Chains.parent_eq ho).trans hbelow) ih) h

/-- No object above the bottom object `b` of `o` has the page. -/
def Bare (s : State) (o b pn : Nat) : Prop := ∀ y, Layers.Reaches s.parent o y → y ≠ b → s.frame? y pn = none

theorem Bare.page (h : Bare s o b pn) (hc : Chains s) (hb : s.bottomOf o = some b) : s.page o pn = s.page b pn :=
  Layers.read_skip hc.grounded (hc.reaches_bottom hb) fun y hy hne => by simp [State.resident, h y hy hne]

/-- The walk over a chain ends at the resident page the chain reads, or at its
bottom object when no shadow object has the page. -/
theorem Chains.walk (hc : Chains s) (pn : Nat) (h : s.bottomOf o = some b) : ∀ n, o < n → ∃ r, chainWalk s pn n o = some r ∧
    (∀ pf, r = .inl pf → s.resolves o pn = some pf) ∧ ∀ x, r = .inr x → x = b ∧ Bare s o b pn := by
  apply hc.induct (P := fun o => ∀ n, o < n → ∃ r, chainWalk s pn n o = some r ∧
    (∀ pf, r = .inl pf → s.resolves o pn = some pf) ∧ ∀ x, r = .inr x → x = b ∧ Bare s o b pn) _ _ h
  · intro ob hb hs n hn
    obtain ⟨n, rfl⟩ : ∃ k, n = k + 1 := ⟨n - 1, by omega⟩
    have hroot := hc.root b ob hb hs
    refine ⟨.inr b, by simp [chainWalk, hb, hroot], by simp, fun x hx => ?_⟩
    cases hx
    exact ⟨rfl, fun y hy hne => absurd (Layers.reaches_root ((Chains.parent_eq hb).trans hroot) hy) hne⟩
  · intro o ob below ho hs hbelow _ hlt ih n hn
    obtain ⟨n, rfl⟩ : ∃ k, n = k + 1 := ⟨n - 1, by omega⟩
    have hpar : s.parent o = some below := (Chains.parent_eq ho).trans hbelow
    cases hf : s.frame? o pn with
    | some pf =>
      refine ⟨.inl pf, by simp [chainWalk, ho, hbelow, hf], fun q hq => ?_, by simp⟩
      cases hq
      exact Layers.find_own hc.grounded hf
    | none =>
      obtain ⟨r, hr, h1, h2⟩ := ih n (by omega)
      refine ⟨r, by simpa [chainWalk, ho, hbelow, hf] using hr, fun pf hpf => ?_, fun x hx => ?_⟩
      · exact (Layers.find_parent hc.grounded hf hpar).trans (h1 pf hpf)
      · obtain ⟨rfl, hbare⟩ := h2 x hx
        refine ⟨rfl, fun y hy hne => ?_⟩
        rcases Relation.ReflTransGen.cases_head hy with rfl | ⟨z, hz, hy⟩
        · exact hf
        · rw [hpar] at hz
          cases hz
          exact hbare y hy hne

/-! ## Adding frames -/

/-- `s'` has more frames than `s`, for which the objects have more references,
and on the chains over anonymous objects the new frames hold what the pages held. -/
structure Grown (s s' : State) : Prop where
  spaces : s'.spaces = s.spaces
  objs : s'.objs = s.objs
  nobjs : s'.nobjs = s.nobjs
  vmas : s'.mmo_vmas = s.mmo_vmas
  pagedir : s'.p_pagedir = s.p_pagedir
  disk : s'.disk = s.disk
  num : s'.num = s.num
  temp_c : s'.temp_c = s.temp_c
  frames : ∀ pf ∈ s.pframes, pf ∈ s'.pframes
  refs : ∀ x, s'.mmo_refcount x + s.mmo_nrespages x = s.mmo_refcount x + s'.mmo_nrespages x
  nres : ∀ x, s.mmo_nrespages x ≤ s'.mmo_nrespages x
  mem : ∀ pf ∈ s.pframes, s'.mem pf.pf_addr = s.mem pf.pf_addr
  dirty : ∀ pf ∈ s.pframes, s'.pf_dirty pf.pf_addr = s.pf_dirty pf.pf_addr
  busy : ∀ pf ∈ s'.pframes, s'.pf_busy pf.pf_addr = true → pf ∈ s.pframes ∧ s.pf_busy pf.pf_addr = true
  filled : ∀ pf ∈ s'.pframes, pf ∈ s.pframes ∨
    (s.frame? pf.pf_obj pf.pf_pagenum = none ∧
      (s.Anonymous pf.pf_obj → s'.mem pf.pf_addr = s.page pf.pf_obj pf.pf_pagenum))

namespace Grown

theorem refl (s : State) : Grown s s :=
  ⟨rfl, rfl, rfl, rfl, rfl, rfl, rfl, rfl, fun _ h => h, fun _ => rfl, fun _ => le_rfl, fun _ _ => rfl, fun _ _ => rfl,
    fun _ hm h => ⟨hm, h⟩, fun _ h => .inl h⟩

theorem refcount_le (h : Grown s s') (x : Nat) : s.mmo_refcount x ≤ s'.mmo_refcount x := by
  have h1 := h.refs x
  have h2 := h.nres x
  omega

theorem chains (h : Grown s s') (hc : Chains s) : Chains s' := hc.congr h.objs h.nobjs

theorem anonymous (h : Grown s s') : s'.Anonymous o ↔ s.Anonymous o := by
  unfold State.Anonymous
  simp only [bottomOf_congr h.objs, h.objs]

/-- Frames that hold what the pages of a chain held change no page of it. -/
theorem page_of (h : Grown s s') (hc : Chains s) (hf : Frames s) (hf' : Frames s') (hnew : ∀ pf ∈ s'.pframes,
    Layers.Reaches s.parent o pf.pf_obj → pf ∈ s.pframes ∨ s'.mem pf.pf_addr = s.page pf.pf_obj pf.pf_pagenum) :
    s'.page o pn = s.page o pn := by
  unfold State.page
  rw [parent_congr h.objs, source_congr h.objs h.disk]
  apply Layers.read_extend hc.grounded
  intro y hy
  cases hs : s.frame? y pn with
  | some pf =>
    obtain ⟨hm, hp⟩ := (frame?_eq_some hf).1 hs
    have hs' : s'.frame? y pn = some pf := (frame?_eq_some hf').2 ⟨h.frames pf hm, hp⟩
    exact .inl (by simp [State.resident, hs, hs', h.mem pf hm])
  | none =>
    cases hs' : s'.frame? y pn with
    | none => exact .inl (by simp [State.resident, hs, hs'])
    | some pf =>
      obtain ⟨hm, rfl, rfl⟩ := (frame?_eq_some hf').1 hs'
      rcases hnew pf hm hy with hold | hfill
      · rw [(frame?_eq_some hf).2 ⟨hold, rfl, rfl⟩] at hs
        cases hs
      · refine .inr ⟨by simp [State.resident, hs], ?_⟩
        simp only [State.resident, hs', Option.map_some, hfill]
        rfl

/-- The pages on the chains over anonymous objects hold what they held. -/
theorem page (h : Grown s s') (hc : Chains s) (hf : Frames s) (hf' : Frames s') (ha : s.Anonymous o) :
    s'.page o pn = s.page o pn := by
  apply h.page_of hc hf hf'
  intro pf hm hy
  obtain ⟨b, ob, h1, h2, h3⟩ := ha
  exact (h.filled pf hm).imp_right fun hfill => hfill.2 ⟨b, ob, (hc.reaches hy).trans h1, h2, h3⟩

theorem trans {t : State} (h : Grown s t) (h' : Grown t s') (hc : Chains s) (hf : Frames s) (ht : Frames t) :
    Grown s s' := by
  refine ⟨h'.spaces.trans h.spaces, h'.objs.trans h.objs, h'.nobjs.trans h.nobjs, h'.vmas.trans h.vmas,
    h'.pagedir.trans h.pagedir, h'.disk.trans h.disk, h'.num.trans h.num, h'.temp_c.trans h.temp_c,
    fun pf hm => h'.frames pf (h.frames pf hm), fun x => ?_, fun x => (h.nres x).trans (h'.nres x),
    fun pf hm => (h'.mem pf (h.frames pf hm)).trans (h.mem pf hm),
    fun pf hm => (h'.dirty pf (h.frames pf hm)).trans (h.dirty pf hm), fun pf hm hb => ?_, fun pf hm => ?_⟩
  · have h1 := h.refs x
    have h2 := h'.refs x
    omega
  · obtain ⟨h1, h2⟩ := h'.busy pf hm hb
    exact h.busy pf h1 h2
  · rcases h'.filled pf hm with h1 | ⟨h1, h2⟩
    · rcases h.filled pf h1 with h3 | ⟨h3, h4⟩
      · exact .inl h3
      · exact .inr ⟨h3, fun ha => (h'.mem pf h1).trans (h4 ha)⟩
    · refine .inr ⟨?_, fun ha => (h2 (h.anonymous.2 ha)).trans (h.page hc hf ht ha)⟩
      rw [frame?_eq_none] at h1 ⊢
      exact fun q hq => h1 q (h.frames q hq)

end Grown

end Weenix.Vm
