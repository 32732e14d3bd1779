import Weenix.Vm.Forking
import Weenix.Vm.FileMap
/-!
# Reference counts of memory objects

The machine of the operations that change references to memory objects.
`refs_counted` says of every state it reaches that the count of an object that is not
a file's is the number of areas, shadow objects and resident pages that refer to
it, and that no operation called as it may be fails an assertion.
-/

namespace Weenix.Vm

open Lib Lib.Intervals

variable {C : Config} {E : Env} {s s' t : State} {o b m p pn : Nat} {a : VmArea} {ob : Mmobj} {held : Nat → Int}

/-! ## Mapping -/

/-- What `vmmap_map` asserts of its arguments, and `do_mmap` checks: pages inside
user memory, one of `MAP_SHARED` and `MAP_PRIVATE`, and `MAP_SHARED` of a file. -/
structure MapArgs (C : Config) (file : Option Nat) (lopage npages : Nat) (prot : Prot) (flags : MapFlags) (off : Nat) :
    Prop where
  pages : 0 < npages ∧ npages ≤ 2 ^ 20
  prot : prot.other = false
  kind : flags.shared = !flags.priv
  place : lopage = 0 ∨ C.low ≤ lopage ∧ lopage + npages ≤ C.high
  off : PAGE_ALIGNED off = true
  file : flags.priv = false → file ≠ none

theorem vmmap_find_range_total {npages : Nat} (l : List VmArea) (hn : 0 < npages) (dir : Dir) :
    ∃ r, vmmap_find_range C l npages dir = some r := by
  unfold vmmap_find_range
  cases dir <;> simp [KASSERT, hn]

/-- What is removed leaves the range free. -/
theorem vmmap_remove_empties {lopage npages : Nat} (hL : Layout C s) (hn : 0 < npages) (hlow : C.low ≤ lopage)
    (hhigh : lopage + npages ≤ C.high) (h : vmmap_remove C s p m lopage npages = some s') :
    vmmap_is_range_empty C (s'.vmm_list m) lopage npages = some true := by
  have hC := C.high_lt
  have hlt : lopage + npages < 2 ^ 32 := by omega
  obtain ⟨e, he⟩ := vmmap_is_range_empty_total (C := C) (s'.vmm_list m) hn hlow hhigh
  have hlist : s'.vmm_list = Function.update s.vmm_list m _ := congrArg Spaces.vmm_list (vmmap_remove_list hlt hL h)
  have hempty : e = true := by
    rw [(vmmap_is_range_empty_eq ((vmmap_remove_layout hlt hL h).areas m) he).2, u32_of_lt hlt, hlist, Function.update_self]
    exact rangeFree_pieces (Nat.le_add_right _ _) (hL.areas m)
  rw [he, hempty]

theorem makeRoom_total {lopage npages : Nat} (dir : Dir) (h : Backing C held s) (hheld : ∀ o, 0 ≤ held o) (hs : Settled s)
    (hn : 0 < npages) (hplace : lopage = 0 ∨ C.low ≤ lopage ∧ lopage + npages ≤ C.high) :
    ∃ s' start, makeRoom C s p m lopage npages dir = some (s', start) ∧ Kept C held s s' := by
  have hC := C.high_lt
  unfold makeRoom
  by_cases h0 : lopage = 0
  · rw [if_neg (by simpa using h0)]
    obtain ⟨r, hr⟩ := vmmap_find_range_total (C := C) (s.vmm_list m) hn dir
    simp only [hr, bind, Option.bind_some]
    exact ⟨s, _, rfl, h, hs, fun _ _ ho => ho, le_rfl⟩
  · rw [if_pos h0]
    obtain ⟨hlow, hhigh⟩ := hplace.resolve_left h0
    obtain ⟨b, hb⟩ := vmmap_is_range_empty_total (C := C) (s.vmm_list m) hn hlow hhigh
    cases b with
    | true => exact ⟨s, some lopage, by simp [hb], h, hs, fun _ _ ho => ho, le_rfl⟩
    | false =>
      obtain ⟨s₁, hr, hK⟩ := vmmap_remove_total (p := p) (m := m) h hheld hs (show lopage + npages < 2 ^ 32 by omega)
      exact ⟨s₁, some lopage, by simp [hb, hr, vmmap_remove_empties h.layout hn hlow hhigh hr, KASSERT], hK⟩

theorem vmmap_map_total {file : Option Nat} {lopage npages off : Nat} {prot : Prot} {flags : MapFlags} (dir : Dir)
    (h : Backing C held s) (hheld : ∀ o, 0 ≤ held o) (h0 : ∀ o, s.nobjs ≤ o → held o = 0) (hs : Settled s)
    (hm : m < s.nmaps) (hargs : MapArgs C file lopage npages prot flags off)
    (hfile : ∀ vn, file = some vn → ∃ o, Opened held s vn o) :
    ∃ s' r, vmmap_map C s p m file lopage npages prot flags off dir = some (s', r) ∧ Kept C held s s' := by
  obtain ⟨hpos, hmax⟩ := hargs.pages
  have hC := C.high_lt
  have hL : Layout C s.vmarea_alloc := h.layout.more (Nat.le_succ _)
  have hB : Backing C held s.vmarea_alloc := h.vmarea_alloc
  obtain ⟨s₁, start, hroom, hroomK⟩ := makeRoom_total (p := p) (m := m) dir hB hheld (hs.congr rfl) hpos
    hargs.place
  have hK : Kept C held s s₁ := ⟨hroomK.backing, hroomK.settled, hroomK.objs, hroomK.nobjs⟩
  have hkind : flags.shared = true ∨ flags.priv = true := by
    rw [hargs.kind]
    cases flags.priv <;> simp
  have hlow : lopage = 0 ∨ C.low ≤ lopage := hargs.place.imp id And.left
  have hhigh : lopage = 0 ∨ u32 (lopage + npages) ≤ C.high := hargs.place.imp id fun h => by
    rw [u32_of_lt (by omega)]
    exact h.2
  cases start with
  | none =>
    refine ⟨s₁, .error .ENOMEM, ?_, hK⟩
    simp only [vmmap_map, KASSERT, hpos, hargs.prot, hargs.off, hkind, hlow, hhigh, if_true, bind, Option.bind_some, hroom]
  | some st =>
    have hcases := makeRoom_cases hL hmax hroom
    have hr : Room C s₁ m st npages := by
      rcases hcases with ⟨h, -⟩ | ⟨st', h, rfl, hr, -⟩ | ⟨-, h, -, -, hr⟩
      · cases h
      · cases h
        exact hr
      · cases h
        exact hr
    have hfrom : s₁ = s.vmarea_alloc ∨ lopage + npages < 2 ^ 32 ∧ vmmap_remove C s.vmarea_alloc p m lopage npages = some s₁ := by
      rcases hcases with ⟨h, -⟩ | ⟨st', h, rfl, -⟩ | ⟨-, -, hlt, hr, -⟩
      · cases h
      · exact .inl rfl
      · exact .inr ⟨hlt, hr⟩
    obtain ⟨hid, hmaps, hnew⟩ := newArea_fresh h.layout hfrom
    have hend := hr.high
    have hvnodes : s₁.vnodes = s.vnodes := by
      rcases hfrom with rfl | ⟨hlt, hr⟩
      · rfl
      · exact (congrArg Spaces.vnodes (vmmap_remove_list hlt hL hr) :)
    have hfile₁ : ∀ vn, file = some vn → ∃ o, Opened held s₁ vn o := fun vn hvn => by
      obtain ⟨o, hf⟩ := hfile vn hvn
      obtain ⟨ob, hob, hisfile⟩ := hf.file
      exact ⟨o, by rw [hvnodes]; exact hf.mmap, ⟨ob, hK.objs o ob hob, hisfile⟩, hf.user⟩
    obtain ⟨t, o, b, hat, hA⟩ := attachObject_total (newArea s.nareas st npages off prot flags) hK.backing
      (fun o ho => h0 o (hK.nobjs.trans ho)) rfl hargs.kind hfile₁ hargs.file
    have hlists : t.vmm_list = s₁.vmm_list := congrArg Spaces.vmm_list hA.spaces
    have hnareas : t.nareas = s₁.nareas := congrArg Spaces.nareas hA.spaces
    have hnmaps : t.nmaps = s₁.nmaps := congrArg Spaces.nmaps hA.spaces
    have hbounds : st < st + npages ∧ C.low ≤ st ∧ st + npages ≤ C.high := ⟨by omega, hr.low, hend⟩
    -- the range was made free, so the area goes in
    obtain ⟨l, hins⟩ := vmmap_insert_total (x := (newArea s.nareas st npages off prot flags).withObj (some o)) rfl
      hbounds.1 hbounds.2.1 hbounds.2.2 (t.linkVma b s.nareas) m
    have hfree : RangeFree (t.vmm_list m) st (st + npages) := by
      rw [hlists]
      exact hr.free
    obtain ⟨-, ⟨-, e⟩ | ⟨hnf, -⟩⟩ := vmmap_insert_cases (s := t.linkVma b s.nareas) (hA.backing.layout.areas m) hins
    · have hB' := hA.backing.insert (x := (newArea s.nareas st npages off prot flags).withObj (some o)) (by omega) hbounds
        hfree (by rw [hnareas]; exact hid) (by rw [hlists]; exact hnew) rfl hA.suits hA.bottom
      rw [add_sub_cancel_right] at hB'
      have hB'' : Backing C held ((t.linkVma b s.nareas).setList m l) := by
        rw [e]
        exact hB'
      refine ⟨_, .ok st, ?_, hB'', fun k d hd => ?_, fun x ob hx => hA.objs x ob (hK.objs x ob hx),
        hK.nobjs.trans hA.nobjs⟩
      · have harea : (⟨s.nareas, st, u32 (npages + st), off, prot, flags, none, none⟩ : VmArea) =
            newArea s.nareas st npages off prot flags := by
          rw [Nat.add_comm, u32_of_lt (by omega)]
          rfl
        have hat' : attachObject s₁ file flags (newArea s.nareas st npages off prot flags) =
          some (t.linkVma b s.nareas, (newArea s.nareas st npages off prot flags).withObj (some o)) := hat
        simp only [vmmap_map, KASSERT, hpos, hargs.prot, hargs.off, hkind, hlow, hhigh, if_true, bind, Option.bind_some,
          hroom, harea, hat', hins]
      · rw [e] at hd
        by_cases hk : k = m
        · subst hk
          rw [show ((t.linkVma b s.nareas).setList k _).vmm_list k = _ from Function.update_self ..] at hd
          rcases mem_insertArea.1 hd with rfl | hd
          · exact ⟨o, rfl⟩
          · exact hK.settled k d (by rw [← hlists]; exact hd)
        · rw [show ((t.linkVma b s.nareas).setList m _).vmm_list k = t.vmm_list k from Function.update_of_ne hk ..] at hd
          exact hK.settled k d (by rw [← hlists]; exact hd)
    · exact absurd hfree hnf

/-! ## Page faults -/

theorem exit_process_total {pr : Proc} (h : Backing C held s) (hheld : ∀ o, 0 ≤ held o) (hs : Settled s)
    (hpr : s.procs p = some pr) (st : Int) : ∃ s', exit_process C s p st = some s' ∧ Kept C held s s' := by
  obtain ⟨s₁, hd, hK⟩ := vmmap_destroy_total (p := p) (m := pr.p_vmmap) h hheld hs
  refine ⟨(s₁.setProc p none).setZombie p st, ?_, hK.backing.processes _ s₁.p_brk _, hK.settled.congr rfl, hK.objs, hK.nobjs⟩
  simp only [exit_process, hpr, hd, bind, Option.bind_some]

/-- Getting pages keeps what there is. -/
theorem Backing.kept_grown (h : Backing C held s) (hs : Settled s) (hg : Grown s s') (hf : Frames s') : Kept C held s s' :=
  ⟨h.grown hg hf, hs.congr (congrArg Spaces.vmm_list hg.spaces), fun o ob ho => by rw [hg.objs]; exact ho, hg.nobjs.ge⟩

theorem Backing.pframe_get (h : Backing C held s) (hheld : ∀ o, 0 ≤ held o) (hs : Settled s) (ho : s.objs o = some ob)
    (hr : 0 < s.mmo_refcount o) (pn : Nat) :
    ∃ s' pf ok, pframe_get E s o pn = some (s', pf, ok) ∧ Kept C held s s' := by
  obtain ⟨b, hb⟩ := h.chains.bottom ho
  obtain ⟨s', pf, ok, hget, hgot⟩ := pframe_get_total (E := E) pn h.chains h.frames h.idle hb hr (h.bottom_pos hheld hb hr)
  exact ⟨s', pf, ok, hget, h.kept_grown hs hgot.grown hgot.frames⟩

theorem fault_frame_total (vaddr : Nat) (h : Backing C held s) (hheld : ∀ o, 0 ≤ held o) (hs : Settled s)
    (ha : a ∈ s.vmm_list m) (w : Bool) : ∃ s' pf, fault_frame E s a vaddr w = some (s', pf) ∧ Kept C held s s' := by
  obtain ⟨o, ho⟩ := hs m a ha
  obtain ⟨ob, hob, -⟩ := h.hung.areas m a ha o ho
  have hr : 0 < s.mmo_refcount o := Nat.zero_lt_of_lt (h.area_pos hheld ha ho)
  cases hbelow : ob.mmo_shadowed with
  | none =>
    obtain ⟨s', pf, ok, hget, hK⟩ := h.pframe_get (E := E) hheld hs hob hr (fault_pagenum a vaddr)
    exact ⟨s', pf, by simp [fault_frame, ho, hob, hbelow, hget], hK⟩
  | some below =>
    have hops : ob.mmo_ops = .shadow := by
      by_contra e
      rw [h.chains.root o ob hob e] at hbelow
      cases hbelow
    obtain ⟨b, hb⟩ := h.chains.bottom hob
    obtain ⟨s', pf, hlook, hl, -⟩ := shadow_lookuppage_total (E := E) (fault_pagenum a vaddr) h.chains h.frames h.idle hob
      hops hb hr (h.bottom_pos hheld hb hr) w
    exact ⟨s', pf, by simp [fault_frame, ho, hob, hbelow, hlook], h.kept_grown hs hl.grown hl.frames⟩

theorem handle_pagefault_total {pr : Proc} (h : Backing C held s) (hheld : ∀ o, 0 ≤ held o) (hs : Settled s)
    (hpr : s.procs p = some pr) (vaddr : Nat) (cause : Cause) :
    ∃ s' r, handle_pagefault C E s p vaddr cause = some (s', r) ∧ Kept C held s s' := by
  obtain ⟨sk, hkill, hkillK⟩ := exit_process_total h hheld hs hpr EFAULT
  unfold handle_pagefault
  simp only [hpr, hkill, bind, Option.bind_some, Option.map_some]
  cases hl : vmmap_lookup (s.vmm_list pr.p_vmmap) (ADDR_TO_PN vaddr) with
  | none => exact ⟨sk, .killed, rfl, hkillK⟩
  | some a =>
    by_cases hperm : addr_perm (s.vmm_list pr.p_vmmap) vaddr (accessRight cause) = false
    · exact ⟨sk, .killed, by simp [hperm], hkillK⟩
    · have ha : a ∈ s.vmm_list pr.p_vmmap := List.mem_of_find?_eq_some hl
      obtain ⟨s₁, pf, hframe, hK⟩ := fault_frame_total (E := E) vaddr h hheld hs ha cause.write
      refine ⟨s₁.pt_map p (ADDR_TO_PN (PN_TO_ADDR (ADDR_TO_PN vaddr))) pf.pf_addr cause.write, .mapped, ?_,
        hK.backing.pagedir _, hK.settled.congr rfl, hK.objs, hK.nobjs⟩
      simp [hperm, hframe]

/-! ## Page frames -/

/-- Freeing a page that is not pinned: it is dropped, and its object put. -/
theorem pframe_free_effect {pf : Pframe} (h : Backing C held s) (hheld : ∀ o, 0 ≤ held o) (hm : pf ∈ s.pframes)
    (hpin : s.pf_pincount pf.pf_addr = 0) :
    ∃ s₁ s', pframe_free s pf = some s' ∧ pframe_release s pf = some s₁ ∧ Dropped s pf s₁ ∧ PutEffect s₁ pf.pf_obj s' ∧
      Backing C held s' := by
  obtain ⟨ob, hob⟩ := h.frames.owner pf hm
  have hfile : ob.isFile = true := by
    by_contra e
    have := (h.frames.pinned pf hm ob hob (by simpa using e)).1
    omega
  have hops : ob.mmo_ops ≠ .anon := fun e => by simp [Mmobj.isFile, e] at hfile
  have hres : 0 < s.mmo_nrespages pf.pf_obj := by
    rw [h.frames.resident]
    exact List.countP_pos_iff.2 ⟨pf, hm, by simp⟩
  obtain ⟨s₁, hrel, hd⟩ := release_file h.steady hm hob hfile
  have hnres : s₁.mmo_nrespages pf.pf_obj = s.mmo_nrespages pf.pf_obj - 1 := by rw [hd.nres, Function.update_self]
  have hcount := h.counted _ ob hob
  have hheld' := hheld pf.pf_obj
  simp only [State.refsTo] at hcount
  have hlt : s₁.mmo_nrespages pf.pf_obj < s₁.mmo_refcount pf.pf_obj := by
    rw [hnres, hd.refcount]
    omega
  have hst := hd.steady h.steady hm
  obtain ⟨s', hput, he⟩ := put_total hst (hd.num.trans h.num) ((congrFun hd.objs _).trans hob) hops hlt
  obtain ⟨e1, e2, e3, e4, e5⟩ := he.rest
  have esp := e1.trans hd.spaces
  refine ⟨s₁, s', by simp [pframe_free, hrel, hput], hrel, hd, he, h.layout.congr esp, hst.chains.congr e2 e3,
    he.frames hst.frames, he.idle hst.idle, ?_, ?_, e5.trans (hd.num.trans h.num)⟩
  · exact h.hung.congr (e2.trans hd.objs) (congrArg Spaces.vmm_list esp) (e4.trans hd.vmas)
  · refine h.counted.step fun o ob ho => ⟨by rw [← hd.objs, ← e2]; exact ho, ?_⟩
    have hc := he.counts (Nat.zero_lt_of_lt hlt) o
    have hareas : s'.areasOf o = s.areasOf o := areasOf_congr (congrArg Spaces.vmm_list esp) (congrArg Spaces.nmaps esp)
    have hshadows : s'.shadowsOf o = s.shadowsOf o := shadowsOf_congr (e2.trans hd.objs) (e3.trans hd.nobjs)
    rw [hd.refcount] at hc
    simp only [State.refsTo, hareas, hshadows]
    by_cases e : o = pf.pf_obj
    · rw [if_pos e] at hc
      subst e
      omega
    · rw [if_neg e, hd.nres, Function.update_of_ne e] at hc
      omega

theorem pframe_free_total {pf : Pframe} (h : Backing C held s) (hheld : ∀ o, 0 ≤ held o) (hs : Settled s)
    (hm : pf ∈ s.pframes) (hpin : s.pf_pincount pf.pf_addr = 0) :
    ∃ s', pframe_free s pf = some s' ∧ Kept C held s s' := by
  obtain ⟨s₁, s', hf, -, hd, he, hB⟩ := pframe_free_effect h hheld hm hpin
  obtain ⟨e1, e2, e3, -⟩ := he.rest
  exact ⟨s', hf, hB, hs.congr (congrArg Spaces.vmm_list (e1.trans hd.spaces)), fun o ob ho => by rw [e2, hd.objs]; exact ho,
    (e3.trans hd.nobjs).ge⟩

/-! ## The machine -/

/-- The operations that change references. The process `p` is the one that
runs; `m` is the map. A map that was destroyed stays, without areas. -/
inductive RefOp
  | proc_create
  | vmmap_create
  | vmmap_map (p m : Nat) (file : Option Nat) (lopage npages : Nat) (prot : Prot) (flags : MapFlags) (off : Nat) (dir : Dir)
  | vmmap_remove (p m lopage npages : Nat)
  | vmmap_destroy (p m : Nat)
  | do_fork (p : Nat)
  | handle_pagefault (p vaddr : Nat) (cause : Cause)
  | pframe_get (o pn : Nat)
  | pframe_free (pf : Pframe)

/-- One operation. -/
def refStep (C : Config) (E : Env) (s : State) : RefOp → Option (State × Unit)
  | .proc_create => some (proc_create s, ())
  | .vmmap_create => some (vmmap_create s, ())
  | .vmmap_map p m file lopage npages prot flags off dir => do
    let (s', _) ← vmmap_map C s p m file lopage npages prot flags off dir
    some (s', ())
  | .vmmap_remove p m lopage npages => do
    let s' ← vmmap_remove C s p m lopage npages
    some (s', ())
  | .vmmap_destroy p m => do
    let s' ← vmmap_destroy C s p m
    some (s', ())
  | .do_fork p => do
    let (s', _) ← do_fork s p
    some (s', ())
  | .handle_pagefault p vaddr cause => do
    let (s', _) ← handle_pagefault C E s p vaddr cause
    some (s', ())
  | .pframe_get o pn => do
    let (s', _) ← pframe_get E s o pn
    some (s', ())
  | .pframe_free pf => do
    let s' ← pframe_free s pf
    some (s', ())

/-- Besides areas, shadow objects and pages someone refers to `o`: it is open as a file. -/
def State.Open (s : State) (o : Nat) : Prop := s.refsTo o < s.mmo_refcount o

/-- A file that is mapped has an object to map, and is open. -/
def State.Mappable (s : State) : Option Nat → Prop
  | none => True
  | some vn => ∃ o, (s.vnodes vn).vn_mmap = some (.ok o) ∧ s.Open o

/-- What a caller sees to: the arguments are those the operation is for, an
object whose page is wanted is referred to, and a frame that is freed is not pinned. -/
def RefOp.Called (C : Config) (s : State) : RefOp → Prop
  | .proc_create => True
  | .vmmap_create => True
  | .vmmap_map _ m file lopage npages prot flags off _ =>
    m < s.nmaps ∧ MapArgs C file lopage npages prot flags off ∧ s.Mappable file
  | .vmmap_remove _ _ lopage npages => lopage + npages < 2 ^ 32
  | .vmmap_destroy _ _ => True
  | .do_fork p => (s.procs p).isSome = true
  | .handle_pagefault p _ _ => (s.procs p).isSome = true
  | .pframe_get o _ => (s.objs o).isSome = true ∧ (0 < s.refsTo o ∨ s.Open o)
  | .pframe_free pf => pf ∈ s.pframes ∧ s.pf_pincount pf.pf_addr = 0

instance (s : State) (o : Nat) : Decidable (s.Open o) := inferInstanceAs (Decidable (_ < _))

instance (s : State) : (file : Option Nat) → Decidable (s.Mappable file)
  | none => isTrue trivial
  | some vn =>
    match h : (s.vnodes vn).vn_mmap with
    | some (.ok o) => decidable_of_iff (s.Open o) (by simp [State.Mappable, h])
    | some (.error _) => isFalse (by simp [State.Mappable, h])
    | none => isFalse (by simp [State.Mappable, h])

instance (file : Option Nat) (lopage npages : Nat) (prot : Prot) (flags : MapFlags) (off : Nat) :
    Decidable (MapArgs C file lopage npages prot flags off) :=
  decidable_of_iff ((0 < npages ∧ npages ≤ 2 ^ 20) ∧ prot.other = false ∧ (flags.shared = !flags.priv) ∧
      (lopage = 0 ∨ C.low ≤ lopage ∧ lopage + npages ≤ C.high) ∧ PAGE_ALIGNED off = true ∧
      (flags.priv = false → file ≠ none))
    ⟨fun ⟨h1, h2, h3, h4, h5, h6⟩ => ⟨h1, h2, h3, h4, h5, h6⟩, fun h => ⟨h.pages, h.prot, h.kind, h.place, h.off, h.file⟩⟩

instance (s : State) : (e : RefOp) → Decidable (e.Called C s)
  | .proc_create => isTrue trivial
  | .vmmap_create => isTrue trivial
  | .vmmap_map .. => inferInstanceAs (Decidable (_ ∧ _ ∧ _))
  | .vmmap_remove .. => inferInstanceAs (Decidable (_ < _))
  | .vmmap_destroy .. => isTrue trivial
  | .do_fork _ => inferInstanceAs (Decidable (_ = _))
  | .handle_pagefault .. => inferInstanceAs (Decidable (_ = _))
  | .pframe_get .. => inferInstanceAs (Decidable (_ ∧ (_ ∨ _)))
  | .pframe_free _ => inferInstanceAs (Decidable (_ ∧ _))

/-- The references from outside are to files. -/
structure Outside (held : Nat → Int) (s : State) : Prop where
  nonneg : ∀ o, 0 ≤ held o
  file : ∀ o, held o ≠ 0 → ∃ ob, s.objs o = some ob ∧ ob.isFile = true

/-- Processes have maps, and files that can be mapped have objects. -/
structure Live (s : State) : Prop where
  maps : ∀ p pr, s.procs p = some pr → pr.p_vmmap < s.nmaps
  vnodes : ∀ vn o, (s.vnodes vn).vn_mmap = some (.ok o) → ∃ ob, s.objs o = some ob ∧ ob.isFile = true

/-- The invariant: beyond what open files hold all references are accounted for. -/
structure Sound (C : Config) (s : State) : Prop where
  held : ∃ held, Outside held s ∧ Backing C held s
  settled : Settled s
  live : Live s

theorem Outside.fresh (h : Outside held s) (hc : Chains s) (o : Nat) (ho : s.nobjs ≤ o) : held o = 0 := by
  by_contra e
  obtain ⟨ob, hob, -⟩ := h.file o e
  have := hc.known o ob hob
  omega

theorem Sound.keep (hO : Outside held s) (hL : Live s) (hK : Kept C held s s')
    (hmaps : ∀ p pr, s'.procs p = some pr → pr.p_vmmap < s'.nmaps) (hv : s'.vnodes = s.vnodes) :
    Sound C s' ∧ ∀ o ob, s.objs o = some ob → s'.objs o = some ob := by
  refine ⟨⟨⟨held, ⟨hO.nonneg, fun o ho => ?_⟩, hK.backing⟩, hK.settled, hmaps, fun vn o ho => ?_⟩, hK.objs⟩
  · obtain ⟨ob, hob, hfile⟩ := hO.file o ho
    exact ⟨ob, hK.objs o ob hob, hfile⟩
  · rw [hv] at ho
    obtain ⟨ob, hob, hfile⟩ := hL.vnodes vn o ho
    exact ⟨ob, hK.objs o ob hob, hfile⟩

/-- The same where processes, maps and files stay. -/
theorem Sound.keep_spaces (hO : Outside held s) (hL : Live s) (hK : Kept C held s s') {l : List VmArea} {n : Nat}
    (hsp : s'.spaces = s.spaces.withList m l n) : Sound C s' ∧ ∀ o ob, s.objs o = some ob → s'.objs o = some ob := by
  have hprocs : s'.procs = s.procs := congrArg Spaces.procs hsp
  have hnmaps : s'.nmaps = s.nmaps := congrArg Spaces.nmaps hsp
  refine Sound.keep hO hL hK (fun p pr hpr => ?_) (congrArg Spaces.vnodes hsp :)
  rw [hprocs] at hpr
  rw [hnmaps]
  exact hL.maps p pr hpr

theorem Spaces.withList_self (s : State) (m : Nat) : s.spaces.withList m (s.vmm_list m) s.nareas = s.spaces := by
  simp [Spaces.withList, State.spaces]

theorem settled_new (hs : Settled s) : Settled (vmmap_create s) := by
  intro k d hd
  unfold vmmap_create at hd
  by_cases e : k = s.nmaps
  · subst e
    simp only [Function.update_self] at hd
    cases hd
  · simp only [Function.update_of_ne e] at hd
    exact hs k d hd

theorem exit_process_live {code : Int} (hL : Layout C s) (h : exit_process C s p code = some s') :
    (∀ q pr, s'.procs q = some pr → s.procs q = some pr) ∧ s'.nmaps = s.nmaps ∧ s'.vnodes = s.vnodes := by
  simp only [exit_process, bind, Option.bind_eq_some_iff, Option.some.injEq] at h
  obtain ⟨pr, -, s₁, hd, rfl⟩ := h
  obtain ⟨-, hsp⟩ := vmmap_destroy_layout hL hd
  have hprocs : s₁.procs = s.procs := congrArg Spaces.procs hsp
  refine ⟨fun q pr' hq => ?_, (congrArg Spaces.nmaps hsp :), (congrArg Spaces.vnodes hsp :)⟩
  have hq' : Function.update s₁.procs p none q = some pr' := hq
  by_cases e : q = p
  · rw [e, Function.update_self] at hq'
    cases hq'
  · rwa [Function.update_of_ne e, hprocs] at hq'

theorem proc_create_maps (hmaps : ∀ p pr, s.procs p = some pr → pr.p_vmmap < s.nmaps) {q : Nat} {pr : Proc}
    (hq : (proc_create s).procs q = some pr) : pr.p_vmmap < s.nmaps + 1 := by
  simp only [Vm.proc_create, vmmap_create] at hq
  by_cases e : q = s.nprocs
  · rw [e, Function.update_self] at hq
    cases hq
    exact Nat.lt_succ_self _
  · rw [Function.update_of_ne e] at hq
    exact (hmaps q pr hq).trans (Nat.lt_succ_self _)

theorem do_fork_live {c : Nat} (hL : Layout C s) (hmaps : ∀ p pr, s.procs p = some pr → pr.p_vmmap < s.nmaps)
    (h : do_fork s p = some (s', c)) :
    (∀ q pr, s'.procs q = some pr → pr.p_vmmap < s'.nmaps) ∧ s'.vnodes = s.vnodes := by
  simp only [do_fork, bind, Option.bind_eq_some_iff, Option.some.injEq, Prod.mk.injEq] at h
  obtain ⟨pr, -, s₁, hf, rfl, -⟩ := h
  obtain ⟨-, hshape⟩ := fork_areas_shape (vmmap_clone_layout (proc_create_layout hL)) hf
  have hprocs : s₁.procs = (proc_create s).procs := congrArg Spaces.procs hshape.rest
  have hnmaps : s₁.nmaps = s.nmaps + 1 + 1 := congrArg Spaces.nmaps hshape.rest
  refine ⟨fun q pr' hq => ?_, (congrArg Spaces.vnodes hshape.rest :)⟩
  have hq' : Function.update s₁.procs s.nprocs (some ⟨s.nmaps + 1, pr.p_start_brk, pr.p_files⟩) q = some pr' := hq
  show pr'.p_vmmap < s₁.nmaps
  rw [hnmaps]
  by_cases e : q = s.nprocs
  · rw [e, Function.update_self] at hq'
    cases hq'
    exact Nat.lt_succ_self _
  · rw [Function.update_of_ne e, hprocs] at hq'
    exact (proc_create_maps hmaps hq').trans (Nat.lt_succ_self _)

/-- An operation called as it may be returns, and keeps the invariant and all objects. -/
theorem refStep_total {e : RefOp} (h : Sound C s) (he : e.Called C s) :
    ∃ s', refStep C E s e = some (s', ()) ∧ Sound C s' ∧ ∀ o ob, s.objs o = some ob → s'.objs o = some ob := by
  obtain ⟨⟨held, hO, hB⟩, hS, hL⟩ := h
  have hself : ∀ {t : State}, t.spaces = s.spaces → t.spaces = s.spaces.withList 0 (s.vmm_list 0) s.nareas := fun ht => by
    rw [Spaces.withList_self]
    exact ht
  cases e with
  | proc_create =>
    exact ⟨_, rfl, Sound.keep hO hL ⟨proc_create_backing hB, settled_new hS, fun _ _ ho => ho, le_rfl⟩
      (fun q pr hq => proc_create_maps hL.maps hq) rfl⟩
  | vmmap_create =>
    exact ⟨_, rfl, Sound.keep hO hL ⟨vmmap_create_backing hB, settled_new hS, fun _ _ ho => ho, le_rfl⟩
      (fun q pr hq => (hL.maps q pr hq).trans (Nat.lt_succ_self _)) rfl⟩
  | vmmap_map p m file lopage npages prot flags off dir =>
    obtain ⟨hm, hargs, hfile⟩ := he
    have hopened : ∀ vn, file = some vn → ∃ o, Opened held s vn o := by
      rintro vn rfl
      obtain ⟨o, hmmap, hopen⟩ := hfile
      obtain ⟨ob, hob, hisfile⟩ := hL.vnodes vn o hmmap
      have hcount := hB.counted o ob hob
      have hlt : s.refsTo o < s.mmo_refcount o := hopen
      exact ⟨o, hmmap, ⟨ob, hob, hisfile⟩, by omega⟩
    obtain ⟨s', r, hmap, hK⟩ := vmmap_map_total (p := p) dir hB hO.nonneg (hO.fresh hB.chains) hS hm hargs hopened
    obtain ⟨-, heff⟩ := vmmap_map_effect hB.layout hargs.pages.2 hmap
    obtain ⟨l, n, hsp⟩ := heff.spaces hB.layout
    exact ⟨s', by simp [refStep, hmap], Sound.keep_spaces hO hL hK hsp⟩
  | vmmap_remove p m lopage npages =>
    obtain ⟨s', hr, hK⟩ := vmmap_remove_total (p := p) (m := m) hB hO.nonneg hS he
    exact ⟨s', by simp [refStep, hr], Sound.keep_spaces hO hL hK (vmmap_remove_list he hB.layout hr)⟩
  | vmmap_destroy p m =>
    obtain ⟨s', hd, hK⟩ := vmmap_destroy_total (p := p) (m := m) hB hO.nonneg hS
    exact ⟨s', by simp [refStep, hd], Sound.keep_spaces hO hL hK (vmmap_destroy_layout hB.layout hd).2⟩
  | do_fork p =>
    obtain ⟨pr, hpr⟩ := Option.isSome_iff_exists.1 he
    obtain ⟨s', c, hf, hK⟩ := do_fork_total hB hO.nonneg (hO.fresh hB.chains) hS hpr (hL.maps p pr hpr)
    obtain ⟨hmaps, hv⟩ := do_fork_live hB.layout hL.maps hf
    exact ⟨s', by simp [refStep, hf], Sound.keep hO hL hK hmaps hv⟩
  | handle_pagefault p vaddr cause =>
    obtain ⟨pr, hpr⟩ := Option.isSome_iff_exists.1 he
    obtain ⟨s', r, hf, hK⟩ := handle_pagefault_total (E := E) hB hO.nonneg hS hpr vaddr cause
    refine ⟨s', by simp [refStep, hf], ?_⟩
    rcases handle_pagefault_spaces hf with ⟨-, hexit⟩ | ⟨-, hsp⟩
    · obtain ⟨hprocs, hn, hv⟩ := exit_process_live hB.layout hexit
      refine Sound.keep hO hL hK (fun q pr' hq => ?_) hv
      rw [hn]
      exact hL.maps q pr' (hprocs q pr' hq)
    · exact Sound.keep_spaces hO hL hK (hself hsp)
  | pframe_get o pn =>
    obtain ⟨hsome, hrefs⟩ := he
    obtain ⟨ob, hob⟩ := Option.isSome_iff_exists.1 hsome
    have hr : 0 < s.mmo_refcount o := by
      rcases hrefs with hrefs | hopen
      · exact hB.counted.pos hO.nonneg hob hrefs
      · exact Nat.zero_lt_of_lt hopen
    obtain ⟨s', pf, ok, hget, hK⟩ := hB.pframe_get (E := E) hO.nonneg hS hob hr pn
    exact ⟨s', by simp [refStep, hget], Sound.keep_spaces hO hL hK (hself (pframe_get_spaces hget))⟩
  | pframe_free pf =>
    obtain ⟨s', hf, hK⟩ := pframe_free_total hB hO.nonneg hS he.1 he.2
    refine ⟨s', by simp [refStep, hf], Sound.keep_spaces hO hL hK (hself ?_)⟩
    simp only [Vm.pframe_free, bind, Option.bind_eq_some_iff] at hf
    obtain ⟨s₁, hrel, hput⟩ := hf
    exact (put_spaces hput).trans (pframe_release_spaces hrel)

/-! ## Runs -/

theorem Booted.sound {s₀ : State} (h : Booted s₀) : Sound C s₀ := by
  have hfile : ∀ o ob, s₀.objs o = some ob → ob.isFile = true ∧ ob.mmo_ops ≠ .shadow ∧ ob.mmo_shadowed = none ∧ o < s₀.nobjs :=
    fun o ob ho => by
      obtain ⟨hlt, vn, rfl⟩ := h.objs o ob ho
      exact ⟨rfl, by simp, rfl, hlt⟩
  have hchains : Chains s₀ := ⟨fun o ob ho => (hfile o ob ho).2.2.2, fun o ob ho hs => absurd hs (hfile o ob ho).2.1,
    fun o ob ho _ => (hfile o ob ho).2.2.1⟩
  have hframes : Frames s₀ := by
    constructor <;> simp [h.pframes, h.nres, h.alloc_list, State.usedPages]
  have hung : Hung s₀ := by
    constructor <;> simp [h.lists, h.vmas]
  refine ⟨⟨fun o => if (s₀.objs o).isSome then s₀.mmo_refcount o else 0, ⟨fun o => ?_, fun o ho => ?_⟩, ?_⟩, ?_, ?_⟩
  · split <;> omega
  · split at ho
    next hs =>
      obtain ⟨ob, hob⟩ := Option.isSome_iff_exists.1 hs
      exact ⟨ob, hob, (hfile o ob hob).1⟩
    next => exact absurd rfl ho
  · refine ⟨h.placed.layout, hchains, hframes, fun pf hm => h.busy _, hung, fun o ob ho => ?_, h.num⟩
    have hareas : s₀.areasOf o = 0 := by
      apply Tally.eq_zero_iff.2
      simp [h.lists]
    have hshadows : s₀.shadowsOf o = 0 := by
      apply Tally.eq_zero_iff.2
      intro x _ ob' hx hobj
      exact (hfile x ob' (by simpa using hx)).2.1 (of_decide_eq_true hobj).1
    simp [State.refsTo, hareas, hshadows, h.nres, ho]
  · intro m a ha
    rw [h.lists] at ha
    cases ha
  · refine ⟨fun p pr hpr => ?_, fun vn o ho => ⟨_, h.vnodes vn o ho, rfl⟩⟩
    rw [h.procs] at hpr
    cases hpr

/-- The invariant holds in every state reached. -/
theorem run_sound {s₀ : State} (h0 : Booted s₀) {tr : List (RefOp × Unit)}
    (h : Run (refStep C E) (fun s e => e.Called C s) s₀ s tr) : Sound C s :=
  h.inv (Sound C) h0.sound fun t e t' _ hI he hst => by
    obtain ⟨u, hu, hI', -⟩ := refStep_total (E := E) hI he
    rw [hu] at hst
    cases hst
    exact hI'

/-- In every state reached the count of an anonymous or a shadow object is the
number of areas, shadow objects and resident pages that refer to it. What areas
and shadow objects refer to exists, and every operation called as it may be
returns: no assertion of a `ref` or `put` operation fails. -/
theorem refs_counted {s₀ : State} (h0 : Booted s₀) {tr : List (RefOp × Unit)}
    (h : Run (refStep C E) (fun s e => e.Called C s) s₀ s tr) :
    (∀ o ob, s.objs o = some ob → ob.mmo_ops = .anon ∨ ob.mmo_ops = .shadow →
      s.mmo_refcount o = s.areasOf o + s.shadowsOf o + s.mmo_nrespages o) ∧
    (∀ m, ∀ a ∈ s.vmm_list m, ∃ o ob, a.vma_obj = some o ∧ s.objs o = some ob) ∧
    (∀ x ob, s.objs x = some ob → ob.mmo_ops = .shadow →
      ∃ below ob', ob.mmo_shadowed = some below ∧ s.objs below = some ob') ∧
    ∀ e : RefOp, e.Called C s → ∃ s', refStep C E s e = some (s', ()) ∧ ∀ o ob, s.objs o = some ob → s'.objs o = some ob := by
  have hS : Sound C s := run_sound h0 h
  obtain ⟨held, hO, hB⟩ := hS.held
  refine ⟨fun o ob ho hops => ?_, fun m a ha => ?_, fun x ob hx hs => ?_, fun e he => ?_⟩
  · have hheld : held o = 0 := by
      by_contra e
      obtain ⟨ob', hob', hfile⟩ := hO.file o e
      rw [ho] at hob'
      cases hob'
      rcases hops with hops | hops
      · simp [Mmobj.isFile, hops] at hfile
      · simp [Mmobj.isFile, hops] at hfile
    have hcount := hB.counted o ob ho
    simp only [State.refsTo] at hcount
    omega
  · obtain ⟨o, ho⟩ := hS.settled m a ha
    obtain ⟨ob, hob, -⟩ := hB.hung.areas m a ha o ho
    exact ⟨o, ob, ho, hob⟩
  · obtain ⟨below, b, e1, -, e3, -⟩ := hB.chains.shadow x ob hx hs
    obtain ⟨ob', hob'⟩ := Chains.of_bottom e3
    exact ⟨below, ob', e1, hob'⟩
  · obtain ⟨s', hst, -, hobjs⟩ := refStep_total (E := E) hS he
    exact ⟨s', hst, hobjs⟩

/-- A private and a shared area, faults in both, a fork, a write of the parent
and a split: the two halves and a page refer to the parent's shadow object, and
the page of the file may be freed. -/
theorem refs_counted_split : ∃ s tr, Run (refStep .stock .simple) (fun s e => e.Called .stock s) oneFile s tr ∧
    s.mmo_refcount 3 = 3 ∧ s.areasOf 3 = 2 ∧ (∀ o ob, s.objs o = some ob → ob.mmo_ops = .anon ∨ ob.mmo_ops = .shadow →
      s.mmo_refcount o = s.areasOf o + s.shadowsOf o + s.mmo_nrespages o) ∧
    ∃ s', refStep .stock .simple s (.pframe_free ⟨3, 0, 0⟩) = some (s', ()) := by
  let ops : List RefOp :=
    [.proc_create, .vmmap_map 0 0 none 0 10 { read := true, write := true } { priv := true, anon := true } 0 .lohi,
      .vmmap_map 0 0 (some 0) 0 4 { read := true } { shared := true } 0 .lohi,
      .handle_pagefault 0 0x400000 { write := true }, .handle_pagefault 0 0x40a000 {}, .do_fork 0,
      .handle_pagefault 0 0x400000 { write := true }, .vmmap_remove 0 0 0x403 2]
  have hex : (exec (refStep .stock .simple) (fun s e => decide (RefOp.Called .stock s e)) oneFile ops).map
      (fun r => (r.1.mmo_refcount 3, r.1.areasOf 3, decide (RefOp.Called .stock r.1 (.pframe_free ⟨3, 0, 0⟩)))) =
      some (3, 2, true) := by decide +kernel
  obtain ⟨⟨s, tr⟩, he, hval⟩ := Option.map_eq_some_iff.1 hex
  simp only [Prod.mk.injEq, decide_eq_true_eq] at hval
  obtain ⟨hcount, hareas, hcalled⟩ := hval
  have hrun : Run (refStep .stock .simple) (fun s e => RefOp.Called .stock s e) oneFile s tr :=
    Run.of_exec (fun _ _ => of_decide_eq_true) he
  obtain ⟨h1, -, -, h4⟩ := refs_counted oneFile_booted hrun
  obtain ⟨s', hst, -⟩ := h4 _ hcalled
  exact ⟨s, tr, hrun, hcount, hareas, h1, s', hst⟩

end Weenix.Vm
