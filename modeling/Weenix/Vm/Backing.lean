import Weenix.Vm.Puts
/-!
# References to memory objects

`Hung` says which objects areas have and on which lists areas are. `Counted`
says that the reference count of an object is the number of areas, shadow
objects and resident pages that refer to it, and of the references `held` by
code: by the running operation, and by whoever has a file open. `Backing` puts
the invariants of memory objects together.
-/

namespace Weenix.Vm

open Lib

variable {C : Config} {E : Env} {s s' t : State} {o b m : Nat} {a : VmArea} {ob : Mmobj} {held held' : Nat → Int}

namespace State
variable (s : State)

/-- The number of areas with `vma_obj = o`. -/
def areasOf (o : Nat) : Nat := tally s.vmm_list (fun a => decide (a.vma_obj = some o)) s.nmaps

/-- The number of existing shadow objects with `mmo_shadowed = o`. -/
def shadowsOf (o : Nat) : Nat :=
  tally (fun x => (s.objs x).toList) (fun ob => decide (ob.mmo_ops = .shadow ∧ ob.mmo_shadowed = some o)) s.nobjs

/-- All that refers to `o`. -/
def refsTo (o : Nat) : Nat := s.areasOf o + s.shadowsOf o + s.mmo_nrespages o

end State

def Counted (held : Nat → Int) (s : State) : Prop :=
  ∀ o ob, s.objs o = some ob → (s.mmo_refcount o : Int) = s.refsTo o + held o

/-- A shared area has a file's object, a private one a shadow object. -/
def Suits (s : State) (a : VmArea) (o : Nat) : Prop :=
  ∃ ob, s.objs o = some ob ∧ if a.vma_flags.shared then ob.isFile = true else ob.mmo_ops = .shadow

/-- An area that has an object is on the list of its bottom object, and on no other. -/
structure Hung (s : State) : Prop where
  areas : ∀ m, ∀ a ∈ s.vmm_list m, ∀ o, a.vma_obj = some o → Suits s a o
  linked : ∀ m, ∀ a ∈ s.vmm_list m, ∀ o, a.vma_obj = some o → ∃ b, s.bottomOf o = some b ∧ a.vma_id ∈ s.mmo_vmas b
  once : ∀ b, (s.mmo_vmas b).Nodup
  listed : ∀ b, ∀ id ∈ s.mmo_vmas b, ∃ m, ∃ a ∈ s.vmm_list m, a.vma_id = id ∧ ∃ o, a.vma_obj = some o ∧ s.bottomOf o = some b

structure Backing (C : Config) (held : Nat → Int) (s : State) : Prop where
  layout : Layout C s
  chains : Chains s
  frames : Frames s
  idle : Idle s
  hung : Hung s
  counted : Counted held s
  num : s.num = 0

/-! ## What the invariants look at -/

theorem Suits.congr (h : Suits s a o) (h1 : s'.objs = s.objs) : Suits s' a o := by
  unfold Suits
  rw [h1]
  exact h

theorem Hung.congr (h : Hung s) (h1 : s'.objs = s.objs) (h2 : s'.vmm_list = s.vmm_list) (h3 : s'.mmo_vmas = s.mmo_vmas) :
    Hung s' := by
  refine ⟨fun m a ha o ho => ?_, fun m a ha o ho => ?_, by rw [h3]; exact h.once, fun b id hid => ?_⟩
  · exact (h.areas m a (h2 ▸ ha) o ho).congr h1
  · rw [h3, bottomOf_congr h1]
    exact h.linked m a (h2 ▸ ha) o ho
  · rw [h3] at hid
    simp only [h2, bottomOf_congr h1]
    exact h.listed b id hid

theorem Hung.listed_areas (h : Hung s) (hL : Layout C s) : Listed s := fun b id hid => by
  obtain ⟨m, a, ha, rfl, -⟩ := h.listed b id hid
  exact ⟨a, m, areaById_eq hL ha, (hL.areas m).owner a ha⟩

theorem Backing.steady (h : Backing C held s) : Steady s :=
  ⟨h.chains, h.frames, h.idle, h.hung.listed_areas h.layout⟩

/-- Page tables do not matter. -/
theorem Backing.pagedir (h : Backing C held s) (pd : Nat → Nat → Option Pte) : Backing C held { s with p_pagedir := pd } :=
  ⟨h.layout.congr rfl, h.chains.congr rfl rfl, h.frames.congr rfl rfl rfl rfl rfl rfl, h.idle, h.hung.congr rfl rfl rfl,
    h.counted, h.num⟩

/-- Nor does an area that is in no map yet. -/
theorem Backing.vmarea_alloc (h : Backing C held s) : Backing C held s.vmarea_alloc :=
  ⟨h.layout.more (Nat.le_succ _), h.chains.congr rfl rfl, h.frames.congr rfl rfl rfl rfl rfl rfl, h.idle,
    h.hung.congr rfl rfl rfl, h.counted, h.num⟩

/-- What processes there are does not matter. -/
theorem Backing.processes (h : Backing C held s) (procs : Nat → Option Proc) (brk : Nat → Nat) (zombies : Nat → Option Int) :
    Backing C held { s with procs := procs, p_brk := brk, zombies := zombies } :=
  ⟨⟨h.layout.areas, h.layout.ids, h.layout.fresh, h.layout.apart, h.layout.unused⟩, h.chains.congr rfl rfl,
    h.frames.congr rfl rfl rfl rfl rfl rfl, h.idle, h.hung.congr rfl rfl rfl, h.counted, h.num⟩

theorem areasOf_congr (h1 : s'.vmm_list = s.vmm_list) (h2 : s'.nmaps = s.nmaps) : s'.areasOf o = s.areasOf o := by
  unfold State.areasOf
  rw [h1, h2]

theorem shadowsOf_congr (h1 : s'.objs = s.objs) (h2 : s'.nobjs = s.nobjs) : s'.shadowsOf o = s.shadowsOf o := by
  unfold State.shadowsOf
  rw [h1, h2]

/-- The rule for a change of references: for every object that exists what it
gains in its count is what it gains in references and in held ones. -/
theorem Counted.step (h : Counted held s)
    (hs : ∀ o ob, s'.objs o = some ob → s.objs o = some ob ∧
      (s'.mmo_refcount o : Int) + s.refsTo o + held o = s.mmo_refcount o + s'.refsTo o + held' o) :
    Counted held' s' := by
  intro o ob ho
  obtain ⟨h1, h2⟩ := hs o ob ho
  have := h o ob h1
  omega

/-- An object that something refers to has a reference. -/
theorem Counted.pos (h : Counted held s) (hheld : ∀ o, 0 ≤ held o) (ho : s.objs o = some ob) (hr : 0 < s.refsTo o) :
    0 < s.mmo_refcount o := by
  have h1 := h o ob ho
  have h2 := hheld o
  omega

theorem areasOf_pos (hL : Layout C s) (ha : a ∈ s.vmm_list m) (ho : a.vma_obj = some o) : 0 < s.areasOf o :=
  Tally.pos (hL.created ha) ha (by simpa using ho)

/-- The areas that have an object, when `a` makes way for the areas `q`. -/
theorem areasOf_replace (hm : m < s.nmaps) {pre l q : List VmArea} (hlist : s.vmm_list m = pre ++ a :: l)
    (h1 : s'.vmm_list = Function.update s.vmm_list m (pre ++ q ++ l)) (h2 : s'.nmaps = s.nmaps) (x : Nat) :
    s'.areasOf x + (if a.vma_obj = some x then 1 else 0) =
      s.areasOf x + q.countP (fun a => decide (a.vma_obj = some x)) := by
  have h := Tally.update (f := s.vmm_list) (p := fun a : VmArea => decide (a.vma_obj = some x)) (pre ++ q ++ l) hm
  unfold State.areasOf
  rw [hlist, List.countP_append, List.countP_append, List.countP_append, List.countP_cons] at h
  rw [h1, h2]
  simp only [decide_eq_true_eq] at h
  omega

/-- The rule for the references when `a` makes way for the areas `q`. -/
theorem Counted.replace (h : Counted held s) (hm : m < s.nmaps) {pre l q : List VmArea}
    (hlist : s.vmm_list m = pre ++ a :: l) (h1 : s'.vmm_list = Function.update s.vmm_list m (pre ++ q ++ l))
    (h2 : s'.nmaps = s.nmaps) (h3 : s'.objs = s.objs) (h4 : s'.nobjs = s.nobjs)
    (hx : ∀ x, (s'.mmo_refcount x : Int) + s.mmo_nrespages x + held x + (if a.vma_obj = some x then 1 else 0) =
      s.mmo_refcount x + s'.mmo_nrespages x + held' x + q.countP fun a => decide (a.vma_obj = some x)) :
    Counted held' s' := by
  refine h.step fun x ob ho => ⟨h3 ▸ ho, ?_⟩
  have hareas := areasOf_replace hm hlist h1 h2 x
  have hshadows : s'.shadowsOf x = s.shadowsOf x := shadowsOf_congr h3 h4
  have hcount := hx x
  simp only [State.refsTo]
  by_cases e : a.vma_obj = some x
  · rw [if_pos e] at hareas hcount
    omega
  · rw [if_neg e] at hareas hcount
    omega

theorem shadowsOf_pos (hc : Chains s) {x : Nat} (hx : s.objs x = some ob) (hs : ob.mmo_ops = .shadow)
    (ho : ob.mmo_shadowed = some o) : 0 < s.shadowsOf o :=
  Tally.pos (a := ob) (hc.known x ob hx) (by simp [hx]) (by simp [hs, ho])

/-! ## Getting pages -/

theorem Backing.grown (h : Backing C held s) (hg : Grown s s') (hf : Frames s') : Backing C held s' := by
  have e1 : s'.vmm_list = s.vmm_list := congrArg Spaces.vmm_list hg.spaces
  have e2 : s'.nmaps = s.nmaps := congrArg Spaces.nmaps hg.spaces
  refine ⟨h.layout.congr hg.spaces, hg.chains h.chains, hf, hg.idle h.idle, h.hung.congr hg.objs e1 hg.vmas,
    h.counted.step fun o ob ho => ⟨by rw [← hg.objs]; exact ho, ?_⟩, hg.num.trans h.num⟩
  have h1 := hg.refs o
  have h2 : s'.areasOf o = s.areasOf o := areasOf_congr e1 e2
  have h3 : s'.shadowsOf o = s.shadowsOf o := shadowsOf_congr hg.objs hg.nobjs
  simp only [State.refsTo]
  omega

/-- What an area's object stands on has references. -/
theorem Backing.bottom_pos (h : Backing C held s) (hheld : ∀ o, 0 ≤ held o) (hb : s.bottomOf o = some b) (hr : 0 < s.mmo_refcount o) :
    0 < s.mmo_refcount b := by
  rcases h.chains.hidden hb with rfl | ⟨x, ob, hx, hs, ho⟩
  · exact hr
  · obtain ⟨obb, hob, -⟩ := h.chains.bottom_obj hb
    apply h.counted.pos hheld hob
    have := shadowsOf_pos h.chains hx hs ho
    simp only [State.refsTo]
    omega

theorem Backing.area_pos (h : Backing C held s) (hheld : ∀ o, 0 ≤ held o) (ha : a ∈ s.vmm_list m) (ho : a.vma_obj = some o) :
    s.mmo_nrespages o < s.mmo_refcount o := by
  obtain ⟨ob, hob, -⟩ := h.hung.areas m a ha o ho
  have h1 := areasOf_pos h.layout ha ho
  have h2 := h.counted o ob hob
  have h3 := hheld o
  simp only [State.refsTo] at h2
  omega

/-! ## Changing an area list -/

/-- The lists with one more area on that of `b`. -/
theorem mem_linkVma {id x c : Nat} : x ∈ (s.linkVma b id).mmo_vmas c ↔ x ∈ s.mmo_vmas c ∨ (x = id ∧ c = b) := by
  by_cases e : c = b
  · subst e
    simp [State.linkVma]
  · simp [State.linkVma, e]

theorem linkVma_once (h : ∀ b, (s.mmo_vmas b).Nodup) {id : Nat} (hid : id ∉ s.mmo_vmas b) (c : Nat) :
    ((s.linkVma b id).mmo_vmas c).Nodup := by
  by_cases e : c = b
  · rw [e, show (s.linkVma b id).mmo_vmas b = s.mmo_vmas b ++ [id] from Function.update_self ..]
    exact List.nodup_append.2 ⟨h b, by simp, fun x hx y hy hxy => hid (by simp_all)⟩
  · rw [show (s.linkVma b id).mmo_vmas c = s.mmo_vmas c from Function.update_of_ne e ..]
    exact h c

/-- The rule for giving map `m` another list, with the lists of the objects changed to match. -/
theorem Hung.setList (h : Hung s) (l' : List VmArea) (hobjs : s'.objs = s.objs)
    (hl : s'.vmm_list = Function.update s.vmm_list m l')
    (hareas : ∀ a ∈ l', ∀ o, a.vma_obj = some o → Suits s a o ∧ ∃ b, s.bottomOf o = some b ∧ a.vma_id ∈ s'.mmo_vmas b)
    (hother : ∀ m', m' ≠ m → ∀ a ∈ s.vmm_list m', ∀ b, a.vma_id ∈ s.mmo_vmas b → a.vma_id ∈ s'.mmo_vmas b)
    (honce : ∀ b, (s'.mmo_vmas b).Nodup)
    (hlisted : ∀ b, ∀ id ∈ s'.mmo_vmas b,
      (∃ a ∈ l', a.vma_id = id ∧ ∃ o, a.vma_obj = some o ∧ s.bottomOf o = some b) ∨
      (id ∈ s.mmo_vmas b ∧ ∀ a ∈ s.vmm_list m, a.vma_id ≠ id)) : Hung s' := by
  have hself : s'.vmm_list m = l' := by rw [hl, Function.update_self]
  have hne : ∀ m', m' ≠ m → s'.vmm_list m' = s.vmm_list m' := fun m' e => by rw [hl, Function.update_of_ne e]
  constructor
  case areas =>
    intro m' a ha o ho
    by_cases e : m' = m
    · rw [e, hself] at ha
      exact (hareas a ha o ho).1.congr hobjs
    · rw [hne m' e] at ha
      exact (h.areas m' a ha o ho).congr hobjs
  case linked =>
    intro m' a ha o ho
    simp only [bottomOf_congr hobjs]
    by_cases e : m' = m
    · rw [e, hself] at ha
      exact (hareas a ha o ho).2
    · rw [hne m' e] at ha
      obtain ⟨b, hb, hid⟩ := h.linked m' a ha o ho
      exact ⟨b, hb, hother m' e a ha b hid⟩
  case once => exact honce
  case listed =>
    intro b id hid
    simp only [bottomOf_congr hobjs]
    rcases hlisted b id hid with ⟨a, ha, h1⟩ | ⟨hid', hout⟩
    · exact ⟨m, a, by rw [hself]; exact ha, h1⟩
    · obtain ⟨m', a, ha, he, h1⟩ := h.listed b id hid'
      have e : m' ≠ m := by
        rintro rfl
        exact hout a ha he
      exact ⟨m', a, by rw [hne m' e]; exact ha, he, h1⟩

/-- An area is on the list of its own bottom object only. -/
theorem Hung.own_list (h : Hung s) (hL : Layout C s) (ha : a ∈ s.vmm_list m) (ho : a.vma_obj = some o)
    (hb : s.bottomOf o = some b) {b' : Nat} : a.vma_id ∈ s.mmo_vmas b' ↔ b' = b := by
  constructor
  · intro hid
    obtain ⟨m', c, hc, he, o', ho', hb'⟩ := h.listed b' _ hid
    have hm := hL.apart m' m c hc a ha he
    subst hm
    have hca := List.inj_on_of_nodup_map (hL.ids m') hc ha he
    subst hca
    rw [ho] at ho'
    cases ho'
    rw [hb] at hb'
    exact (Option.some.inj hb').symm
  · rintro rfl
    obtain ⟨b', hb', hid⟩ := h.linked m a ha o ho
    rw [hb] at hb'
    cases hb'
    exact hid

end Weenix.Vm
