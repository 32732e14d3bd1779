import Weenix.Vm.Removal
import Mathlib.Algebra.Group.Pi.Basic
import Mathlib.Algebra.Group.Int.Defs
import Mathlib.Tactic.Abel
/-!
# Giving areas objects

New objects, references taken, and areas that get an object or another one.
Each of these moves references between the running code and the objects:
`held` says what it holds before and after. `attachObject` ends holding the
reference of the new area, and `fork_area` holding none.
-/

namespace Weenix.Vm

open Lib

variable {C : Config} {s s' t : State} {o b m : Nat} {a : VmArea} {ob : Mmobj} {held : Nat → Int}

/-- One reference to `o`. -/
def holding (o : Nat) : Nat → Int := fun x => if x = o then 1 else 0

/-! ## New objects -/

/-- An anonymous object, or a shadow object over one that exists. -/
inductive Fits (s : State) : Mmobj → Prop
  | anon : Fits s ⟨.anon, none, none⟩
  | shadow {below b : Nat} : s.bottomOf below = some b → Fits s ⟨.shadow, some below, some b⟩

/-- The reference a new object takes over from its creator. -/
def Mmobj.takes (ob : Mmobj) : Nat → Int :=
  match ob.mmo_shadowed with
  | some below => holding below
  | none => 0

theorem newObj_self : (s.newObj ob).objs s.nobjs = some ob := Function.update_self ..

theorem Chains.old (hc : Chains s) {ob' : Mmobj} (ho : s.objs o = some ob') : (s.newObj ob).objs o = some ob' := by
  have := hc.known o ob' ho
  exact (Function.update_of_ne (by omega) ..).trans ho

theorem newObj_cases {ob' : Mmobj} (h : (s.newObj ob).objs o = some ob') :
    (o = s.nobjs ∧ ob' = ob) ∨ (o ≠ s.nobjs ∧ s.objs o = some ob') := by
  by_cases e : o = s.nobjs
  · rw [e, newObj_self] at h
    cases h
    exact .inl ⟨e, rfl⟩
  · exact .inr ⟨e, (Function.update_of_ne e ..).symm.trans h⟩

theorem Chains.bottom_old (hc : Chains s) (hb : s.bottomOf o = some b) : (s.newObj ob).bottomOf o = some b := by
  obtain ⟨ob', ho⟩ := Chains.of_bottom hb
  unfold State.bottomOf at hb ⊢
  rw [hc.old ho]
  rwa [ho] at hb

theorem Fits.bottom_new (h : Fits s ob) : (s.newObj ob).bottomOf s.nobjs = some (ob.mmo_bottom_obj.getD s.nobjs) := by
  unfold State.bottomOf
  rw [newObj_self]
  cases h <;> rfl

theorem Chains.newObj (hc : Chains s) (h : Fits s ob) : Chains (s.newObj ob) := by
  have hlt : ∀ {x c : Nat}, s.bottomOf x = some c → x < s.nobjs := fun hx => by
    obtain ⟨ob', ho⟩ := Chains.of_bottom hx
    exact hc.known _ ob' ho
  constructor
  case known =>
    intro o ob' ho
    rcases newObj_cases ho with ⟨rfl, -⟩ | ⟨-, ho⟩
    · exact Nat.lt_succ_self _
    · exact (hc.known o ob' ho).trans (Nat.lt_succ_self _)
  case shadow =>
    intro o ob' ho hs
    rcases newObj_cases ho with ⟨rfl, rfl⟩ | ⟨-, ho⟩
    · cases h with
      | anon => cases hs
      | @shadow below b hb => exact ⟨below, b, rfl, hlt hb, hc.bottom_old hb, rfl⟩
    · obtain ⟨below, b, e1, e2, e3, e4⟩ := hc.shadow o ob' ho hs
      exact ⟨below, b, e1, e2, hc.bottom_old e3, e4⟩
  case root =>
    intro o ob' ho hs
    rcases newObj_cases ho with ⟨rfl, rfl⟩ | ⟨-, ho⟩
    · cases h with
      | anon => rfl
      | shadow => exact absurd rfl hs
    · exact hc.root o ob' ho hs

theorem Frames.newObj (hf : Frames s) (hc : Chains s) : Frames (s.newObj ob) := by
  have hold : ∀ pf ∈ s.pframes, ∀ ob', (s.newObj ob).objs pf.pf_obj = some ob' → s.objs pf.pf_obj = some ob' :=
    fun pf hm ob' ho' => by
      obtain ⟨ob'', ho⟩ := hf.owner pf hm
      rw [hc.old ho] at ho'
      cases ho'
      exact ho
  refine ⟨hf.pages, hf.addrs, fun pf hm => ?_, fun o => ?_, fun pf hm ob' ho' => hf.file pf hm ob' (hold pf hm ob' ho'),
    fun pf hm ob' ho' => hf.pinned pf hm ob' (hold pf hm ob' ho'), hf.alloc_once, hf.alloc⟩
  · obtain ⟨ob', ho⟩ := hf.owner pf hm
    exact ⟨ob', hc.old ho⟩
  · show Function.update s.mmo_nrespages s.nobjs 0 o = s.pframes.countP fun pf => decide (pf.pf_obj = o)
    by_cases e : o = s.nobjs
    · subst e
      rw [Function.update_self, eq_comm, List.countP_eq_zero]
      intro pf hm he
      obtain ⟨ob', ho⟩ := hf.owner pf hm
      exact absurd (hc.known _ ob' ho) (by simpa using Nat.le_of_eq (of_decide_eq_true he).symm)
    · rw [Function.update_of_ne e]
      exact hf.resident o

theorem Suits.newObj (h : Suits s a o) (hc : Chains s) : Suits (s.newObj ob) a o := by
  obtain ⟨ob', ho, h⟩ := h
  exact ⟨ob', hc.old ho, h⟩

theorem Hung.newObj (h : Hung s) (hc : Chains s) : Hung (s.newObj ob) := by
  have hvmas : ∀ b, b ≠ s.nobjs → (s.newObj ob).mmo_vmas b = s.mmo_vmas b := fun b hb => Function.update_of_ne hb ..
  refine ⟨fun m a ha o ho => (h.areas m a ha o ho).newObj hc, fun m a ha o ho => ?_, fun b => ?_, fun b id hid => ?_⟩
  · obtain ⟨b, hb, hid⟩ := h.linked m a ha o ho
    obtain ⟨ob', hob, -⟩ := hc.bottom_obj hb
    have := hc.known b ob' hob
    exact ⟨b, hc.bottom_old hb, by rw [hvmas b (by omega)]; exact hid⟩
  · by_cases e : b = s.nobjs
    · rw [e, show (s.newObj ob).mmo_vmas s.nobjs = [] from Function.update_self ..]
      exact List.nodup_nil
    · rw [hvmas b e]
      exact h.once b
  · by_cases e : b = s.nobjs
    · rw [e, show (s.newObj ob).mmo_vmas s.nobjs = [] from Function.update_self ..] at hid
      cases hid
    · rw [hvmas b e] at hid
      obtain ⟨m, a, ha, he, o, ho, hb⟩ := h.listed b id hid
      exact ⟨m, a, ha, he, o, ho, hc.bottom_old hb⟩

theorem shadowsOf_newObj (s : State) (ob : Mmobj) (o : Nat) : (s.newObj ob).shadowsOf o =
    s.shadowsOf o + if ob.mmo_ops = .shadow ∧ ob.mmo_shadowed = some o then 1 else 0 := by
  unfold State.shadowsOf
  show tally _ _ (s.nobjs + 1) = _
  simp only [tally, newObj_self, Option.toList_some, List.countP_singleton, decide_eq_true_eq]
  congr 1
  apply Tally.congr
  intro i hi
  rw [show (s.newObj ob).objs i = s.objs i from Function.update_of_ne (by omega) ..]

/-- Nothing refers to an object that does not exist yet. -/
theorem refsTo_fresh (hc : Chains s) (hf : Frames s) (h : Hung s) (ho : s.nobjs ≤ o) : s.refsTo o = 0 := by
  have hne : ∀ x ob', s.objs x = some ob' → x ≠ o := fun x ob' hx => by
    have := hc.known x ob' hx
    omega
  have h1 : s.areasOf o = 0 := by
    apply Tally.eq_zero_iff.2
    intro m _ a ha hobj
    obtain ⟨ob', hob, -⟩ := h.areas m a ha o (of_decide_eq_true hobj)
    exact hne o ob' hob rfl
  have h2 : s.shadowsOf o = 0 := by
    apply Tally.eq_zero_iff.2
    intro x _ ob' hx hobj
    obtain ⟨hs, hbelow⟩ := of_decide_eq_true hobj
    have hx' : s.objs x = some ob' := by simpa using hx
    obtain ⟨below, b, e1, e2, -⟩ := hc.shadow x ob' hx' hs
    rw [e1] at hbelow
    cases hbelow
    have := hc.known x ob' hx'
    omega
  have h3 : s.mmo_nrespages o = 0 := by
    rw [hf.resident, List.countP_eq_zero]
    intro pf hm he
    obtain ⟨ob', hob⟩ := hf.owner pf hm
    exact hne _ ob' hob (of_decide_eq_true he)
  simp only [State.refsTo, h1, h2, h3]

theorem Fits.takes_eq (h : Fits s ob) (o : Nat) :
    ob.takes o = if ob.mmo_ops = .shadow ∧ ob.mmo_shadowed = some o then 1 else 0 := by
  cases h with
  | anon => simp [Mmobj.takes]
  | shadow => simp [Mmobj.takes, holding, eq_comm]

/-- A new object. Its creator has its first reference, and gives the one to what it shadows away. -/
theorem Backing.newObj (h : Backing C held s) (hob : Fits s ob) (h0 : held s.nobjs = 0) :
    Backing C (held + holding s.nobjs - ob.takes) (s.newObj ob) := by
  refine ⟨h.layout.congr rfl, h.chains.newObj hob, h.frames.newObj h.chains, h.idle, h.hung.newObj h.chains, ?_, h.num⟩
  intro o ob' ho
  have hshadows := shadowsOf_newObj s ob o
  have hareas : (s.newObj ob).areasOf o = s.areasOf o := areasOf_congr rfl rfl
  have htakes := hob.takes_eq o
  have hrefs : ((s.newObj ob).shadowsOf o : Int) = s.shadowsOf o + ob.takes o := by
    rw [hshadows, htakes]
    split <;> simp
  simp only [State.refsTo, hareas, Pi.add_apply, Pi.sub_apply]
  rcases newObj_cases ho with ⟨rfl, rfl⟩ | ⟨hne, ho⟩
  · have hfresh := refsTo_fresh h.chains h.frames h.hung (Nat.le_refl s.nobjs)
    have hcount : (s.newObj ob').mmo_refcount s.nobjs = 1 := Function.update_self ..
    have hnres : (s.newObj ob').mmo_nrespages s.nobjs = 0 := Function.update_self ..
    have hone : holding s.nobjs s.nobjs = 1 := if_pos rfl
    simp only [State.refsTo] at hfresh
    omega
  · have hcount : (s.newObj ob).mmo_refcount o = s.mmo_refcount o := Function.update_of_ne hne ..
    have hnres : (s.newObj ob).mmo_nrespages o = s.mmo_nrespages o := Function.update_of_ne hne ..
    have hone : holding s.nobjs o = 0 := if_neg hne
    have := h.counted o ob' ho
    simp only [State.refsTo] at this
    omega

/-! ## References -/

/-- Taking a reference. -/
theorem Backing.ref (h : Backing C held s) (o : Nat) :
    Backing C (held + holding o) (s.setRefcount o (s.mmo_refcount o + 1)) := by
  refine ⟨h.layout.congr rfl, h.chains.congr rfl rfl, h.frames.congr rfl rfl rfl rfl rfl rfl, h.idle,
    h.hung.congr rfl rfl rfl, h.counted.step fun x ob hx => ⟨hx, ?_⟩, h.num⟩
  have hrefs : (s.setRefcount o (s.mmo_refcount o + 1)).refsTo x = s.refsTo x := rfl
  rw [hrefs]
  by_cases e : x = o
  · subst e
    simp only [setRefcount_self, Pi.add_apply, holding, if_true]
    omega
  · simp [State.setRefcount, holding, e]

/-! ## Areas -/

/-- An area that has no object is on no list. -/
theorem Hung.not_listed (h : Hung s) (hL : Layout C s) (ha : a ∈ s.vmm_list m) (hnone : a.vma_obj = none) (b : Nat) :
    a.vma_id ∉ s.mmo_vmas b := fun hid => by
  obtain ⟨m', c, hc, he, o, ho, -⟩ := h.listed b _ hid
  have hm := hL.apart m' m c hc a ha he
  subst hm
  have hca := List.inj_on_of_nodup_map (hL.ids m') hc ha he
  subst hca
  rw [hnone] at ho
  cases ho

theorem Suits.withObj {x : Nat} {o' : Option Nat} : Suits s (a.withObj o') x ↔ Suits s a x := Iff.rfl

theorem holding_eq {y : Nat} : (if some o = some y then (1 : Int) else 0) = holding o y := by
  simp [holding, eq_comm]

theorem countP_withObj {x y : Nat} :
    (([a.withObj (some x)].countP fun a => decide (a.vma_obj = some y) : Nat) : Int) = holding x y := by
  rw [← holding_eq]
  by_cases e : x = y
  · simp [VmArea.withObj, e]
  · simp [VmArea.withObj, e]

/-- The rule for setting the object of an area that is, or comes, on the list of the bottom object. -/
theorem Hung.withObj {x : Nat} {pre l : List VmArea} (h : Hung s) (hL : Layout C s)
    (hlist : s.vmm_list m = pre ++ a :: l) (hs : Suits s a x) (hb : s.bottomOf x = some b)
    (hlists : ∀ c, a.vma_id ∈ s.mmo_vmas c → c = b) (hobjs : s'.objs = s.objs)
    (hl : s'.vmm_list = Function.update s.vmm_list m (pre ++ a.withObj (some x) :: l))
    (hvmas : ∀ id c, id ∈ s'.mmo_vmas c ↔ id ∈ s.mmo_vmas c ∨ (id = a.vma_id ∧ c = b))
    (honce : ∀ c, (s'.mmo_vmas c).Nodup) : Hung s' := by
  refine h.setList _ hobjs hl (fun c hc o ho => ?_) (fun _ _ c _ b' hid => (hvmas _ b').2 (.inl hid)) honce
    fun c id hid => ?_
  · rcases mem_middle.1 hc with hc | rfl
    · have hc' : c ∈ s.vmm_list m := by rw [hlist]; exact mem_middle.2 (.inl hc)
      obtain ⟨b', h1, h2⟩ := h.linked m c hc' o ho
      exact ⟨h.areas m c hc' o ho, b', h1, (hvmas _ b').2 (.inl h2)⟩
    · cases ho
      exact ⟨hs, b, hb, (hvmas _ b).2 (.inr ⟨rfl, rfl⟩)⟩
  · have hself : ∃ c ∈ pre ++ a.withObj (some x) :: l, c.vma_id = a.vma_id ∧ ∃ o, c.vma_obj = some o ∧ s.bottomOf o = some b :=
      ⟨a.withObj (some x), by simp, rfl, x, rfl, hb⟩
    rcases (hvmas id c).1 hid with hid | ⟨rfl, rfl⟩
    · rcases h.listed_at hL m hid with ⟨d, hd, rfl, ho⟩ | hout
      · rw [hlist] at hd
        rcases mem_middle.1 hd with hd | rfl
        · exact .inl ⟨d, mem_middle.2 (.inl hd), rfl, ho⟩
        · rw [hlists c hid]
          exact .inl hself
      · exact .inr ⟨hid, hout⟩
    · exact .inl hself

/-- An area gets its object, and comes on the list of the bottom object. -/
theorem Backing.give {x : Nat} (h : Backing C held s) (ha : a ∈ s.vmm_list m) (hnone : a.vma_obj = none)
    (hs : Suits s a x) (hb : s.bottomOf x = some b) :
    Backing C (held - holding x) ((s.linkVma b a.vma_id).modArea m a.vma_id (VmArea.withObj (some x))) := by
  obtain ⟨pre, l, hlist⟩ := List.append_of_mem ha
  have hnd := h.layout.ids m
  rw [hlist] at hnd
  have hL : Layout C ((s.linkVma b a.vma_id).modArea m a.vma_id (VmArea.withObj (some x))) :=
    (h.layout.congr rfl : Layout C (s.linkVma b a.vma_id)).modArea m _ (withObj_keeps _)
  have hout := h.hung.not_listed h.layout ha hnone
  have he : (s.linkVma b a.vma_id).modArea m a.vma_id (VmArea.withObj (some x)) =
      (s.linkVma b a.vma_id).setList m (pre ++ a.withObj (some x) :: l) :=
    modArea_eq (s := s.linkVma b a.vma_id) hlist hnd _
  rw [he] at hL ⊢
  refine ⟨hL, h.chains.congr rfl rfl, h.frames.congr rfl rfl rfl rfl rfl rfl, h.idle, ?_, ?_, h.num⟩
  · exact h.hung.withObj h.layout hlist hs hb (fun c hc => absurd hc (hout c)) rfl rfl (fun _ _ => mem_linkVma)
      (linkVma_once h.hung.once (hout b))
  · refine h.counted.replace (q := [a.withObj (some x)]) (h.layout.created ha) hlist ?_ rfl rfl rfl fun y => ?_
    · simp [State.linkVma, State.setList]
    · rw [countP_withObj, hnone, if_neg (by simp)]
      simp only [State.linkVma, State.setList, Pi.sub_apply]
      omega

/-- An area gets another object with the same bottom object. -/
theorem Backing.rehang {x : Nat} (h : Backing C held s) (ha : a ∈ s.vmm_list m) (ho : a.vma_obj = some o)
    (hb : s.bottomOf o = some b) (hs : Suits s a x) (hx : s.bottomOf x = some b) :
    Backing C (held + holding o - holding x) (s.modArea m a.vma_id (VmArea.withObj (some x))) := by
  obtain ⟨pre, l, hlist⟩ := List.append_of_mem ha
  have hnd := h.layout.ids m
  rw [hlist] at hnd
  have hL : Layout C (s.modArea m a.vma_id (VmArea.withObj (some x))) := h.layout.modArea m _ (withObj_keeps _)
  have hown : ∀ c, a.vma_id ∈ s.mmo_vmas c ↔ c = b := fun c => h.hung.own_list h.layout ha ho hb
  rw [modArea_eq hlist hnd] at hL ⊢
  refine ⟨hL, h.chains.congr rfl rfl, h.frames.congr rfl rfl rfl rfl rfl rfl, h.idle, ?_, ?_, h.num⟩
  · refine h.hung.withObj h.layout hlist hs hx (fun c => (hown c).1) rfl rfl (fun id c => ?_) h.hung.once
    constructor
    · exact .inl
    · rintro (hid | ⟨rfl, rfl⟩)
      · exact hid
      · exact (hown c).2 rfl
  · refine h.counted.replace (q := [a.withObj (some x)]) (h.layout.created ha) hlist ?_ rfl rfl rfl fun y => ?_
    · simp [State.setList]
    · rw [countP_withObj, ho, holding_eq]
      simp only [State.setList, Pi.add_apply, Pi.sub_apply]
      omega

/-- A new area with its object comes into a map. -/
theorem Backing.insert {x : VmArea} (h : Backing C held s) (hm : m < s.nmaps)
    (hx : x.vma_start < x.vma_end ∧ C.low ≤ x.vma_start ∧ x.vma_end ≤ C.high)
    (hfree : RangeFree (s.vmm_list m) x.vma_start x.vma_end) (hid : x.vma_id < s.nareas)
    (hnew : ∀ m', ∀ a ∈ s.vmm_list m', a.vma_id ≠ x.vma_id) (ho : x.vma_obj = some o) (hs : Suits s x o)
    (hb : s.bottomOf o = some b) :
    Backing C (held - holding o) ((s.linkVma b x.vma_id).setList m (insertArea m x (s.vmm_list m))) := by
  have hL : Layout C (s.linkVma b x.vma_id) := h.layout.congr rfl
  have hout : ∀ b, x.vma_id ∉ s.mmo_vmas b := fun b hid => by
    obtain ⟨m', c, hc, he, -⟩ := h.hung.listed b _ hid
    exact hnew m' c hc he
  have hmem : ∀ c, c ∈ insertArea m x (s.vmm_list m) ↔ c = { x with vma_vmmap := some m } ∨ c ∈ s.vmm_list m :=
    fun c => mem_insertArea
  refine ⟨hL.insertArea hm hx hfree hnew hid, h.chains.congr rfl rfl, h.frames.congr rfl rfl rfl rfl rfl rfl, h.idle,
    ?_, ?_, h.num⟩
  · refine h.hung.setList (insertArea m x (s.vmm_list m)) rfl rfl (fun c hc o' ho' => ?_)
      (fun _ _ c _ b' hid => mem_linkVma.2 (.inl hid)) (linkVma_once h.hung.once (hout b)) fun c id hid => ?_
    · rcases (hmem c).1 hc with rfl | hc
      · obtain rfl : o = o' := Option.some.inj (ho.symm.trans ho')
        exact ⟨hs, b, hb, mem_linkVma.2 (.inr ⟨rfl, rfl⟩)⟩
      · obtain ⟨b', h1, h2⟩ := h.hung.linked m c hc o' ho'
        exact ⟨h.hung.areas m c hc o' ho', b', h1, mem_linkVma.2 (.inl h2)⟩
    · rcases mem_linkVma.1 hid with hid | ⟨rfl, rfl⟩
      · rcases h.hung.listed_at h.layout m hid with ⟨d, hd, h'⟩ | hout
        · exact .inl ⟨d, (hmem d).2 (.inr hd), h'⟩
        · exact .inr ⟨hid, hout⟩
      · exact .inl ⟨_, (hmem _).2 (.inl rfl), rfl, o, ho, hb⟩
  · refine h.counted.step fun y ob hy => ⟨hy, ?_⟩
    have htally := Tally.update (f := s.vmm_list) (p := fun a : VmArea => decide (a.vma_obj = some y))
      (insertArea m x (s.vmm_list m)) hm
    have hperm : (insertArea m x (s.vmm_list m)).countP (fun a => decide (a.vma_obj = some y)) =
        (s.vmm_list m).countP (fun a => decide (a.vma_obj = some y)) + if some o = some y then 1 else 0 := by
      rw [insertArea, (Intervals.insertBefore_perm _).countP_eq, List.countP_cons]
      simp [ho]
    have hone := holding_eq (o := o) (y := y)
    rw [hperm] at htally
    simp only [State.refsTo, State.areasOf, State.shadowsOf, State.setList, State.linkVma, Pi.sub_apply] at htally ⊢
    split at hone
    next e =>
      rw [if_pos e] at htally
      omega
    next e =>
      rw [if_neg e] at htally
      omega

/-! ## `attachObject` -/

/-- The file's `mmap` operation gives the file's object, and someone has the file open. -/
structure Opened (held : Nat → Int) (s : State) (vn o : Nat) : Prop where
  mmap : (s.vnodes vn).vn_mmap = some (.ok o)
  file : ∃ ob, s.objs o = some ob ∧ ob.isFile = true
  user : 0 < held o

/-- What `attachObject` leaves: the object of the new area with its reference,
and the area on the list of the bottom object. -/
structure Attached (C : Config) (held : Nat → Int) (s : State) (area : VmArea) (t : State) (o b : Nat) : Prop where
  backing : Backing C (held + holding o) t
  suits : Suits t area o
  bottom : t.bottomOf o = some b
  spaces : t.spaces = s.spaces
  objs : ∀ x ob, s.objs x = some ob → t.objs x = some ob
  nobjs : s.nobjs ≤ t.nobjs

theorem Backing.counted_pos (h : Backing C held s) (ho : s.objs o = some ob) (hpos : 0 < held o) :
    0 < s.mmo_refcount o := by
  have := h.counted o ob ho
  omega

theorem vn_mmap_total {vn : Nat} (h : Backing C held s) (hf : Opened held s vn o) :
    vn_mmap s vn = some (s.setRefcount o (s.mmo_refcount o + 1), some o) := by
  obtain ⟨ob, hob, -⟩ := hf.file
  have href := mmobj_ref_total hob (h.counted_pos hob hf.user)
  simp [vn_mmap, hf.mmap, href]

/-- A private area gets a shadow object over the object it holds a reference to. -/
theorem Backing.shadowed {area : VmArea} (h : Backing C (held + holding b) s) (hb : s.bottomOf b = some b)
    (h0 : held s.nobjs = 0) (hflags : area.vma_flags.shared = false) :
    Attached C held s area (s.newObj ⟨.shadow, some b, some b⟩) s.nobjs b := by
  have hob : Fits s ⟨.shadow, some b, some b⟩ := .shadow hb
  have hlt : b < s.nobjs := by
    obtain ⟨ob, ho⟩ := Chains.of_bottom hb
    exact h.chains.known b ob ho
  have h0' : (held + holding b) s.nobjs = 0 := by
    simp only [Pi.add_apply, holding, if_neg hlt.ne', h0, add_zero]
  have h' := h.newObj hob h0'
  refine ⟨?_, ⟨_, newObj_self, by simp [hflags]⟩, hob.bottom_new, rfl, fun x ob hx => h.chains.old hx, Nat.le_succ _⟩
  have e : held + holding b + holding s.nobjs - Mmobj.takes ⟨.shadow, some b, some b⟩ = held + holding s.nobjs := by
    show held + holding b + holding s.nobjs - holding b = _
    abel
  rw [← e]
  exact h'

theorem attachObject_total {file : Option Nat} {flags : MapFlags} (area : VmArea) (h : Backing C held s)
    (h0 : ∀ o, s.nobjs ≤ o → held o = 0) (hflags : area.vma_flags = flags) (hboth : flags.shared = !flags.priv)
    (hfile : ∀ vn, file = some vn → ∃ o, Opened held s vn o) (hshared : flags.priv = false → file ≠ none) :
    ∃ t o b, attachObject s file flags area = some (t.linkVma b area.vma_id, area.withObj (some o)) ∧
      Attached C held s area t o b := by
  subst hflags
  have hroot : ∀ vn o, Opened held s vn o → s.bottomOf o = some o := fun vn o hf => by
    obtain ⟨ob, hob, hfile⟩ := hf.file
    exact h.chains.bottom_root hob fun e => by simp [Mmobj.isFile, e] at hfile
  unfold attachObject
  cases hp : area.vma_flags.priv with
  | false =>
    cases file with
    | none => exact absurd rfl (hshared hp)
    | some vn =>
      obtain ⟨o, hf⟩ := hfile vn rfl
      refine ⟨s.setRefcount o (s.mmo_refcount o + 1), o, o, ?_, h.ref o, ?_, hroot vn o hf, rfl, fun _ _ hx => hx, le_rfl⟩
      · simp [vn_mmap_total h hf]
      · obtain ⟨ob, hob, hisfile⟩ := hf.file
        exact ⟨ob, hob, by simp [hboth, hp, hisfile]⟩
  | true =>
    have hpriv : area.vma_flags.shared = false := by rw [hboth, hp]; rfl
    cases file with
    | none =>
      have hb : Fits s ⟨.anon, none, none⟩ := .anon
      have h1 : Backing C (held + holding s.nobjs) (s.newObj ⟨.anon, none, none⟩) := by
        have := h.newObj hb (h0 _ le_rfl)
        rwa [show Mmobj.takes ⟨.anon, none, none⟩ = 0 from rfl, sub_zero] at this
      refine ⟨_, _, _, rfl, ?_⟩
      have hat := h1.shadowed hb.bottom_new (h0 _ (Nat.le_succ _)) hpriv
      exact ⟨hat.backing, hat.suits, hat.bottom, hat.spaces, fun x ob hx => hat.objs x ob (h.chains.old hx),
        (Nat.le_succ _).trans hat.nobjs⟩
    | some vn =>
      obtain ⟨o, hf⟩ := hfile vn rfl
      refine ⟨_, _, _, by simp [vn_mmap_total h hf]; exact ⟨rfl, rfl⟩, ?_⟩
      have hat := (h.ref o).shadowed (hroot vn o hf) (h0 _ le_rfl) hpriv
      exact ⟨hat.backing, hat.suits, hat.bottom, hat.spaces, hat.objs, hat.nobjs⟩

end Weenix.Vm
