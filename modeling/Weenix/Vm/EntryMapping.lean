import Weenix.Vm.EntryFaults
/-!
# Entries across new areas

A new area gets an object of its own, or a file's object, in a range without
entries. What the other areas read stays.
-/

namespace Weenix.Vm

open Lib Lib.Intervals

variable {C : Config} {E : Env} {R : FrameRel} {s s' t : State} {o b m p v pn id : Nat} {a c : VmArea} {pf : Pframe}
  {pte : Pte} {pr : Proc} {ob : Mmobj} {held held' : Nat → Int}

/-! ## More objects -/

/-- The objects of a chain exist. -/
theorem Chains.reaches_obj (hc : Chains s) (ho : s.objs o = some ob) {y : Nat} (hy : Layers.Reaches s.parent o y) :
    ∃ ob', s.objs y = some ob' := by
  obtain ⟨b, hb⟩ := hc.bottom ho
  exact Chains.of_bottom ((hc.reaches hy).trans hb)

theorem parent_old (h : ∀ x ob, s.objs x = some ob → s'.objs x = some ob) {y : Nat} (hy : s.objs y = some ob) :
    s'.parent y = s.parent y := by
  simp [State.parent, hy, h y ob hy]

/-- New objects are no concern of the entries. -/
theorem Entries.more (hR : OnChain R) (hE : Entries R s) (hH : Hung s) (hc : Chains s) (hc' : Chains s')
    (hobjs : ∀ x ob, s.objs x = some ob → s'.objs x = some ob) (hframes : s'.pframes = s.pframes) (hpd : NoNewMapping s s')
    (hstay : ∀ p v pte pr a o pf, s'.p_pagedir p v = some pte → Entry R s p v pte pr a o pf →
      ∃ pr' a', s'.procs p = some pr' ∧ a' ∈ s'.vmm_list pr'.p_vmmap ∧ a'.Has v ∧ a'.vma_obj = some o ∧
        a'.pagenum v = a.pagenum v) : Entries R s' := by
  refine hE.keep hR hc hc' hpd fun p v pte pr a o pf hpte he => ⟨hstay p v pte pr a o pf hpte he, fun y hy => ?_⟩
  obtain ⟨ob, hob, -⟩ := hH.areas _ a he.area o he.obj
  obtain ⟨oby, hy⟩ := hc.reaches_obj hob hy
  exact ⟨parent_old hobjs hy, .inl (by simp [State.frame?, hframes])⟩

/-! ## The object of a new area -/

theorem vn_mmap_cases {vn : Nat} {r : Option Nat} (h : vn_mmap s vn = some (s', r)) :
    (∃ e, (s.vnodes vn).vn_mmap = some (.error e) ∧ r = none ∧ s' = s) ∨
      ∃ o, (s.vnodes vn).vn_mmap = some (.ok o) ∧ r = some o ∧ s' = s.setRefcount o (s.mmo_refcount o + 1) := by
  simp only [vn_mmap, bind] at h
  split at h
  · cases h
  next e he =>
    cases h
    exact .inl ⟨e, he, rfl, rfl⟩
  next o ho =>
    simp only [Option.bind_eq_some_iff, Option.some.injEq, Prod.mk.injEq] at h
    obtain ⟨s₁, hr, rfl, rfl⟩ := h
    exact .inr ⟨o, ho, rfl, (mmobj_ref_cases hr).2⟩

/-- What `attachObject` gives an area: a file's object, or a new shadow object
over a new anonymous object or over a file's. -/
inductive AttachEffect (s : State) (area : VmArea) : Option Nat → MapFlags → State → VmArea → Prop
  | shared {vn o flags} : flags.priv = false → (s.vnodes vn).vn_mmap = some (.ok o) →
      AttachEffect s area (some vn) flags ((s.setRefcount o (s.mmo_refcount o + 1)).linkVma o area.vma_id)
        (area.withObj (some o))
  | unset {flags} : flags.priv = false → AttachEffect s area none flags s area
  | anon {flags} : flags.priv = true → AttachEffect s area none flags
      (((s.newObj ⟨.anon, .none, .none⟩).newObj ⟨.shadow, some s.nobjs, some s.nobjs⟩).linkVma s.nobjs area.vma_id)
      (area.withObj (some (s.nobjs + 1)))
  | file {vn b flags} : flags.priv = true → (s.vnodes vn).vn_mmap = some (.ok b) →
      AttachEffect s area (some vn) flags
        (((s.setRefcount b (s.mmo_refcount b + 1)).newObj ⟨.shadow, some b, some b⟩).linkVma b area.vma_id)
        (area.withObj (some s.nobjs))

theorem attachObject_effect {file : Option Nat} {flags : MapFlags} {area area' : VmArea}
    (h : attachObject s file flags area = some (s', area')) : AttachEffect s area file flags s' area' := by
  simp only [attachObject, bind] at h
  split at h
  next hp =>
    have hp : flags.priv = false := by simpa using hp
    cases file with
    | none =>
      cases h
      exact .unset hp
    | some vn =>
      simp only [Option.bind_eq_some_iff, Option.some.injEq, Prod.mk.injEq, Prod.exists] at h
      obtain ⟨s₁, r, h1, o, hr, rfl, rfl⟩ := h
      rcases vn_mmap_cases h1 with ⟨e, -, rfl, -⟩ | ⟨o', ho', rfl, rfl⟩
      · cases hr
      · cases hr
        exact .shared hp ho'
  next hp =>
    have hp : flags.priv = true := by simpa using hp
    cases file with
    | none =>
      cases h
      exact .anon hp
    | some vn =>
      simp only [Option.bind_eq_some_iff, Option.some.injEq, Prod.mk.injEq, Prod.exists] at h
      obtain ⟨s₁, r, h1, b, hr, rfl, rfl⟩ := h
      rcases vn_mmap_cases h1 with ⟨e, -, rfl, -⟩ | ⟨o', ho', rfl, rfl⟩
      · cases hr
      · cases hr
        exact .file hp ho'

/-- What no operation on new areas does: take objects away, or put a shadow object on another. -/
structure MoreObjs (s s' : State) : Prop where
  old : ∀ o ob, s.objs o = some ob → s'.objs o = some ob
  parent : ∀ y z, s'.parent y = some z → s.parent y = some z ∨ ∀ ob, s'.objs z = some ob → ob.mmo_ops ≠ .shadow

theorem MoreObjs.same (h : s'.objs = s.objs) : MoreObjs s s' :=
  ⟨fun o ob ho => by rw [h]; exact ho, fun y z hy => .inl (by rw [← parent_congr h]; exact hy)⟩

theorem newObj_parent (s : State) (ob : Mmobj) (y : Nat) :
    (s.newObj ob).parent y = if y = s.nobjs then ob.mmo_shadowed else s.parent y := by
  unfold State.parent State.newObj
  by_cases e : y = s.nobjs
  · simp [e]
  · simp [e]

/-- Files that can be mapped have objects. -/
def FileObjs (s : State) : Prop :=
  ∀ vn o, (s.vnodes vn).vn_mmap = some (.ok o) → ∃ ob, s.objs o = some ob ∧ ob.isFile = true

/-- The object of a new private area is new. -/
theorem AttachEffect.objs {area area' : VmArea} {file : Option Nat} {flags : MapFlags}
    (h : AttachEffect s area file flags s' area') (hc : Chains s) (hfile : FileObjs s) :
    MoreObjs s s' ∧ s'.p_pagedir = s.p_pagedir ∧ s'.pframes = s.pframes ∧
      ∀ o, area'.vma_obj = some o → flags.priv = true → s.objs o = none := by
  have hnew {x : Nat} (hx : s.nobjs ≤ x) : s.objs x = none := by
    cases hob : s.objs x with
    | none => rfl
    | some ob =>
      have := hc.known x ob hob
      omega
  cases h with
  | shared hp => exact ⟨.same rfl, rfl, rfl, fun _ _ h => by rw [hp] at h; cases h⟩
  | unset hp => exact ⟨.same rfl, rfl, rfl, fun _ _ h => by rw [hp] at h; cases h⟩
  | anon =>
    have h1 : Fits s ⟨.anon, .none, .none⟩ := .anon
    have hc1 := hc.newObj h1
    refine ⟨⟨fun o ob ho => hc1.old (hc.old ho), fun y z hy => ?_⟩, rfl, rfl, fun o ho _ => ?_⟩
    · have hy : ((s.newObj ⟨.anon, .none, .none⟩).newObj ⟨.shadow, some s.nobjs, some s.nobjs⟩).parent y = some z := hy
      rw [newObj_parent, newObj_parent] at hy
      split at hy
      · cases hy
        refine .inr fun ob hob => ?_
        have hob : ((s.newObj ⟨.anon, .none, .none⟩).newObj ⟨.shadow, some s.nobjs, some s.nobjs⟩).objs s.nobjs = some ob := hob
        rw [hc1.old newObj_self] at hob
        cases hob
        simp
      · split at hy
        · cases hy
        · exact .inl hy
    · cases ho
      exact hnew (Nat.le_succ _)
  | @file vn b _ _ hvn =>
    obtain ⟨ob, hob, hisfile⟩ := hfile vn b hvn
    have hc1 : Chains (s.setRefcount b (s.mmo_refcount b + 1)) := hc.congr rfl rfl
    refine ⟨⟨fun o ob ho => hc1.old ho, fun y z hy => ?_⟩, rfl, rfl, fun o ho _ => ?_⟩
    · have hy : ((s.setRefcount b (s.mmo_refcount b + 1)).newObj ⟨.shadow, some b, some b⟩).parent y = some z := hy
      rw [newObj_parent] at hy
      split at hy
      · cases hy
        refine .inr fun ob' hob' e => ?_
        have hob'' : ((s.setRefcount b (s.mmo_refcount b + 1)).newObj ⟨.shadow, some b, some b⟩).objs b = some ob' := hob'
        rw [hc1.old hob] at hob''
        cases hob''
        simp [Mmobj.isFile, e] at hisfile
      · exact .inl hy
    · cases ho
      exact hnew le_rfl

theorem AttachEffect.spaces {area area' : VmArea} {file : Option Nat} {flags : MapFlags}
    (h : AttachEffect s area file flags s' area') : s'.spaces = s.spaces := by
  cases h <;> simp only [State.linkVma_spaces, State.setRefcount_spaces, State.newObj_spaces]

theorem AttachEffect.flags {area area' : VmArea} {file : Option Nat} {flags : MapFlags}
    (h : AttachEffect s area file flags s' area') : area'.vma_flags = area.vma_flags := by
  cases h <;> rfl

/-- The references after `attachObject`, unless it gives the area no object. -/
theorem AttachEffect.attached {area area' : VmArea} {file : Option Nat} (h : AttachEffect s area file area.vma_flags s' area')
    (hB : Backing C held s) (h0 : ∀ o, s.nobjs ≤ o → held o = 0) (hkind : area.vma_flags.shared = !area.vma_flags.priv)
    (hfile : FileObjs s) :
    (s' = s ∧ area' = area) ∨ ∃ t o b, s' = t.linkVma b area.vma_id ∧ area' = area.withObj (some o) ∧ Attached C held s area t o b := by
  have hroot {vn o : Nat} (hvn : (s.vnodes vn).vn_mmap = some (.ok o)) : s.bottomOf o = some o := by
    obtain ⟨ob, hob, hisfile⟩ := hfile vn o hvn
    exact hB.chains.bottom_root hob fun e => by simp [Mmobj.isFile, e] at hisfile
  cases h with
  | unset => exact .inl ⟨rfl, rfl⟩
  | @shared vn o _ hp hvn =>
    obtain ⟨ob, hob, hisfile⟩ := hfile vn o hvn
    refine .inr ⟨_, o, o, rfl, rfl, hB.ref o, ⟨ob, hob, ?_⟩, hroot hvn, rfl, fun _ _ hx => hx, le_rfl⟩
    simp [hkind, hp, hisfile]
  | anon hp =>
    have hfit : Fits s ⟨.anon, .none, .none⟩ := .anon
    have h1 : Backing C (held + holding s.nobjs) (s.newObj ⟨.anon, .none, .none⟩) := by
      have := hB.newObj hfit (h0 _ le_rfl)
      rwa [show Mmobj.takes ⟨.anon, .none, .none⟩ = 0 from rfl, sub_zero] at this
    have hshared : area.vma_flags.shared = false := by rw [hkind, hp]; rfl
    have hat := h1.shadowed hfit.bottom_new (h0 _ (Nat.le_succ _)) hshared
    exact .inr ⟨_, _, _, rfl, rfl, hat.backing, hat.suits, hat.bottom, hat.spaces,
      fun x ob hx => hat.objs x ob (hB.chains.old hx), (Nat.le_succ _).trans hat.nobjs⟩
  | @file vn b _ hp hvn =>
    have hshared : area.vma_flags.shared = false := by rw [hkind, hp]; rfl
    have hat := (hB.ref b).shadowed (hroot hvn) (h0 _ le_rfl) hshared
    exact .inr ⟨_, _, _, rfl, rfl, hat.backing, hat.suits, hat.bottom, hat.spaces, hat.objs, hat.nobjs⟩

/-! ## Inserting the area -/

theorem Apart.insert {x : VmArea} (hA : Apart s) (h : Hung s) (hc : Chains s) (h' : Hung s') (hobjs : MoreObjs s s')
    (hmem : ∀ k c, c ∈ s'.vmm_list k → c ∈ s.vmm_list k ∨ (k = m ∧ c = x)) (hx : x ∈ s'.vmm_list m)
    (hnew : ∀ o, x.vma_obj = some o → x.vma_flags.shared = false → s.objs o = none) : Apart s' := by
  have hshadow {k : Nat} {a : VmArea} (ha : a ∈ s.vmm_list k) (hs : a.vma_flags.shared = false) {y : Nat} (hy : a.vma_obj = some y) :
      ∃ ob, s.objs y = some ob ∧ ob.mmo_ops = .shadow := by
    obtain ⟨ob, hob, hsuits⟩ := h.areas k a ha y hy
    exact ⟨ob, hob, by simpa [hs] using hsuits⟩
  constructor
  case leaf =>
    intro k a ha hs y hy z hz
    rcases hmem k a ha with ha | ⟨rfl, rfl⟩
    · obtain ⟨ob, hob, hops⟩ := hshadow ha hs hy
      rcases hobjs.parent z y hz with hz | hz
      · exact hA.leaf k a ha hs y hy z hz
      · exact hz ob (hobjs.old y ob hob) hops
    · obtain ⟨obx, hobx, hsuits⟩ := h'.areas k a hx y hy
      have hops : obx.mmo_ops = .shadow := by simpa [hs] using hsuits
      rcases hobjs.parent z y hz with hz | hz
      · -- what is shadowed exists
        unfold State.parent at hz
        obtain ⟨ob, hob, hbelow⟩ := Option.bind_eq_some_iff.1 hz
        obtain ⟨ob', hob'⟩ := hc.reaches_obj hob (.single (show s.parent z = some y by simp [State.parent, hob, hbelow]))
        rw [hnew y hy hs] at hob'
        cases hob'
      · exact hz obx hobx hops
  case once =>
    intro k a ha hs y hy k' c hcm hcy
    rcases hmem k a ha with ha | ⟨rfl, rfl⟩
    · obtain ⟨ob, hob, hops⟩ := hshadow ha hs hy
      rcases hmem k' c hcm with hcm | ⟨rfl, rfl⟩
      · exact hA.once k a ha hs y hy k' c hcm hcy
      · cases hxs : c.vma_flags.shared with
        | false =>
          rw [hnew y hcy hxs] at hob
          cases hob
        | true =>
          obtain ⟨obx, hobx, hsuits⟩ := h'.areas k' c hx y hcy
          rw [hobjs.old y ob hob] at hobx
          cases hobx
          simp [hxs, Mmobj.isFile, hops] at hsuits
    · rcases hmem k' c hcm with hcm | ⟨rfl, rfl⟩
      · obtain ⟨ob, hob, -⟩ := h.areas k' c hcm y hcy
        rw [hnew y hy hs] at hob
        cases hob
      · exact ⟨rfl, rfl⟩

/-- An area without an object comes into a map. -/
theorem Backing.insert_unset {x : VmArea} (h : Backing C held s) (hm : m < s.nmaps)
    (hx : x.vma_start < x.vma_end ∧ C.low ≤ x.vma_start ∧ x.vma_end ≤ C.high)
    (hfree : RangeFree (s.vmm_list m) x.vma_start x.vma_end) (hid : x.vma_id < s.nareas)
    (hnew : ∀ m', ∀ a ∈ s.vmm_list m', a.vma_id ≠ x.vma_id) (ho : x.vma_obj = none) :
    Backing C held (s.setList m (insertArea m x (s.vmm_list m))) := by
  refine ⟨h.layout.insertArea hm hx hfree hnew hid, h.chains.congr rfl rfl, h.frames.congr rfl rfl rfl rfl rfl rfl, h.idle,
    ?_, ?_, h.num⟩
  · refine h.hung.setList (insertArea m x (s.vmm_list m)) rfl rfl (fun c hc o' ho' => ?_) (fun _ _ _ _ _ hid => hid) h.hung.once
      fun b id hid => ?_
    · rcases mem_insertArea.1 hc with rfl | hc
      · rw [show ({ x with vma_vmmap := some m } : VmArea).vma_obj = none from ho] at ho'
        cases ho'
      · exact ⟨h.hung.areas m c hc o' ho', h.hung.linked m c hc o' ho'⟩
    · rcases h.hung.listed_at h.layout m hid with ⟨d, hd, h'⟩ | hout
      · exact .inl ⟨d, mem_insertArea.2 (.inr hd), h'⟩
      · exact .inr ⟨hid, hout⟩
  · refine h.counted.step fun y ob hy => ⟨hy, ?_⟩
    have htally := Tally.update (f := s.vmm_list) (p := fun a : VmArea => decide (a.vma_obj = some y))
      (insertArea m x (s.vmm_list m)) hm
    have hperm : (insertArea m x (s.vmm_list m)).countP (fun a => decide (a.vma_obj = some y)) =
        (s.vmm_list m).countP (fun a => decide (a.vma_obj = some y)) := by
      rw [insertArea, (Intervals.insertBefore_perm _).countP_eq, List.countP_cons]
      simp [ho]
    rw [hperm] at htally
    simp only [State.refsTo, State.areasOf, State.shadowsOf, State.setList] at htally ⊢
    omega

/-- The new area with what it got from `attachObject` comes into a map. -/
theorem Backing.attach (h : Backing C held s) (hm : m < s.nmaps) (h0 : ∀ o, s.nobjs ≤ o → held o = 0) (hfile : FileObjs s)
    {area area' : VmArea} {file : Option Nat} (hkind : area.vma_flags.shared = !area.vma_flags.priv) (hnone : area.vma_obj = none)
    (hx : area.vma_start < area.vma_end ∧ C.low ≤ area.vma_start ∧ area.vma_end ≤ C.high)
    (hfree : RangeFree (s.vmm_list m) area.vma_start area.vma_end) (hid : area.vma_id < s.nareas)
    (hnew : ∀ m', ∀ a ∈ s.vmm_list m', a.vma_id ≠ area.vma_id) (hat : AttachEffect s area file area.vma_flags t area') :
    Backing C held (t.setList m (insertArea m area' (t.vmm_list m))) := by
  rcases hat.attached h h0 hkind hfile with ⟨rfl, rfl⟩ | ⟨t', o, b, rfl, rfl, hA⟩
  · exact h.insert_unset hm hx hfree hid hnew hnone
  · have hl' : t'.vmm_list = s.vmm_list := congrArg Spaces.vmm_list hA.spaces
    have hn' : t'.nareas = s.nareas := congrArg Spaces.nareas hA.spaces
    have hm' : t'.nmaps = s.nmaps := congrArg Spaces.nmaps hA.spaces
    have := hA.backing.insert (x := area.withObj (some o)) (m := m) (by omega) hx (by rw [hl']; exact hfree)
      (by rw [hn']; exact hid) (by rw [hl']; exact hnew) rfl hA.suits hA.bottom
    rw [add_sub_cancel_right] at this
    exact this

/-! ## `vmmap_map` -/

/-- The new area with what it got from `attachObject` keeps everything right. -/
theorem Tied.attach (hR : OnChain R) (h : Tied R C held p pr s) (h0 : ∀ o, s.nobjs ≤ o → held o = 0) (hfile : FileObjs s)
    {area area' : VmArea} {file : Option Nat} (hkind : area.vma_flags.shared = !area.vma_flags.priv) (hnone : area.vma_obj = none)
    (hx : area.vma_start < area.vma_end ∧ C.low ≤ area.vma_start ∧ area.vma_end ≤ C.high)
    (hfree : RangeFree (s.vmm_list pr.p_vmmap) area.vma_start area.vma_end) (hid : area.vma_id < s.nareas)
    (hnew : ∀ m', ∀ a ∈ s.vmm_list m', a.vma_id ≠ area.vma_id) (hat : AttachEffect s area file area.vma_flags t area') :
    Tied R C held p pr (t.setList pr.p_vmmap (insertArea pr.p_vmmap area' (t.vmm_list pr.p_vmmap))) ∧ MoreObjs s t := by
  have hm : pr.p_vmmap < s.nmaps := (h.owned.live p pr h.proc).2
  obtain ⟨hmore, hpd, hframes, hfresh⟩ := hat.objs h.backing.chains hfile
  have hsp := hat.spaces
  have hlists : t.vmm_list = s.vmm_list := congrArg Spaces.vmm_list hsp
  have hprocs : t.procs = s.procs := congrArg Spaces.procs hsp
  have hB := h.backing.attach hm h0 hfile hkind hnone hx hfree hid hnew hat
  have hmem (k : Nat) (c : VmArea) : c ∈ (t.setList pr.p_vmmap (insertArea pr.p_vmmap area' (t.vmm_list pr.p_vmmap))).vmm_list k ↔
      c ∈ s.vmm_list k ∨ (k = pr.p_vmmap ∧ c = { area' with vma_vmmap := some pr.p_vmmap }) := by
    unfold State.setList
    by_cases e : k = pr.p_vmmap
    · subst e
      simp only [Function.update_self, mem_insertArea, hlists]
      tauto
    · simp only [Function.update_of_ne e, hlists]
      tauto
  refine ⟨⟨⟨hB, h.owned.withList (l := insertArea pr.p_vmmap area' (t.vmm_list pr.p_vmmap)) (n := s.nareas) h.proc ?_, ?_, ?_⟩,
    (congrFun hprocs p).trans h.proc⟩, hmore⟩
  · rw [State.setList_spaces, hsp, Spaces.withList, hlists]
    rfl
  · refine h.apart.insert h.backing.hung h.backing.chains hB.hung ⟨hmore.old, hmore.parent⟩ (fun k c hc => (hmem k c).1 hc)
      ((hmem _ _).2 (.inr ⟨rfl, rfl⟩)) fun o ho hs => hfresh o ho ?_
    have hs' : area'.vma_flags.shared = false := hs
    rw [hat.flags, hkind] at hs'
    simpa using hs'
  · refine h.entries.more hR h.backing.hung h.backing.chains hB.chains hmore.old hframes (.of_eq hpd)
      fun q v pte pr' a o pf _ he => ⟨pr', a, (congrFun hprocs q).trans he.proc, (hmem _ _).2 (.inl he.area), he.has, he.obj, rfl⟩

/-- `vmmap_map` keeps the entries right. -/
theorem Tied.vmmap_map (hR : OnChain R) (h : Tied R C held p pr s) (hheld : ∀ o, 0 ≤ held o) (h0 : ∀ o, s.nobjs ≤ o → held o = 0)
    (hfile : FileObjs s) {file : Option Nat} {lopage npages off : Nat} {prot : Prot} {flags : MapFlags} {dir : Dir}
    {r : Except Errno Nat} (hkind : flags.shared = !flags.priv) (hn : npages ≤ 2 ^ 20)
    (hmap : Vm.vmmap_map C s p pr.p_vmmap file lopage npages prot flags off dir = some (s', r)) :
    Tied R C held p pr s' ∧ ∀ o ob, s.objs o = some ob → s'.objs o = some ob := by
  have hL := h.backing.layout
  have hC := C.high_lt
  have h₀ : Tied R C held p pr s.vmarea_alloc := by
    exact ⟨⟨h.backing.vmarea_alloc, h.owned.keep rfl rfl rfl rfl fun _ hm => .inl hm, h.apart.same rfl rfl,
      h.entries.unmap hR h.backing.chains (.of_eq rfl) rfl rfl rfl rfl rfl⟩, h.proc⟩
  obtain ⟨⟨hpos, -⟩, heff⟩ := vmmap_map_effect hL hn hmap
  cases heff with
  | noroom => exact ⟨h₀, fun _ _ ho => ho⟩
  | @mapped start s₁ s₂ area hfrom hL₁ hroom _ hat =>
    have h₁ : Tied R C held p pr s₁ ∧ s₁.objs = s.objs ∧ s₁.nobjs = s.nobjs ∧ s₁.vnodes = s.vnodes := by
      rcases hfrom with rfl | ⟨hlt, hr⟩
      · exact ⟨h₀, rfl, rfl, rfl⟩
      · obtain ⟨e1, e2⟩ := vmmap_remove_objs h₀.backing hheld hlt hr
        exact ⟨h₀.remove hR hheld hlt hr, e1, e2, (congrArg Spaces.vnodes (vmmap_remove_list hlt h₀.backing.layout hr) :)⟩
    obtain ⟨h₁, hobjs, hnobjs, hvn⟩ := h₁
    obtain ⟨hid, -, hnew⟩ := newArea_fresh hL hfrom
    have hlow := hroom.low
    have hhigh := hroom.high
    have hfile₁ : FileObjs s₁ := by
      unfold FileObjs
      rw [hvn, hobjs]
      exact hfile
    have hkind₁ : (newArea s.nareas start npages off prot flags).vma_flags.shared =
        !(newArea s.nareas start npages off prot flags).vma_flags.priv := hkind
    obtain ⟨h₂, hmore⟩ := h₁.attach hR (by rw [hnobjs]; exact h0) hfile₁ hkind₁ rfl
      ⟨by simp only [newArea]; omega, hlow, hhigh⟩ hroom.free hid hnew (attachObject_effect hat)
    exact ⟨h₂, fun o ob ho => hmore.old o ob (by rw [hobjs]; exact ho)⟩

end Weenix.Vm
