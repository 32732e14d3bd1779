import Weenix.Vm.EntryMapping
/-!
# Entries across `fork`

A turn of the loop of `do_fork` on a private area puts new shadow objects on
its object and unmaps its pages. Until the loop ends, the other parts of a
split area still have that object: `Parting` is what every turn keeps.
-/

namespace Weenix.Vm

open Lib Lib.Intervals

variable {C : Config} {R : FrameRel} {s s' t : State} {o b m m' p q v k : Nat} {a c d : VmArea} {l l' : List VmArea}
  {pf : Pframe} {pte : Pte} {pr : Proc} {ob : Mmobj} {held : Nat → Int}

/-! ## One turn -/

theorem modArea_cases {id : Nat} {f : VmArea → VmArea} (h : d ∈ (s.modArea m id f).vmm_list k) :
    (d ∈ s.vmm_list k ∧ (k = m → d.vma_id ≠ id)) ∨ (k = m ∧ ∃ d₀ ∈ s.vmm_list m, d₀.vma_id = id ∧ d = f d₀) := by
  unfold State.modArea State.setList at h
  by_cases e : k = m
  · subst e
    simp only [Function.update_self, List.mem_map] at h
    obtain ⟨d₀, hd₀, rfl⟩ := h
    by_cases e : d₀.vma_id = id
    · rw [if_pos e]
      exact .inr ⟨rfl, d₀, hd₀, e, rfl⟩
    · rw [if_neg e]
      exact .inl ⟨hd₀, fun _ => e⟩
  · simp only [Function.update_of_ne e] at h
    exact .inl ⟨h, fun h => absurd h e⟩

/-- What a turn does to the area `a` of map `m` and its copy `c` in map `m'`. -/
inductive ForkEffect (s : State) (p m m' : Nat) (a c : VmArea) : State → Prop
  | shared {o : Nat} : a.vma_obj = some o → a.vma_flags.shared = true →
      ForkEffect s p m m' a c (((s.modArea m' c.vma_id (VmArea.withObj (some o))).setRefcount o
        (s.mmo_refcount o + 1)).linkVma o c.vma_id)
  | priv {o b : Nat} {s₁ : State} : a.vma_obj = some o → a.vma_flags.shared = false → s₁.vmm_list = s.vmm_list →
      s₁.objs = (s.shadowTwice o b).objs → s₁.p_pagedir = s.p_pagedir → s₁.pframes = s.pframes → s₁.procs = s.procs →
      s₁.mem = s.mem → s₁.disk = s.disk → s₁.pf_dirty = s.pf_dirty →
      ForkEffect s p m m' a c (((s₁.modArea m' c.vma_id (VmArea.withObj (some (s.nobjs + 1)))).modArea m a.vma_id
        (VmArea.withObj (some s.nobjs))).pt_unmap_range p a.vma_start a.vma_end)

theorem newObj_same (s : State) (ob : Mmobj) : (s.newObj ob).vmm_list = s.vmm_list ∧ (s.newObj ob).p_pagedir = s.p_pagedir ∧
    (s.newObj ob).pframes = s.pframes ∧ (s.newObj ob).procs = s.procs ∧ (s.newObj ob).mem = s.mem ∧ (s.newObj ob).disk = s.disk ∧
    (s.newObj ob).pf_dirty = s.pf_dirty :=
  ⟨rfl, rfl, rfl, rfl, rfl, rfl, rfl⟩

theorem shadowTwice_same (s : State) (o b : Nat) : (s.shadowTwice o b).vmm_list = s.vmm_list ∧
    (s.shadowTwice o b).p_pagedir = s.p_pagedir ∧ (s.shadowTwice o b).pframes = s.pframes ∧ (s.shadowTwice o b).procs = s.procs ∧
    (s.shadowTwice o b).mem = s.mem ∧ (s.shadowTwice o b).disk = s.disk ∧ (s.shadowTwice o b).pf_dirty = s.pf_dirty := by
  obtain ⟨e1, e2, e3, e4, e5, e6, e7⟩ := newObj_same s ⟨.shadow, some o, some b⟩
  obtain ⟨d1, d2, d3, d4, d5, d6, d7⟩ := newObj_same (s.newObj ⟨.shadow, some o, some b⟩) ⟨.shadow, some o, some b⟩
  exact ⟨d1.trans e1, d2.trans e2, d3.trans e3, d4.trans e4, d5.trans e5, d6.trans e6, d7.trans e7⟩

theorem fork_area_effect (h : fork_area s p m m' a c = some s') : ForkEffect s p m m' a c s' := by
  simp only [fork_area, bind, Option.bind_eq_some_iff] at h
  obtain ⟨o, ho, h⟩ := h
  cases hs : a.vma_flags.shared with
  | true =>
    rw [hs, Bool.not_true, if_neg (by simp)] at h
    simp only [Option.bind_eq_some_iff, Option.some.injEq] at h
    obtain ⟨s₁, hr, rfl⟩ := h
    obtain ⟨-, rfl⟩ := mmobj_ref_cases hr
    exact .shared ho hs
  | false =>
    rw [hs, Bool.not_false, if_pos rfl] at h
    simp only [Option.bind_eq_some_iff, Option.some.injEq] at h
    obtain ⟨ob, -, b, -, s₁, hr, rfl⟩ := h
    obtain ⟨-, rfl⟩ := mmobj_ref_cases hr
    obtain ⟨e1, e2, e3, e4, e5, e6, e7⟩ := shadowTwice_same s o b
    exact .priv ho hs e1 rfl e2 e3 e4 e5 e6 e7

theorem shadowTwice_parent (s : State) (o b y : Nat) :
    (s.shadowTwice o b).parent y = if y = s.nobjs + 1 then some o else if y = s.nobjs then some o else s.parent y := by
  unfold State.shadowTwice
  rw [newObj_parent, newObj_parent]
  rfl

/-- Of the areas only `a` and `c` change, and get the objects given. -/
theorem ForkEffect.areas (h : ForkEffect s p m m' a c s') (hL : Layout C s) (ha : a ∈ s.vmm_list m) (hc : c ∈ s.vmm_list m')
    (hm : m ≠ m') (hd : d ∈ s'.vmm_list k) :
    (d ∈ s.vmm_list k ∧ (k = m → d = a → a.vma_flags.shared = true) ∧ (k = m' → d ≠ c)) ∨
    (k = m ∧ a.vma_flags.shared = false ∧ d = a.withObj (some s.nobjs)) ∨
    (k = m' ∧ a.vma_flags.shared = false ∧ d = c.withObj (some (s.nobjs + 1))) ∨
    (k = m' ∧ a.vma_flags.shared = true ∧ d = c.withObj a.vma_obj) := by
  have heq {k : Nat} {x y : VmArea} (hx : x ∈ s.vmm_list k) (hy : y ∈ s.vmm_list k) (e : x.vma_id = y.vma_id) : x = y :=
    List.inj_on_of_nodup_map (hL.ids k) hx hy e
  cases h with
  | @shared o ho hs =>
    rcases modArea_cases (s := s) hd with ⟨hd, hne⟩ | ⟨rfl, d₀, hd₀, e, rfl⟩
    · exact .inl ⟨hd, fun _ _ => hs, fun e e' => hne e (by rw [e'])⟩
    · rw [heq hd₀ hc e, ← ho]
      exact .inr (.inr (.inr ⟨rfl, hs, rfl⟩))
  | @priv o b s₁ ho hs hl =>
    rcases modArea_cases (s := s₁.modArea m' c.vma_id (VmArea.withObj (some (s.nobjs + 1)))) hd with
      ⟨hd, hne⟩ | ⟨rfl, d₀, hd₀, e, rfl⟩
    · rcases modArea_cases hd with ⟨hd, hne'⟩ | ⟨rfl, d₀, hd₀, e, rfl⟩
      · rw [hl] at hd
        exact .inl ⟨hd, fun e e' => absurd (by rw [e']) (hne e), fun e e' => hne' e (by rw [e'])⟩
      · rw [hl] at hd₀
        rw [heq hd₀ hc e]
        exact .inr (.inr (.inl ⟨rfl, hs, rfl⟩))
    · rcases modArea_cases hd₀ with ⟨hd₀, -⟩ | ⟨e', -⟩
      · rw [hl] at hd₀
        rw [heq hd₀ ha e]
        exact .inr (.inl ⟨rfl, hs, rfl⟩)
      · exact absurd e' hm

/-- The areas that have an object keep it, but for a private `a`. -/
theorem ForkEffect.stays (h : ForkEffect s p m m' a c s') (hL : Layout C s) (ha : a ∈ s.vmm_list m) (hc : c ∈ s.vmm_list m')
    (hd : d ∈ s.vmm_list k) (h1 : k = m → d = a → a.vma_flags.shared = true) (h2 : k = m' → d ≠ c) : d ∈ s'.vmm_list k := by
  have hne {k : Nat} {x y : VmArea} (hx : x ∈ s.vmm_list k) (hy : y ∈ s.vmm_list k) (hxy : x ≠ y) : x.vma_id ≠ y.vma_id :=
    fun e => hxy (List.inj_on_of_nodup_map (hL.ids k) hx hy e)
  cases h with
  | shared => exact modArea_mem (s := s) hd fun e => hne (e ▸ hd) hc (h2 e)
  | @priv o b s₁ ho hs hl =>
    have hd₁ : d ∈ s₁.vmm_list k := by rw [hl]; exact hd
    refine modArea_mem (modArea_mem hd₁ fun e => hne (e ▸ hd) hc (h2 e)) fun e => hne (e ▸ hd) ha fun e' => ?_
    rw [h1 e e'] at hs
    cases hs

/-- What a turn leaves alone, and the new shadow objects. -/
theorem ForkEffect.rest (h : ForkEffect s p m m' a c s') (hc : Chains s) :
    (∀ x ob, s.objs x = some ob → s'.objs x = some ob) ∧ s'.pframes = s.pframes ∧ s'.procs = s.procs ∧ NoNewMapping s s' ∧
    (∀ y z, s'.parent y = some z → s.parent y = some z ∨ (a.vma_flags.shared = false ∧ a.vma_obj = some z)) ∧
    (a.vma_flags.shared = false → ∀ v, a.Has v → s'.p_pagedir p v = none) := by
  cases h with
  | shared _ hs =>
    refine ⟨fun _ _ hx => hx, rfl, rfl, .of_eq rfl, fun y z hy => .inl hy, fun h => ?_⟩
    rw [hs] at h
    cases h
  | @priv o b s₁ ho hs hl hobjs hpd hframes hprocs =>
    have hold {x : Nat} {ob : Mmobj} (hx : s.objs x = some ob) : (s.shadowTwice o b).objs x = some ob := by
      have := hc.known x ob hx
      have e1 : x ≠ s.nobjs := by omega
      have e2 : x ≠ s.nobjs + 1 := by omega
      simp [State.shadowTwice, State.newObj, e1, e2, hx]
    refine ⟨fun x ob hx => ?_, hframes, hprocs, ?_, fun y z hy => ?_, fun _ v hv => pt_unmap_range_self _ p _ _ v hv.1 hv.2⟩
    · exact (congrFun hobjs x).trans (hold hx)
    · have h1 : NoNewMapping s ((s₁.modArea m' c.vma_id (VmArea.withObj (some (s.nobjs + 1)))).modArea m a.vma_id
          (VmArea.withObj (some s.nobjs))) := .of_eq hpd
      exact h1.trans (pt_unmap_range_noNew _ _)
    · have hy : s₁.parent y = some z := hy
      rw [parent_congr hobjs, shadowTwice_parent] at hy
      split at hy
      · exact .inr ⟨hs, ho.trans hy⟩
      · split at hy
        · exact .inr ⟨hs, ho.trans hy⟩
        · exact .inl hy

/-! ## The loop -/

/-- What holds while the areas `l` of the map of `p` are still to be copied. -/
structure Parting (R : FrameRel) (C : Config) (held : Nat → Int) (p m : Nat) (l : List VmArea) (s : State) : Prop where
  backing : Backing C held s
  own : ∀ q pr, s.procs q = some pr → pr.p_vmmap = m → q = p
  leaf : ∀ k, ∀ a ∈ s.vmm_list k, (k = m → a ∉ l) → a.vma_flags.shared = false → ∀ o, a.vma_obj = some o → ∀ x, s.parent x ≠ some o
  once : ∀ k, ∀ a ∈ s.vmm_list k, a.vma_flags.shared = false → ∀ o, a.vma_obj = some o →
    ∀ k', ∀ c ∈ s.vmm_list k', c.vma_obj = some o → k' = k ∧ c.delta = a.delta
  copied : ∀ a ∈ s.vmm_list m, a ∉ l → a.vma_flags.shared = false → ∀ o, a.vma_obj = some o → ∀ c ∈ l, c.vma_obj ≠ some o
  entries : Entries R s

theorem Parting.apart (h : Parting R C held p m [] s) : Apart s :=
  ⟨fun k a ha hs o ho => h.leaf k a ha (fun _ => by simp) hs o ho, h.once⟩

/-- No area has an object that does not exist yet. -/
theorem Hung.obj_old (h : Hung s) (hc : Chains s) (ha : a ∈ s.vmm_list m) (ho : a.vma_obj = some o) : o < s.nobjs := by
  obtain ⟨ob, hob, -⟩ := h.areas m a ha o ho
  exact hc.known o ob hob

theorem Chains.parent_old (hc : Chains s) {x : Nat} (h : s.parent x = some o) : o < s.nobjs := by
  have hlt := hc.parent_lt h
  unfold State.parent at h
  obtain ⟨ob, hob, -⟩ := Option.bind_eq_some_iff.1 h
  have := hc.known x ob hob
  omega

theorem Parting.turn (hR : OnChain R) (h : Parting R C held p m (a :: l) s) (hB' : Backing C held s') (hm : m ≠ m')
    (hl : a :: l ⊆ s.vmm_list m) (hc : c ∈ s.vmm_list m') (hnone : c.vma_obj = none)
    (hflags : c.vma_flags.shared = a.vma_flags.shared) (heff : ForkEffect s p m m' a c s') : Parting R C held p m l s' := by
  have hL := h.backing.layout
  have ha : a ∈ s.vmm_list m := hl List.mem_cons_self
  obtain ⟨hold, hframes, hprocs, hpd, hpar, hunmap⟩ := heff.rest h.backing.chains
  have hlt {k : Nat} {x : VmArea} {y : Nat} (hx : x ∈ s.vmm_list k) (hy : x.vma_obj = some y) : y < s.nobjs :=
    h.backing.hung.obj_old h.backing.chains hx hy
  have hparlt {x y : Nat} (hx : s'.parent x = some y) : y < s.nobjs := by
    rcases hpar x y hx with hx | ⟨-, hy⟩
    · exact h.backing.chains.parent_old hx
    · exact hlt ha hy
  constructor
  case backing => exact hB'
  case own => rw [hprocs]; exact h.own
  case leaf =>
    intro k d hd hdl hs y hy x hx
    rcases heff.areas hL ha hc hm hd with ⟨hd, hda, -⟩ | ⟨-, -, rfl⟩ | ⟨-, -, rfl⟩ | ⟨-, hs', rfl⟩
    · have hdl' : k = m → d ∉ a :: l := fun e hmem => by
        rcases List.mem_cons.1 hmem with rfl | hmem
        · rw [hda e rfl] at hs
          cases hs
        · exact hdl e hmem
      rcases hpar x y hx with hx | ⟨hsa, hya⟩
      · exact h.leaf k d hd hdl' hs y hy x hx
      · -- another part of `a` that was copied before
        obtain ⟨rfl, -⟩ := h.once m a ha hsa y hya k d hd hy
        exact h.copied d hd (hdl' rfl) hs y hy a List.mem_cons_self hya
    · cases hy
      exact absurd (hparlt hx) (lt_irrefl _)
    · cases hy
      exact absurd (hparlt hx) (by omega)
    · rw [show (c.withObj a.vma_obj).vma_flags = c.vma_flags from rfl, hflags, hs'] at hs
      cases hs
  case once =>
    intro k d hd hs y hy k' e he hey
    rcases heff.areas hL ha hc hm hd with ⟨hd, -⟩ | ⟨rfl, -, rfl⟩ | ⟨rfl, -, rfl⟩ | ⟨-, hs', rfl⟩
    · rcases heff.areas hL ha hc hm he with ⟨he, -⟩ | ⟨-, -, rfl⟩ | ⟨-, -, rfl⟩ | ⟨-, hs', rfl⟩
      · exact h.once k d hd hs y hy k' e he hey
      · cases hey
        exact absurd (hlt hd hy) (lt_irrefl _)
      · cases hey
        exact absurd (hlt hd hy) (by omega)
      · obtain ⟨ob, hob, hsuits⟩ := h.backing.hung.areas k d hd y hy
        obtain ⟨ob', hob', hsuits'⟩ := h.backing.hung.areas m a ha y hey
        rw [hob] at hob'
        cases hob'
        rw [if_pos hs'] at hsuits'
        rw [hs, if_neg (by simp)] at hsuits
        simp [Mmobj.isFile, hsuits] at hsuits'
    · cases hy
      rcases heff.areas hL ha hc hm he with ⟨he, -⟩ | ⟨rfl, -, rfl⟩ | ⟨-, -, rfl⟩ | ⟨-, -, rfl⟩
      · exact absurd (hlt he hey) (lt_irrefl _)
      · exact ⟨rfl, rfl⟩
      · have := Option.some.inj hey
        omega
      · exact absurd (hlt ha hey) (lt_irrefl _)
    · cases hy
      rcases heff.areas hL ha hc hm he with ⟨he, -⟩ | ⟨-, -, rfl⟩ | ⟨rfl, -, rfl⟩ | ⟨-, -, rfl⟩
      · exact absurd (hlt he hey) (by omega)
      · have := Option.some.inj hey
        omega
      · exact ⟨rfl, rfl⟩
      · exact absurd (hlt ha hey) (by omega)
    · rw [show (c.withObj a.vma_obj).vma_flags = c.vma_flags from rfl, hflags, hs'] at hs
      cases hs
  case copied =>
    intro d hd hdl hs y hy e he hey
    have he' : e ∈ s.vmm_list m := hl (List.mem_cons_of_mem a he)
    rcases heff.areas hL ha hc hm hd with ⟨hd, hda, -⟩ | ⟨-, -, rfl⟩ | ⟨hk, -⟩ | ⟨hk, -⟩
    · refine h.copied d hd (fun hmem => ?_) hs y hy e (List.mem_cons_of_mem a he) hey
      rcases List.mem_cons.1 hmem with rfl | hmem
      · rw [hda rfl rfl] at hs
        cases hs
      · exact hdl hmem
    · cases hy
      exact absurd (hlt he' hey) (lt_irrefl _)
    · exact absurd hk hm
    · exact absurd hk hm
  case entries =>
    refine h.entries.keep hR h.backing.chains hB'.chains hpd fun q v pte pr' d y pf hpte he => ⟨⟨pr', d, ?_, ?_, he.has, he.obj, rfl⟩,
      fun z hz => ⟨?_, .inl (by simp [State.frame?, hframes])⟩⟩
    · rw [hprocs]
      exact he.proc
    · refine heff.stays hL ha hc he.area (fun e e' => ?_) fun _ e' => ?_
      · by_contra hs
        have hq := h.own q pr' he.proc e
        subst hq e'
        rw [hunmap (by simpa using hs) v he.has] at hpte
        cases hpte
      · have hobj := he.obj
        rw [e', hnone] at hobj
        cases hobj
    · obtain ⟨ob, hob, -⟩ := h.backing.hung.areas _ d he.area y he.obj
      obtain ⟨obz, hobz⟩ := h.backing.chains.reaches_obj hob hz
      exact parent_old hold hobz

theorem Parting.areas (hR : OnChain R) (hheld : ∀ o, 0 ≤ held o) (hm : m ≠ m')
    (hflags : List.Forall₂ (fun a c : VmArea => c.vma_flags.shared = a.vma_flags.shared) l l') : ∀ {s : State},
      Parting R C held p m l s → (∀ o, s.nobjs ≤ o → held o = 0) → l ⊆ s.vmm_list m → l.Nodup →
      (∀ c ∈ l', c ∈ s.vmm_list m' ∧ c.vma_obj = none) → l'.Nodup → fork_areas p m m' s l l' = some s' →
      Parting R C held p m [] s' ∧ (∀ o ob, s.objs o = some ob → s'.objs o = some ob) ∧ s'.procs = s.procs ∧ NoNewMapping s s' := by
  induction hflags with
  | nil =>
    intro s h _ _ _ _ _ hf
    cases hf
    exact ⟨h, fun _ _ ho => ho, rfl, .refl _⟩
  | @cons a c l l' hac _ ih =>
    intro s h h0 hl hnd hl' hnd' hf
    simp only [fork_areas, bind, Option.bind_eq_some_iff] at hf
    obtain ⟨s₁, h1, h2⟩ := hf
    rw [List.nodup_cons] at hnd hnd'
    have ha : a ∈ s.vmm_list m := hl List.mem_cons_self
    obtain ⟨hc, hnone⟩ := hl' c List.mem_cons_self
    have heff := fork_area_effect h1
    obtain ⟨o, ho⟩ : ∃ o, a.vma_obj = some o := by
      cases heff with
      | shared ho => exact ⟨_, ho⟩
      | priv ho => exact ⟨_, ho⟩
    obtain ⟨s₁', h1', hcopied⟩ := fork_area_total (p := p) h.backing hheld h0 hm ha hc ho hnone hac
    rw [h1] at h1'
    cases h1'
    obtain ⟨hold, -, hprocs, hpd, -⟩ := heff.rest h.backing.chains
    have hL := h.backing.layout
    have hrest : ∀ d ∈ l', d ∈ s₁.vmm_list m' ∧ d.vma_obj = none := fun d hd => by
      obtain ⟨hd', hdnone⟩ := hl' d (List.mem_cons_of_mem c hd)
      exact ⟨heff.stays hL ha hc hd' (fun e => absurd e.symm hm) fun _ e => hnd'.1 (e ▸ hd), hdnone⟩
    obtain ⟨h3, h4, h5, h6⟩ := ih (h.turn hR hcopied.backing hm hl hc hnone hac heff)
      (fun o ho => h0 o (hcopied.nobjs.trans ho))
      (fun d hd => heff.stays hL ha hc (hl (List.mem_cons_of_mem a hd)) (fun _ e => absurd (e ▸ hd) hnd.1) fun e => absurd e hm)
      hnd.2 hrest hnd'.2 h2
    exact ⟨h3, fun o ob ho => h4 o ob (hold o ob ho), h5.trans hprocs, hpd.trans h6⟩

/-! ## `do_fork` -/

theorem Layout.nodup (hL : Layout C s) (m : Nat) : (s.vmm_list m).Nodup := (hL.ids m).of_map _

/-- `do_fork` keeps the entries right, and the child has none. -/
theorem Tied.fork (hR : OnChain R) (h : Tied R C held p pr s) (hheld : ∀ o, 0 ≤ held o) (h0 : ∀ o, s.nobjs ≤ o → held o = 0)
    {child : Nat} (hf : do_fork s p = some (s', child)) :
    Tied R C held p pr s' ∧ (∀ o ob, s.objs o = some ob → s'.objs o = some ob) ∧ ∀ v, s'.p_pagedir child v = none := by
  have hB := h.backing
  obtain ⟨hp, hmap⟩ := h.owned.live p pr h.proc
  have hm : pr.p_vmmap ≠ s.nmaps + 1 := by omega
  have howned := do_fork_owned h.owned hB.layout hf
  rw [do_fork_eq h.proc hmap, Option.map_eq_some_iff] at hf
  obtain ⟨s₂, hf, hs'⟩ := hf
  cases hs'
  have hlists := fork_lists (s := s) hmap
  have hparent := fork_parent hmap
  have hchild := fork_child hmap
  have hB₁ : Backing C held (vmmap_clone (proc_create s) pr.p_vmmap) := vmmap_clone_backing (proc_create_backing hB)
  generalize hs₁ : vmmap_clone (proc_create s) pr.p_vmmap = s₁ at *
  have hprocs : s₁.procs = Function.update s.procs s.nprocs (some ⟨s.nmaps, 0, fun _ => none⟩) := by rw [← hs₁]; rfl
  have hobjs : s₁.objs = s.objs := by rw [← hs₁]; rfl
  have hpd : s₁.p_pagedir = Function.update s.p_pagedir s.nprocs fun _ => none := by rw [← hs₁]; rfl
  have hframes : s₁.pframes = s.pframes := by rw [← hs₁]; rfl
  have hnobjs : s₁.nobjs = s.nobjs := by rw [← hs₁]; rfl
  have hpar := parent_congr hobjs
  have hdir (q v : Nat) : s₁.p_pagedir q v = if q = s.nprocs then none else s.p_pagedir q v := by
    rw [hpd, Function.update_apply]
    split <;> rfl
  -- areas that have an object are old
  have hold {k : Nat} {a : VmArea} {o : Nat} (ha : a ∈ s₁.vmm_list k) (ho : a.vma_obj = some o) : a ∈ s.vmm_list k := by
    rw [hlists] at ha
    split at ha
    · rw [cloneAreas_none ha] at ho
      cases ho
    · split at ha
      · cases ha
      · exact ha
  have hstay {k : Nat} {a : VmArea} (ha : a ∈ s.vmm_list k) : a ∈ s₁.vmm_list k := by
    have hk := hB.layout.created ha
    rw [hlists, if_neg (by omega), if_neg (by omega)]
    exact ha
  have hc₁ : Chains s₁ := hB.chains.congr hobjs hnobjs
  have hstart : Parting R C held p pr.p_vmmap (s.vmm_list pr.p_vmmap) s₁ := by
    constructor
    case backing => exact hB₁
    case own =>
      intro q pr' hq e
      rw [hprocs] at hq
      by_cases hq' : q = s.nprocs
      · rw [hq', Function.update_self] at hq
        cases hq
        exact absurd e hmap.ne'
      · rw [Function.update_of_ne hq'] at hq
        exact h.owned.own q p pr' pr hq h.proc e
    case leaf =>
      intro k a ha _ hs o ho
      rw [hpar]
      exact h.apart.leaf k a (hold ha ho) hs o ho
    case once =>
      intro k a ha hs o ho k' c hc hco
      exact h.apart.once k a (hold ha ho) hs o ho k' c (hold hc hco) hco
    case copied =>
      intro a ha hal
      rw [hparent] at ha
      exact absurd ha hal
    case entries =>
      have hpds : NoNewMapping s s₁ := fun q v pte hpte => by
        rw [hdir] at hpte
        split at hpte
        · cases hpte
        · exact hpte
      refine h.entries.keep hR hB.chains hc₁ hpds fun q v pte pr' a o pf _ he =>
        ⟨⟨pr', a, ?_, hstay he.area, he.has, he.obj, rfl⟩, fun y _ => ⟨congrFun hpar y, .inl (by simp [State.frame?, hframes])⟩⟩
      have hq := (h.owned.live q pr' he.proc).1
      rw [hprocs, Function.update_of_ne hq.ne]
      exact he.proc
  obtain ⟨h₂, hobjs₂, hprocs₂, hpd₂⟩ := hstart.areas hR hheld hm (cloneAreas_flags (s.nmaps + 1) _ s.nareas)
    (by rw [hnobjs]; exact h0) (by rw [hparent]; exact List.Subset.refl _) (hB.layout.nodup _)
    (fun c hc => ⟨hchild ▸ hc, cloneAreas_none hc⟩) (hchild ▸ hB₁.layout.nodup _) hf
  have hnone (v : Nat) : s₂.p_pagedir s.nprocs v = none := by
    cases hv : s₂.p_pagedir s.nprocs v with
    | none => rfl
    | some pte =>
      have := hpd₂ s.nprocs v pte hv
      rw [hdir, if_pos rfl] at this
      cases this
  refine ⟨⟨⟨h₂.backing.processes _ _ s₂.zombies, howned, h₂.apart.same rfl rfl, ?_⟩, ?_⟩, fun o ob ho => hobjs₂ o ob (hobjs ▸ ho), hnone⟩
  · refine h₂.entries.keep hR h₂.backing.chains (h₂.backing.chains.congr rfl rfl) (.of_eq rfl) fun q v pte pr' a o pf hpte he =>
      ⟨⟨pr', a, ?_, he.area, he.has, he.obj, rfl⟩, fun y _ => ⟨rfl, .inl rfl⟩⟩
    have hq : q ≠ s.nprocs := by
      rintro rfl
      exact absurd ((hnone v).symm.trans hpte) (by simp)
    exact (Function.update_of_ne hq ..).trans he.proc
  · refine (Function.update_of_ne hp.ne ..).trans ?_
    rw [hprocs₂, hprocs, Function.update_of_ne hp.ne]
    exact h.proc

end Weenix.Vm
