import Weenix.Vm.FlatMapping
import Weenix.Vm.MemoryForking
/-!
# Flat memory across `fork`

After a turn of the loop of `do_fork` the area and its copy lead to what the
area led to. So the child gets the pages of the parent: those of a shared area
are the same pages of the file, the others become copies when one is stored to.
-/

namespace Weenix.Vm

open Lib Lib.Intervals

variable {C : Config} {s s' t : State} {o m m' p v k x : Nat} {a c d : VmArea} {l l' : List VmArea} {pr : Proc} {ob : Mmobj}
  {held : Nat → Int}

/-! ## One turn -/

theorem target_rehang (hok : AreasOk C m (s.vmm_list m)) (hids : ((s.vmm_list m).map (·.vma_id)).Nodup) (ha : a ∈ s.vmm_list m)
    (x k v : Nat) : (s.modArea m a.vma_id (VmArea.withObj (some x))).target k v =
      if k = m ∧ a.Has v then some (some x, a.pagenum v, a.vma_prot, a.vma_flags) else s.target k v := by
  by_cases e : k = m
  · subst e
    have hlook : vmmap_lookup ((s.modArea k a.vma_id (VmArea.withObj (some x))).vmm_list k) v =
        (vmmap_lookup (s.vmm_list k) v).map fun d => if d.vma_id = a.vma_id then d.withObj (some x) else d := by
      simp only [State.modArea, State.setList, Function.update_self, vmmap_lookup, List.find?_map]
      congr 2
      funext d
      by_cases e : d.vma_id = a.vma_id
      · simp only [Function.comp_apply, if_pos e]
        rfl
      · simp only [Function.comp_apply, if_neg e]
    unfold State.target
    rw [hlook]
    by_cases hv : a.Has v
    · rw [show vmmap_lookup (s.vmm_list k) v = some a from hok.sorted.find_iff.2 ⟨ha, hv⟩, if_pos ⟨rfl, hv⟩]
      simp only [Option.map_some, if_true]
      rfl
    · rw [if_neg fun h => hv h.2]
      cases hd : vmmap_lookup (s.vmm_list k) v with
      | none => rfl
      | some d =>
        obtain ⟨hdm, hdv⟩ := hok.sorted.find_iff.1 hd
        have hne : d.vma_id ≠ a.vma_id := fun e => hv (List.inj_on_of_nodup_map hids hdm ha e ▸ hdv)
        simp only [Option.map_some, if_neg hne]
  · rw [if_neg fun h => e h.1]
    simp only [State.target, State.modArea, State.setList, Function.update_of_ne e]

/-- Object `x` of `s'` leads to what `o` led to. -/
structure Stands (s s' : State) (o x : Nat) : Prop where
  cell : ∀ pn, s'.cell x pn = s.cell o pn
  bottom : s'.bottomOf x = s.bottomOf o
  kind : s'.IsFile x ↔ s.IsFile o

theorem Extends.stands (h : Extends s s') (hc : Chains s) (hc' : Chains s') (ho : s.objs o = some ob) : Stands s s' o o :=
  ⟨fun _ => h.cell hc hc' ho, bottomOf_more ho h.objs, isFile_more ho h.objs⟩

/-- A new object on `o`. -/
theorem Extends.stands_new (h : Extends s s') (hB : Backing C held s) (hc' : Chains s') (ho : s.objs o = some ob) (hx : s.nobjs ≤ x)
    (hfile : ¬ s.IsFile o) (hpar : s'.parent x = some o) : Stands s s' o x := by
  have hold := h.stands hB.chains hc' ho
  refine ⟨fun pn => ?_, ?_, iff_of_false (fun hx => ?_) hfile⟩
  · have hnone : s'.frame? x pn = none := by
      rw [h.frame?]
      exact hB.frame?_new hx
    rw [hc'.cell_below (ownCell_none hnone) hpar, hold.cell]
  · rw [← hold.bottom, hc'.reaches (.head hpar .refl)]
  · rw [hc'.file_root hx] at hpar
    cases hpar

theorem Stands.home {pn : Nat} (h : Stands s s' o x) (hobjs : ∀ y ob, s.objs y = some ob → s'.objs y = some ob) (hc : Chains s)
    (hv : s'.vnodes = s.vnodes) (hH : s.Home o pn) : s'.Home x pn := by
  intro b vn hb hvn
  rw [h.bottom] at hb
  obtain ⟨ob, hob, -⟩ := hc.bottom_obj hb
  obtain ⟨ob', hob', hops⟩ := hvn
  rw [hobjs b ob hob] at hob'
  cases hob'
  rw [hv]
  exact hH b vn hb ⟨ob, hob, hops⟩

/-- A turn of the loop, on the area `a` of map `m` and its copy `c` in map `m'`. -/
structure Branched (s : State) (m m' : Nat) (a c : VmArea) (s' : State) : Prop extends Extends s s' where
  target : ∃ o x y, a.vma_obj = some o ∧ Stands s s' o x ∧ Stands s s' o y ∧ ∀ k v, s'.target k v =
    if k = m ∧ a.Has v then some (some x, a.pagenum v, a.vma_prot, a.vma_flags)
    else if k = m' ∧ c.Has v then some (some y, c.pagenum v, c.vma_prot, c.vma_flags) else s.target k v

theorem ForkEffect.branched (h : ForkEffect s p m m' a c s') (hB : Backing C held s) (hc' : Chains s') (hm : m ≠ m')
    (ha : a ∈ s.vmm_list m) (hc : c ∈ s.vmm_list m') (hkind : ∀ o, a.vma_obj = some o → s.IsFile o → a.vma_flags.shared = true) :
    Branched s m m' a c s' := by
  have hL := hB.layout
  obtain ⟨hold, -⟩ := h.rest hB.chains
  cases h with
  | @shared o ho hs =>
    obtain ⟨ob, hob, -⟩ := hB.hung.areas m a ha o ho
    have hext : Extends s (((s.modArea m' c.vma_id (VmArea.withObj (some o))).setRefcount o (s.mmo_refcount o + 1)).linkVma o c.vma_id) :=
      ⟨hold, rfl, rfl, rfl⟩
    have hst := hext.stands hB.chains hc' hob
    refine ⟨hext, o, o, o, ho, hst, hst, fun k v => ?_⟩
    refine (target_rehang (hL.areas m') (hL.ids m') hc o k v).trans ?_
    by_cases h1 : k = m ∧ a.Has v
    · rw [if_pos h1, if_neg fun h => hm (h1.1.symm.trans h.1), h1.1, target_of hL ha h1.2, VmArea.target, ho]
    · rw [if_neg h1]
  | @priv o b s₁ ho hs hl hobjs _ hframes _ hmem hdisk =>
    obtain ⟨ob, hob, -⟩ := hB.hung.areas m a ha o ho
    have hext : Extends s (((s₁.modArea m' c.vma_id (VmArea.withObj (some (s.nobjs + 1)))).modArea m a.vma_id
        (VmArea.withObj (some s.nobjs))).pt_unmap_range p a.vma_start a.vma_end) := ⟨hold, hframes, hmem, hdisk⟩
    have hpar (x : Nat) (hx : x = s.nobjs ∨ x = s.nobjs + 1) : (((s₁.modArea m' c.vma_id (VmArea.withObj (some (s.nobjs + 1)))).modArea m
        a.vma_id (VmArea.withObj (some s.nobjs))).pt_unmap_range p a.vma_start a.vma_end).parent x = some o := by
      refine (congrFun (parent_congr hobjs) x).trans ?_
      rw [shadowTwice_parent]
      rcases hx with rfl | rfl
      · rw [if_neg (Nat.ne_of_lt (Nat.lt_succ_self _)), if_pos rfl]
      · rw [if_pos rfl]
    have hfile : ¬ s.IsFile o := fun h => by
      rw [hkind o ho h] at hs
      cases hs
    refine ⟨hext, o, s.nobjs, s.nobjs + 1, ho, hext.stands_new hB hc' hob le_rfl hfile (hpar _ (.inl rfl)),
      hext.stands_new hB hc' hob (Nat.le_succ _) hfile (hpar _ (.inr rfl)), fun k v => ?_⟩
    have hlist : (s₁.modArea m' c.vma_id (VmArea.withObj (some (s.nobjs + 1)))).vmm_list m = s.vmm_list m := by
      rw [← hl]
      exact Function.update_of_ne hm ..
    have h1 := target_rehang (s := s₁.modArea m' c.vma_id (VmArea.withObj (some (s.nobjs + 1)))) (m := m)
      (by rw [hlist]; exact hL.areas m) (by rw [hlist]; exact hL.ids m) (by rw [hlist]; exact ha) s.nobjs k v
    have h2 := target_rehang (s := s₁) (m := m') (by rw [hl]; exact hL.areas m') (by rw [hl]; exact hL.ids m')
      (by rw [hl]; exact hc) (s.nobjs + 1) k v
    have h3 : s₁.target k v = s.target k v := target_congr (congrFun hl k) v
    exact h1.trans (by rw [h2, h3])

/-- The pages of `a` are shown in `c` too, and nothing else changes. -/
theorem Branched.slots (h : Branched s m m' a c s') (hB : Backing C held s) (hc' : Chains s') (hm : m ≠ m') (ha : a ∈ s.vmm_list m)
    {i : Nat} (hcopy : c = cloneArea m' i a) (k v : Nat) : s'.slots k v = if k = m' ∧ a.Has v then s.slots m v else s.slots k v := by
  obtain ⟨o, x, y, ho, hx, hy, hall⟩ := h.target
  have htarget := hall k v
  by_cases h1 : k = m ∧ a.Has v
  · rw [if_pos h1] at htarget
    obtain ⟨rfl, hv⟩ := h1
    rw [if_neg fun h => hm h.1, slots_of hB.layout ha hv ho]
    simp only [State.slots, htarget, Option.bind_some, Option.map_some, hx.cell]
  · rw [if_neg h1] at htarget
    by_cases h2 : k = m' ∧ a.Has v
    · have hcv : k = m' ∧ c.Has v := by rw [hcopy]; exact h2
      rw [if_pos hcv] at htarget
      rw [if_pos h2, slots_of hB.layout ha h2.2 ho]
      simp only [State.slots, htarget, Option.bind_some, Option.map_some, hy.cell]
      rw [hcopy]
      rfl
    · have hcv : ¬ (k = m' ∧ c.Has v) := by rw [hcopy]; exact h2
      rw [if_neg hcv] at htarget
      rw [if_neg h2, h.toExtends.slots hB hc' htarget]

/-! ## The loop -/

/-- All pages that are mapped fit, except those of the copies `l'` in map `m'`. -/
def FitsBut (s : State) (m' : Nat) (l' : List VmArea) : Prop :=
  ∀ k v y, s.target k v = some y → (k = m' ∧ ∃ c ∈ l', c.Has v) ∨ s.Fits y

theorem FitsBut.fits (h : FitsBut s m' l') (hL : Layout C s) (hm : m ≠ m') (ha : a ∈ s.vmm_list m) (hv : a.Has v) : s.Fits (a.target v) :=
  (h m v _ (target_of hL ha hv)).resolve_left fun e => hm e.1

theorem FitsBut.kind (h : FitsBut s m' l') (hL : Layout C s) (hm : m ≠ m') (ha : a ∈ s.vmm_list m) (o : Nat) (ho : a.vma_obj = some o)
    (hfile : s.IsFile o) : a.vma_flags.shared = true := by
  obtain ⟨o', ho', -, hkind⟩ := (h.fits hL hm ha ⟨le_refl _, (hL.areas m).sorted.nonempty a ha⟩).home
  rw [show (a.target _).1 = a.vma_obj from rfl, ho] at ho'
  cases ho'
  exact hkind.2 hfile

theorem FitsBut.next (h : FitsBut s m' (c :: l')) (hB : Backing C held s) (hm : m ≠ m') (ha : a ∈ s.vmm_list m)
    {i : Nat} (hcopy : c = cloneArea m' i a) (hbr : Branched s m m' a c s') (hvn : s'.vnodes = s.vnodes) : FitsBut s' m' l' := by
  obtain ⟨o, x, y, ho, hx, hy, htarget⟩ := hbr.target
  have hfit {v : Nat} (hv : a.Has v) : s.Fits (some o, a.pagenum v, a.vma_prot, a.vma_flags) := by
    have hfit := h.fits hB.layout hm ha hv
    rw [VmArea.target, ho] at hfit
    exact hfit
  intro k v z hz
  rw [htarget] at hz
  split at hz
  next h1 =>
    cases hz
    obtain ⟨⟨o', ho', hhome, hkind⟩, hread⟩ := hfit h1.2
    cases ho'
    exact .inr ⟨⟨x, rfl, hx.home hbr.objs hB.chains hvn hhome, hkind.trans hx.kind.symm⟩, hread⟩
  next h1 =>
    split at hz
    next h2 =>
      cases hz
      have hav : a.Has v := by
        rw [hcopy] at h2
        exact h2.2
      obtain ⟨⟨o', ho', hhome, hkind⟩, hread⟩ := hfit hav
      cases ho'
      rw [hcopy]
      exact .inr ⟨⟨y, rfl, hy.home hbr.objs hB.chains hvn hhome, hkind.trans hy.kind.symm⟩, hread⟩
    next h2 =>
      rcases h k v z hz with ⟨rfl, d, hd, hdv⟩ | hfit
      · rcases List.mem_cons.1 hd with rfl | hd
        · exact absurd ⟨rfl, hdv⟩ h2
        · exact .inl ⟨rfl, d, hd, hdv⟩
      · obtain ⟨o', ho', hhome, hkind⟩ := hfit.home
        obtain ⟨d, hd, -, rfl⟩ := target_some hz
        obtain ⟨ob, hob, -⟩ := hB.hung.areas k d hd o' ho'
        exact .inr ⟨⟨o', ho', hbr.toExtends.home hB.chains hvn hob hhome, by rw [isFile_more hob hbr.objs]; exact hkind⟩, hfit.read⟩

/-- The loop of `do_fork` shows the pages of the areas `l` in map `m'` too. -/
theorem fork_areas_slots (hheld : ∀ o, 0 ≤ held o) (hm : m ≠ m') (hl : List.Forall₂ (fun a c => ∃ i, c = cloneArea m' i a) l l') :
    ∀ {s : State}, Backing C held s → (∀ o, s.nobjs ≤ o → held o = 0) → Copying s m m' l l' → FitsBut s m' l' →
      fork_areas p m m' s l l' = some s' → Extends s s' ∧ FitsBut s' m' [] ∧
        (∀ k v, (k = m' → ∀ a ∈ l, ¬ a.Has v) → s'.slots k v = s.slots k v) ∧
        ∀ a ∈ l, ∀ v, a.Has v → s'.slots m' v = s.slots m v := by
  induction hl with
  | nil =>
    intro s _ _ _ hA hf
    cases hf
    exact ⟨⟨fun _ _ h => h, rfl, rfl, rfl⟩, hA, fun _ _ _ => rfl, fun _ hb => absurd hb List.not_mem_nil⟩
  | @cons a c l l' hcopy _ ih =>
    intro s h h0 hcopying hA hf
    simp only [fork_areas, bind, Option.bind_eq_some_iff] at hf
    obtain ⟨s₁, h1, h2⟩ := hf
    obtain ⟨ha, o, ho⟩ := hcopying.old a List.mem_cons_self
    obtain ⟨hc, hnone⟩ := hcopying.new c List.mem_cons_self
    obtain ⟨s₁', h1', hcopied⟩ := fork_area_total (p := p) h hheld h0 hm ha hc ho hnone (by obtain ⟨i, rfl⟩ := hcopy; rfl)
    rw [h1] at h1'
    cases h1'
    have hc₁ := hcopied.backing.chains
    have hbr := (fork_area_effect h1).branched h hc₁ hm ha hc (hA.kind h.layout hm ha)
    have hvn : s₁.vnodes = s.vnodes := congrArg Spaces.vnodes (fork_area_shape h.layout h1).2.rest
    obtain ⟨i, hi⟩ := hcopy
    obtain ⟨hext, hA', hkept, hshown⟩ := ih hcopied.backing (fun o ho => h0 o (hcopied.nobjs.trans ho))
      (hcopying.next hm hcopied) (hA.next h hm ha hi hbr hvn) h2
    have hslots := hbr.slots h hc₁ hm ha hi
    refine ⟨hbr.toExtends.trans hext, hA', fun k v hk => ?_, fun d hd v hv => ?_⟩
    · rw [hkept k v fun e d hd => hk e d (List.mem_cons_of_mem a hd), hslots, if_neg fun e => hk e.1 a List.mem_cons_self e.2]
    · by_cases hl : ∃ d' ∈ l, d'.Has v
      · obtain ⟨d', hd', hv'⟩ := hl
        rw [hshown d' hd' v hv', hslots, if_neg fun e => hm e.1]
      · -- the page is in `a`, and no later turn changes it
        rcases List.mem_cons.1 hd with rfl | hd
        · rw [hkept m' v fun _ d' hd' hv' => hl ⟨d', hd', hv'⟩, hslots, if_pos ⟨rfl, hv⟩]
        · exact absurd ⟨d, hd, hv⟩ hl

/-! ## `do_fork` -/

/-- `fork` gives the child, a new process, the pages and the descriptors of the parent. -/
theorem Mirrored.fork (h : Mirrored C held s) {child : Nat} (hf : do_fork s p = some (s', child)) : Mirrored C held s' ∧
    ∃ pr, s.procs p = some pr ∧ s.flat.procs child = none ∧ s'.flat = s.flat.setProc child (some (s.flatProc pr)) := by
  have hB := h.backing
  have hst := h.toLinked.fork onChain_reads hf
  have hsh := do_fork_shrunk hf
  have hvn := (do_fork_live hB.layout (fun q pr' hq => (h.owned.live q pr' hq).2) hf).2
  obtain ⟨pr, hpr⟩ : ∃ pr, s.procs p = some pr := by
    simp only [do_fork, bind, Option.bind_eq_some_iff] at hf
    obtain ⟨pr, hpr, -⟩ := hf
    exact ⟨pr, hpr⟩
  have hmap := (h.owned.live p pr hpr).2
  have hm : pr.p_vmmap ≠ s.nmaps + 1 := by omega
  rw [do_fork_eq hpr hmap, Option.map_eq_some_iff] at hf
  obtain ⟨t, hloop, heq⟩ := hf
  obtain ⟨hs', rfl⟩ := Prod.mk.inj heq
  have htarget₁ (k v : Nat) (hk : k ≠ s.nmaps + 1) :
      (vmmap_clone (proc_create s) pr.p_vmmap).target k v = if k = s.nmaps then none else s.target k v := by
    by_cases e : k = s.nmaps
    · rw [if_pos e, State.target, fork_lists hmap, if_neg hk, if_pos e]
      rfl
    · rw [if_neg e]
      exact target_congr (by rw [fork_lists hmap, if_neg hk, if_neg e]) v
  have hfits₁ : FitsBut (vmmap_clone (proc_create s) pr.p_vmmap) (s.nmaps + 1)
      (cloneAreas (s.nmaps + 1) s.nareas (s.vmm_list pr.p_vmmap)) := by
    intro k v y hy
    by_cases e : k = s.nmaps + 1
    · obtain ⟨c, hc, hcv, -⟩ := target_some hy
      rw [e, fork_child hmap] at hc
      exact .inl ⟨e, c, hc, hcv⟩
    · rw [htarget₁ k v e] at hy
      split at hy
      · cases hy
      · obtain ⟨hhome, hread⟩ := h.fits k v y hy
        exact .inr ⟨hhome, hread⟩
  have hslots₁ {k : Nat} (hk : k < s.nmaps) (v : Nat) : (vmmap_clone (proc_create s) pr.p_vmmap).slots k v = s.slots k v :=
    slots_congr (by rw [htarget₁ k v (by omega), if_neg hk.ne]) fun _ _ _ _ => rfl
  have hB₁ : Backing C held (vmmap_clone (proc_create s) pr.p_vmmap) := vmmap_clone_backing (proc_create_backing hB)
  obtain ⟨hext, hfits, hkept, hshown⟩ := fork_areas_slots h.outside.nonneg hm (cloneAreas_copies _ _ _) hB₁ h.fresh
    (fork_copying hB h.settled hmap) hfits₁ hloop
  have hrest := (fork_areas_shape hB₁.layout hloop).2.rest
  have hprocs : t.procs = (proc_create s).procs := congrArg Spaces.procs hrest
  have hfiles : t.files = s.files := congrArg Spaces.files hrest
  have hslots (k v : Nat) : s'.slots k v = t.slots k v := by
    rw [← hs']
    rfl
  have htable (pr : Proc) : s'.fdTable pr = s.fdTable pr := by
    rw [← hs']
    show t.fdTable pr = s.fdTable pr
    funext fd
    simp only [State.fdTable, hfiles]
  have hprocs' (q : Nat) (hq : q ≠ s.nprocs) : s'.procs q = s.procs q := by
    rw [← hs']
    refine (Function.update_of_ne hq ..).trans ?_
    rw [hprocs]
    exact Function.update_of_ne hq ..
  have hchild : s'.procs s.nprocs = some ⟨s.nmaps + 1, pr.p_start_brk, pr.p_files⟩ := by
    rw [← hs']
    exact Function.update_self ..
  have hold {q : Nat} {pr' : Proc} (hq : s.procs q = some pr') (v : Nat) : s'.slots pr'.p_vmmap v = s.slots pr'.p_vmmap v := by
    have hk := (h.owned.live q pr' hq).2
    rw [hslots, hkept _ v fun e => absurd e (by omega), hslots₁ hk]
  refine ⟨h.keep hst hsh hvn (fun k v y hy => ?_) (fun q v y pte hpte hy => ?_) ⟨fun f fl hfl => ?_, fun q pr' fd f hq hfd => ?_⟩,
    pr, hpr, flat_none h.owned.next, flat_update (fun q hq => ?_) ?_ ?_⟩
  · have hy : t.target k v = some y := by
      rw [← hs'] at hy
      exact hy
    rcases hfits k v y hy with ⟨-, c, hc, -⟩ | ⟨hhome, hread⟩
    · cases hc
    · rw [← hs']
      exact ⟨hhome, hread⟩
  · obtain ⟨pr', a, o, pf, he⟩ := h.entries q v pte (hsh.pagedir q v pte hpte)
    have hq : q ≠ s.nprocs := fun e => by
      have hnone := h.owned.next
      rw [← e, he.proc] at hnone
      cases hnone
    rw [flat_slot (by rw [hprocs' q hq]; exact he.proc), hold he.proc] at hy
    exact ⟨y, by rw [flat_slot he.proc]; exact hy, rfl⟩
  · rw [← hs'] at hfl
    have hfl : t.files f = some fl := hfl
    rw [hfiles] at hfl
    exact h.opened.counted f fl hfl
  · rw [show s'.files = s.files by rw [← hs']; exact hfiles]
    by_cases e : q = s.nprocs
    · rw [e, hchild] at hq
      cases hq
      exact h.opened.live p pr fd f hpr hfd
    · rw [hprocs' q e] at hq
      exact h.opened.live q pr' fd f hq hfd
  · rw [hprocs' q hq]
    cases hq' : s.procs q with
    | none => rfl
    | some pr' =>
      simp only [Option.map_some, State.flatProc, htable]
      congr 2
      funext v
      exact hold hq' v
  · rw [hchild]
    simp only [Option.map_some, State.flatProc, htable]
    congr 2
    funext v
    rw [hslots]
    by_cases hv : ∃ a ∈ s.vmm_list pr.p_vmmap, a.Has v
    · obtain ⟨a, ha, hv⟩ := hv
      exact (hshown a ha v hv).trans (hslots₁ hmap v)
    · have hout : ∀ a ∈ s.vmm_list pr.p_vmmap, ¬ a.Has v := fun a ha hav => hv ⟨a, ha, hav⟩
      rw [slots_none (target_none hout)]
      refine (hkept _ v fun _ => hout).trans (slots_none (target_none fun c hc hcv => ?_))
      rw [fork_child hmap] at hc
      obtain ⟨a, ha, i, -, -, rfl⟩ := mem_cloneAreas hc
      exact hout a ha hcv
  · have h1 : s'.fileData = t.fileData := by
      rw [← hs']
      rfl
    have h2 : t.fileData = (vmmap_clone (proc_create s) pr.p_vmmap).fileData := by
      refine hext.fileData hB₁.chains ?_ h.files (congrArg Spaces.vnodes hrest)
      exact hst.linked.backing.chains.congr (by rw [← hs']; rfl) (by rw [← hs']; rfl)
    rw [h1, h2]
    rfl

end Weenix.Vm
