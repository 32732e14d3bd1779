import Weenix.Vm.MemoryMapping
/-!
# Memory across `fork`

A turn of the loop of `do_fork` puts a shadow object on the object of an area
for the parent, and another for the child. Both read what the area's object
holds, so the child gets the pages of the area and nothing else changes.
-/

namespace Weenix.Vm

open Lib Lib.Intervals

variable {C : Config} {s s' t : State} {o m m' p v k : Nat} {a c d : VmArea} {l l' : List VmArea} {pr : Proc} {held : Nat → Int}

/-! ## One turn -/

/-- An area that gets another object is mapped to that one. -/
theorem objPage_rehang (hok : AreasOk C m (s.vmm_list m)) (hids : ((s.vmm_list m).map (·.vma_id)).Nodup) (ha : a ∈ s.vmm_list m)
    (x k v : Nat) : (s.modArea m a.vma_id (VmArea.withObj (some x))).objPage k v =
      if k = m ∧ a.Has v then some (x, a.pagenum v) else s.objPage k v := by
  by_cases e : k = m
  · subst e
    have hlook : vmmap_lookup ((s.modArea k a.vma_id (VmArea.withObj (some x))).vmm_list k) v =
        (vmmap_lookup (s.vmm_list k) v).map fun d => if d.vma_id = a.vma_id then d.withObj (some x) else d := by
      simp only [State.modArea, State.setList, Function.update_self, vmmap_lookup, List.find?_map]
      congr 2
      funext d
      by_cases e : d.vma_id = a.vma_id
      · simp only [Function.comp_apply, if_pos e]
        rfl
      · simp only [Function.comp_apply, if_neg e]
    unfold State.objPage
    rw [hlook]
    by_cases hv : a.Has v
    · rw [show vmmap_lookup (s.vmm_list k) v = some a from hok.sorted.find_iff.2 ⟨ha, hv⟩, if_pos ⟨rfl, hv⟩]
      simp only [Option.map_some, if_true, Option.bind_some]
      rfl
    · rw [if_neg fun h => hv h.2]
      cases hd : vmmap_lookup (s.vmm_list k) v with
      | none => rfl
      | some d =>
        obtain ⟨hdm, hdv⟩ := hok.sorted.find_iff.1 hd
        have hne : d.vma_id ≠ a.vma_id := fun e => hv (List.inj_on_of_nodup_map hids hdm ha e ▸ hdv)
        simp only [Option.map_some, if_neg hne]
  · rw [if_neg fun h => e h.1]
    simp only [State.objPage, State.modArea, State.setList, Function.update_of_ne e]

/-- The area `a` of map `m` and the area `c` of map `m'` have new shadow objects over `o`. -/
structure Shadowed (s : State) (m m' : Nat) (a c : VmArea) (o : Nat) (s' : State) : Prop extends Extends s s' where
  parent : ∀ x, x = s.nobjs ∨ x = s.nobjs + 1 → s'.parent x = some o
  objPage : ∀ k v, s'.objPage k v = if k = m ∧ a.Has v then some (s.nobjs, a.pagenum v)
    else if k = m' ∧ c.Has v then some (s.nobjs + 1, c.pagenum v) else s.objPage k v

theorem ForkEffect.shadowed (h : ForkEffect s p m m' a c s') (hB : Backing C held s) (hm : m ≠ m') (ha : a ∈ s.vmm_list m)
    (hc : c ∈ s.vmm_list m') (hs : a.vma_flags.shared = false) : ∃ o, a.vma_obj = some o ∧ Shadowed s m m' a c o s' := by
  have hL := hB.layout
  obtain ⟨hold, -⟩ := h.rest hB.chains
  cases h with
  | shared _ hs' =>
    rw [hs] at hs'
    cases hs'
  | @priv o b s₁ ho _ hl hobjs _ hframes _ hmem hdisk =>
    refine ⟨o, ho, ⟨hold, hframes, hmem, hdisk⟩, fun x hx => ?_, fun k v => ?_⟩
    · refine (congrFun (parent_congr hobjs) x).trans ?_
      rw [shadowTwice_parent]
      rcases hx with rfl | rfl
      · rw [if_neg (Nat.ne_of_lt (Nat.lt_succ_self _)), if_pos rfl]
      · rw [if_pos rfl]
    · have hlist : (s₁.modArea m' c.vma_id (VmArea.withObj (some (s.nobjs + 1)))).vmm_list m = s.vmm_list m := by
        rw [← hl]
        exact Function.update_of_ne hm ..
      have h1 := objPage_rehang (s := s₁.modArea m' c.vma_id (VmArea.withObj (some (s.nobjs + 1)))) (m := m)
        (by rw [hlist]; exact hL.areas m) (by rw [hlist]; exact hL.ids m) (by rw [hlist]; exact ha) s.nobjs k v
      have h2 := objPage_rehang (s := s₁) (m := m') (by rw [hl]; exact hL.areas m') (by rw [hl]; exact hL.ids m')
        (by rw [hl]; exact hc) (s.nobjs + 1) k v
      have h3 : s₁.objPage k v = s.objPage k v := by simp only [State.objPage, hl]
      exact h1.trans (by rw [h2, h3])

/-- So the pages of `a` are seen in `c` too, and nothing else changes. -/
theorem Shadowed.pages (h : Shadowed s m m' a c o s') (hB : Backing C held s) (hc' : Chains s') (hm : m ≠ m')
    (ha : a ∈ s.vmm_list m) (ho : a.vma_obj = some o) {i : Nat} (hcopy : c = cloneArea m' i a) (k v : Nat) :
    s'.pages k v = if k = m' ∧ a.Has v then s.pages m v else s.pages k v := by
  obtain ⟨ob, hob, -⟩ := hB.hung.areas m a ha o ho
  have hnew (x pn : Nat) (hx : x = s.nobjs ∨ x = s.nobjs + 1) : s'.page x pn = s.page o pn := by
    rw [hc'.page_below (by rw [h.frame?]; exact hB.frame?_new (by omega)) (h.parent x hx), h.page hB.chains hc' hob]
  have hshown (hv : a.Has v) : s.pages m v = some (s.page o (a.pagenum v)) := by
    rw [State.pages, objPage_eq hB.layout ha hv ho, Option.map_some]
  have hobj := h.objPage k v
  by_cases h1 : k = m ∧ a.Has v
  · rw [if_pos h1] at hobj
    obtain ⟨rfl, hv⟩ := h1
    rw [if_neg fun h => hm h.1, hshown hv, State.pages, hobj, Option.map_some, hnew _ _ (.inl rfl)]
  · rw [if_neg h1] at hobj
    by_cases h2 : k = m' ∧ a.Has v
    · have hcv : k = m' ∧ c.Has v := by rw [hcopy]; exact h2
      rw [if_pos hcv] at hobj
      rw [if_pos h2, hshown h2.2, State.pages, hobj, Option.map_some, hnew _ _ (.inr rfl), hcopy]
      rfl
    · have hcv : ¬ (k = m' ∧ c.Has v) := by rw [hcopy]; exact h2
      rw [if_neg hcv] at hobj
      rw [if_neg h2, h.toExtends.pages hB hc' hobj]

/-! ## The loop -/

/-- All areas are private areas of anonymous objects, except the copies `l'` in map `m'`. -/
def Anonymity (s : State) (m' : Nat) (l' : List VmArea) : Prop :=
  ∀ k, ∀ d ∈ s.vmm_list k, (k = m' ∧ d ∈ l') ∨ AnonArea s d

theorem Anonymity.area (h : Anonymity s m' l') (hm : m ≠ m') (ha : a ∈ s.vmm_list m) : AnonArea s a := by
  rcases h m a ha with ⟨e, -⟩ | hA
  · exact absurd e hm
  · exact hA

theorem Anonymity.next (h : Anonymity s m' (c :: l')) (hL : Layout C s) (hc' : Chains s') (hm : m ≠ m') (ha : a ∈ s.vmm_list m)
    (hc : c ∈ s.vmm_list m') (hcopy : ∃ i, c = cloneArea m' i a) (heff : ForkEffect s p m m' a c s')
    (ho : a.vma_obj = some o) (hsh : Shadowed s m m' a c o s') : Anonymity s' m' l' := by
  have hA := h.area hm ha
  have hanon (x : Nat) (hx : x = s.nobjs ∨ x = s.nobjs + 1) : s'.Anonymous x := by
    obtain ⟨o', ho', han⟩ := hA.obj
    rw [ho] at ho'
    cases ho'
    exact hc'.anonymous (hsh.parent x hx) (han.more hsh.objs)
  intro k d hd
  rcases heff.areas hL ha hc hm hd with ⟨hd, -, hne⟩ | ⟨-, -, rfl⟩ | ⟨-, -, rfl⟩ | ⟨-, hs, -⟩
  · rcases h k d hd with ⟨rfl, hd⟩ | hd'
    · rcases List.mem_cons.1 hd with e | hd
      · exact absurd e (hne rfl)
      · exact .inl ⟨rfl, hd⟩
    · exact .inr (hd'.part hsh.objs rfl rfl rfl)
  · exact .inr ⟨hA.priv, hA.read, hA.write, _, rfl, hanon _ (.inl rfl)⟩
  · obtain ⟨i, rfl⟩ := hcopy
    exact .inr ⟨hA.priv, hA.read, hA.write, _, rfl, hanon _ (.inr rfl)⟩
  · rw [hA.priv] at hs
    cases hs

/-- The loop of `do_fork` shows the pages of the areas `l` in map `m'` too. -/
theorem fork_areas_pages (hheld : ∀ o, 0 ≤ held o) (hm : m ≠ m') (hl : List.Forall₂ (fun a c => ∃ i, c = cloneArea m' i a) l l') :
    ∀ {s : State}, Backing C held s → (∀ o, s.nobjs ≤ o → held o = 0) → Copying s m m' l l' → Anonymity s m' l' →
      fork_areas p m m' s l l' = some s' → s'.procs = s.procs ∧ Anonymity s' m' [] ∧
        (∀ k v, (k = m' → ∀ a ∈ l, ¬ a.Has v) → s'.pages k v = s.pages k v) ∧
        ∀ a ∈ l, ∀ v, a.Has v → s'.pages m' v = s.pages m v := by
  induction hl with
  | nil =>
    intro s _ _ _ hA hf
    cases hf
    exact ⟨rfl, hA, fun _ _ _ => rfl, fun _ hb => absurd hb List.not_mem_nil⟩
  | @cons a c l l' hcopy _ ih =>
    intro s h h0 hcopying hA hf
    simp only [fork_areas, bind, Option.bind_eq_some_iff] at hf
    obtain ⟨s₁, h1, h2⟩ := hf
    obtain ⟨ha, o, ho⟩ := hcopying.old a List.mem_cons_self
    obtain ⟨hc, hnone⟩ := hcopying.new c List.mem_cons_self
    have heff := fork_area_effect h1
    obtain ⟨o', ho', hsh⟩ := heff.shadowed h hm ha hc (hA.area hm ha).priv
    rw [ho] at ho'
    cases ho'
    obtain ⟨s₁', h1', hcopied⟩ := fork_area_total (p := p) h hheld h0 hm ha hc ho hnone (by obtain ⟨i, rfl⟩ := hcopy; rfl)
    rw [h1] at h1'
    cases h1'
    have hc₁ := hcopied.backing.chains
    obtain ⟨hprocs, hA', hkept, hshown⟩ := ih hcopied.backing (fun o ho => h0 o (hcopied.nobjs.trans ho))
      (hcopying.next hm hcopied) (hA.next h.layout hc₁ hm ha hc hcopy heff ho hsh) h2
    obtain ⟨i, hi⟩ := hcopy
    have hpages := hsh.pages h hc₁ hm ha ho hi
    refine ⟨hprocs.trans (heff.rest h.chains).2.2.1, hA', fun k v hk => ?_, fun d hd v hv => ?_⟩
    · rw [hkept k v fun e d hd => hk e d (List.mem_cons_of_mem a hd), hpages, if_neg fun e => hk e.1 a List.mem_cons_self e.2]
    · by_cases hl : ∃ d' ∈ l, d'.Has v
      · obtain ⟨d', hd', hv'⟩ := hl
        rw [hshown d' hd' v hv', hpages, if_neg fun e => hm e.1]
      · -- the page is in `a`, and no later turn changes it
        rcases List.mem_cons.1 hd with rfl | hd
        · rw [hkept m' v fun _ d' hd' hv' => hl ⟨d', hd', hv'⟩, hpages, if_pos ⟨rfl, hv⟩]
        · exact absurd ⟨d, hd, hv⟩ hl

/-! ## `do_fork` -/

theorem Secluded.settled (h : Secluded C held s) : Settled s := fun m a ha => by
  obtain ⟨o, ho, -⟩ := (h.anons m a ha).obj
  exact ⟨o, ho⟩

/-- `fork` gives the child, a new process, the memory of the parent. -/
theorem Secluded.fork (h : Secluded C held s) {child : Nat} (hf : do_fork s p = some (s', child)) :
    Secluded C held s' ∧ ∃ f, s.memory p = some f ∧ s.memory child = none ∧ s'.memory = Function.update s.memory child (some f) := by
  have hS := h.toLinked.fork onChain_reads hf
  obtain ⟨pr, hpr⟩ : ∃ pr, s.procs p = some pr := by
    simp only [do_fork, bind, Option.bind_eq_some_iff] at hf
    obtain ⟨pr, hpr, -⟩ := hf
    exact ⟨pr, hpr⟩
  have hmap := (h.owned.live p pr hpr).2
  have hm : pr.p_vmmap ≠ s.nmaps + 1 := by omega
  rw [do_fork_eq hpr hmap, Option.map_eq_some_iff] at hf
  obtain ⟨t, hloop, heq⟩ := hf
  cases heq
  have hA₁ : Anonymity (vmmap_clone (proc_create s) pr.p_vmmap) (s.nmaps + 1)
      (cloneAreas (s.nmaps + 1) s.nareas (s.vmm_list pr.p_vmmap)) := by
    intro k d hd
    rw [fork_lists hmap] at hd
    split at hd
    next e => exact .inl ⟨e, hd⟩
    next =>
      split at hd
      · cases hd
      · exact .inr ((h.anons k d hd).part (fun _ _ hy => hy) rfl rfl rfl)
  have hpages₁ {k : Nat} (hk : k < s.nmaps) (v : Nat) : (vmmap_clone (proc_create s) pr.p_vmmap).pages k v = s.pages k v := by
    simp only [State.pages, State.objPage, fork_lists hmap, if_neg hk.ne, if_neg (show k ≠ s.nmaps + 1 by omega)]
    rfl
  obtain ⟨hprocs, hA, hkept, hshown⟩ := fork_areas_pages h.outside.nonneg hm (cloneAreas_copies _ _ _)
    (vmmap_clone_backing (proc_create_backing h.backing)) h.fresh (fork_copying h.backing h.settled hmap) hA₁ hloop
  have hprocs' (q : Nat) (hq : q ≠ s.nprocs) : (setBrk (t.setProc s.nprocs (some ⟨s.nmaps + 1, pr.p_start_brk, pr.p_files⟩))
      s.nprocs (t.p_brk p)).procs q = s.procs q := by
    refine (Function.update_of_ne hq ..).trans ?_
    rw [hprocs]
    exact Function.update_of_ne hq ..
  refine ⟨⟨hS.linked, fun k d hd => ?_⟩, _, memory_of hpr, memory_none h.owned.next, memory_update
    (fun q pr' hq hpr' => ⟨by rw [hprocs' q hq, hpr'], fun v => ?_⟩) (fun q hq hnone => by rw [hprocs' q hq, hnone]) ?_⟩
  · rcases hA k d hd with ⟨-, hd⟩ | hd
    · cases hd
    · exact hd.part (fun _ _ hy => hy) rfl rfl rfl
  · have hk := (h.owned.live q pr' hpr').2
    exact (hkept _ v fun e => absurd e (by omega)).trans (hpages₁ hk v)
  · rw [memory_of (Function.update_self ..)]
    congr 1
    funext v
    by_cases hv : ∃ a ∈ s.vmm_list pr.p_vmmap, a.Has v
    · obtain ⟨a, ha, hv⟩ := hv
      exact (hshown a ha v hv).trans (hpages₁ hmap v)
    · have hout : ∀ a ∈ s.vmm_list pr.p_vmmap, ¬ a.Has v := fun a ha hav => hv ⟨a, ha, hav⟩
      rw [pages_none hout]
      refine (hkept _ v fun _ => hout).trans (pages_none fun c hc hcv => ?_)
      rw [fork_child hmap] at hc
      obtain ⟨a, ha, i, -, -, rfl⟩ := mem_cloneAreas hc
      exact hout a ha hcv

end Weenix.Vm
