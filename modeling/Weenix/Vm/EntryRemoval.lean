import Weenix.Vm.Entries
/-!
# Entries across removals

`vmmap_remove` unmaps the pages it removes, and frees only the pages of objects
that no area reads any more. So the entries that are left stay right, in every
process.
-/

namespace Weenix.Vm

open Lib Lib.Intervals

variable {C : Config} {R : FrameRel} {s s' t : State} {o b m p v pn lo fin : Nat} {a c : VmArea} {pre l : List VmArea}
  {done : Bool} {pf : Pframe} {pte : Pte} {pr : Proc} {held : Nat → Int}

/-! ## What areas read -/

/-- An object that an area reads through has references besides those of its pages. -/
theorem Backing.reaches_pos (h : Backing C held s) (hheld : ∀ o, 0 ≤ held o) (ha : a ∈ s.vmm_list m) (ho : a.vma_obj = some o)
    {y : Nat} (hy : Layers.Reaches s.parent o y) : s.mmo_nrespages y < s.mmo_refcount y := by
  rcases Relation.ReflTransGen.cases_tail hy with rfl | ⟨x, -, hx⟩
  · exact h.area_pos hheld ha ho
  · unfold State.parent at hx
    obtain ⟨ob, hob, hbelow⟩ := Option.bind_eq_some_iff.1 hx
    have hs : ob.mmo_ops = .shadow := by
      by_contra e
      rw [h.chains.root x ob hob e] at hbelow
      cases hbelow
    obtain ⟨below, b, e1, -, e3, -⟩ := h.chains.shadow x ob hob hs
    rw [e1] at hbelow
    cases hbelow
    obtain ⟨oby, hoby⟩ := Chains.of_bottom e3
    have hpos := shadowsOf_pos h.chains hob hs e1
    have hcount := h.counted _ oby hoby
    have hnonneg := hheld y
    simp only [State.refsTo] at hcount
    omega

/-- Other frames stay when those of an object are gone. -/
theorem Emptied.frame? (h : Emptied s o t) {y : Nat} (hy : y ≠ o) : t.frame? y pn = s.frame? y pn := by
  unfold State.frame?
  rw [h.pframes, List.find?_filter]
  congr 1
  funext pf
  by_cases e : pf.pf_obj = y
  · simp [e, hy]
  · simp [e]

/-- `put` takes frames away from an object that has no references left. -/
theorem PutEffect.frame? (h : PutEffect s o t) (y : Nat) : t.frame? y pn = s.frame? y pn ∨ t.mmo_refcount y = 0 := by
  cases h with
  | counted => exact .inl rfl
  | emptied _ he h0 =>
    by_cases e : y = o
    · rw [e]
      exact .inr h0
    · exact .inl (he.frame? e)

theorem PutEffect.noNew (h : PutEffect s o t) : NoNewMapping s t := by
  cases h with
  | counted => exact .of_eq rfl
  | emptied _ he =>
    intro q v pte hpte
    rcases he.pagedir q v with e | e
    · rwa [e] at hpte
    · rw [e] at hpte
      cases hpte

/-! ## One turn -/

theorem pt_unmap_range_self (s : State) (p lo hi v : Nat) (h1 : lo ≤ v) (h2 : v < hi) :
    (s.pt_unmap_range p lo hi).p_pagedir p v = none := by
  simp [State.pt_unmap_range, h1, h2]

/-- A turn only takes entries away. -/
theorem RemoveEffect.noNew (h : RemoveEffect s p m lo fin pre l a s' done) : NoNewMapping s s' := by
  cases h with
  | split _ _ _ _ hr =>
    obtain ⟨-, rfl⟩ := mmobj_ref_cases hr
    exact .trans (.of_eq rfl) (pt_unmap_range_noNew _ _)
  | trim => exact .trans (.of_eq rfl) (pt_unmap_range_noNew _ _)
  | @drop o b s₁ _ _ _ _ hp =>
    have h1 : NoNewMapping s (s.unlinkVma b a.vma_id) := .of_eq rfl
    have h2 : NoNewMapping s₁ (s₁.setList m (pre ++ l)) := .of_eq rfl
    exact ((h1.trans (noNew_putSteps.put hp)).trans h2).trans (pt_unmap_range_noNew _ _)
  | keep => exact .refl s

/-- The pages of `a` that are still mapped are in its pieces. -/
theorem RemoveEffect.mapped (h : RemoveEffect s p m lo fin pre l a s' done) (hv : a.Has v) (hpte : s'.p_pagedir p v = some pte) :
    ∃ d ∈ pieces m s.nareas lo fin a, d.Has v := by
  have hne : s'.p_pagedir p v ≠ none := by rw [hpte]; simp
  cases h with
  | split h1 h2 =>
    refine pieces_complete hv ?_
    by_contra hin
    rw [not_or, not_lt, not_le] at hin
    exact hne (pt_unmap_range_self _ p lo fin v hin.1 hin.2)
  | @trim a' x y _ _ h2 _ _ _ _ _ hrest =>
    refine ⟨a', by rw [h2]; simp, hrest v hv fun hin => ?_⟩
    exact hne (pt_unmap_range_self _ p x y v hin.1 hin.2)
  | drop => exact absurd (pt_unmap_range_self _ p a.vma_start a.vma_end v hv.1 hv.2) hne
  | keep _ h2 => exact ⟨a, by rw [h2]; simp, hv⟩

/-- Frames that a turn takes away are those of an object without references. -/
theorem Backing.turn_frame? (h : Backing C held s) (hheld : ∀ o, 0 ≤ held o) (hlist : s.vmm_list m = pre ++ a :: l)
    (heff : RemoveEffect s p m lo fin pre l a s' done) (y : Nat) : s'.frame? y pn = s.frame? y pn ∨ s'.mmo_refcount y = 0 := by
  cases heff with
  | keep => exact .inl rfl
  | trim => exact .inl rfl
  | split _ _ _ _ hr =>
    obtain ⟨-, rfl⟩ := mmobj_ref_cases hr
    exact .inl rfl
  | @drop o b s₁ _ _ ho _ hp =>
    obtain ⟨t, hput, he⟩ := h.put_area hheld (by rw [hlist]; simp) ho b
    rw [hp] at hput
    cases hput
    exact he.frame? y

/-- After a turn every area is an area there was, or a piece of `a`. -/
theorem RemoveEffect.area (h : RemoveEffect s p m lo fin pre l a s' done) (hlist : s.vmm_list m = pre ++ a :: l)
    {m' : Nat} (hc : c ∈ s'.vmm_list m') : c ∈ s.vmm_list m' ∨ (m' = m ∧ c ∈ pieces m s.nareas lo fin a) := by
  have hl : s'.vmm_list = Function.update s.vmm_list m (pre ++ pieces m s.nareas lo fin a ++ l) :=
    congrArg Spaces.vmm_list (h.spaces hlist)
  rw [hl] at hc
  by_cases e : m' = m
  · subst e
    rw [Function.update_self] at hc
    simp only [List.mem_append, or_assoc] at hc
    rw [hlist]
    simp only [List.mem_append, List.mem_cons]
    tauto
  · rw [Function.update_of_ne e] at hc
    exact .inl hc

/-- Areas besides `a` stay, and the pieces of `a` come. -/
theorem RemoveEffect.area_mem (h : RemoveEffect s p m lo fin pre l a s' done) (hlist : s.vmm_list m = pre ++ a :: l)
    {m' : Nat} (hc : c ∈ s.vmm_list m') : c ∈ s'.vmm_list m' ∨ (m' = m ∧ c = a) := by
  have hl : s'.vmm_list = Function.update s.vmm_list m (pre ++ pieces m s.nareas lo fin a ++ l) :=
    congrArg Spaces.vmm_list (h.spaces hlist)
  rw [hl]
  by_cases e : m' = m
  · subst e
    rw [hlist] at hc
    rw [Function.update_self]
    simp only [List.mem_append, List.mem_cons] at hc ⊢
    tauto
  · rw [Function.update_of_ne e]
    exact .inl hc

theorem RemoveEffect.piece_mem (h : RemoveEffect s p m lo fin pre l a s' done) (hlist : s.vmm_list m = pre ++ a :: l)
    (hc : c ∈ pieces m s.nareas lo fin a) : c ∈ s'.vmm_list m := by
  have hl : s'.vmm_list = Function.update s.vmm_list m (pre ++ pieces m s.nareas lo fin a ++ l) :=
    congrArg Spaces.vmm_list (h.spaces hlist)
  rw [hl, Function.update_self]
  simp [hc]

theorem Layout.pieceOf (hL : Layout C s) (hlf : lo ≤ fin) (ha : a ∈ s.vmm_list m) {id : Nat} (hc : c ∈ pieces m id lo fin a) :
    PieceOf lo fin c a := by
  have hC := C.high_lt
  have hok := hL.areas m
  exact pieceOf_mem hlf (hok.sorted.nonempty a ha) ((hok.high a ha).trans_lt (by omega)) hc

theorem Apart.turn (hA : Apart s) (h : Backing C held s) (hheld : ∀ o, 0 ≤ held o) (hlf : lo ≤ fin)
    (hlist : s.vmm_list m = pre ++ a :: l) (heff : RemoveEffect s p m lo fin pre l a s' done) : Apart s' := by
  have ha : a ∈ s.vmm_list m := by rw [hlist]; simp
  obtain ⟨hobjs, -⟩ := h.turn_objs hheld hlist heff
  refine hA.parts (parent_congr hobjs) fun m' c hc => ?_
  rcases heff.area hlist hc with hc | ⟨rfl, hc⟩
  · exact ⟨c, hc, rfl, rfl, rfl⟩
  · have hp := h.layout.pieceOf hlf ha hc
    exact ⟨a, ha, hp.obj, hp.delta, by rw [hp.flags]⟩

theorem Entries.turn (hR : OnChain R) (hE : Entries R s) (h : Backing C held s) (hheld : ∀ o, 0 ≤ held o) (hO : Owned s)
    (hpr : s.procs p = some pr) (hlf : lo ≤ fin) (hlist : s.vmm_list pr.p_vmmap = pre ++ a :: l)
    (heff : RemoveEffect s p pr.p_vmmap lo fin pre l a s' done) : Entries R s' := by
  have ha : a ∈ s.vmm_list pr.p_vmmap := by rw [hlist]; simp
  have h' : Backing C held s' := h.turn hheld hlf hlist heff
  obtain ⟨hobjs, hnobjs⟩ := h.turn_objs hheld hlist heff
  have hprocs : s'.procs = s.procs := congrArg Spaces.procs (heff.spaces hlist)
  have hpar := parent_congr hobjs
  refine hE.keep hR h.chains h'.chains heff.noNew fun q v pte pr' c o pf hpte he => ?_
  -- the area of the entry, up to its pages, is still there
  have hstay : ∃ c' ∈ s'.vmm_list pr'.p_vmmap, c'.Has v ∧ c'.vma_obj = some o ∧ c'.pagenum v = c.pagenum v := by
    rcases heff.area_mem hlist he.area with hc | ⟨hm, rfl⟩
    · exact ⟨c, hc, he.has, he.obj, rfl⟩
    · obtain rfl : q = p := hO.own q p pr' pr he.proc hpr hm
      obtain ⟨d, hd, hdv⟩ := heff.mapped he.has hpte
      have hp := h.layout.pieceOf hlf ha hd
      rw [hm]
      exact ⟨d, heff.piece_mem hlist hd, hdv, hp.obj.trans he.obj, hp.pagenum v hdv⟩
  obtain ⟨c', hc', hrest⟩ := hstay
  refine ⟨⟨pr', c', by rw [hprocs]; exact he.proc, hc', hrest⟩, fun y hy => ⟨congrFun hpar y, .inl ?_⟩⟩
  rcases h.turn_frame? hheld hlist heff y with e | e
  · exact e
  · have := h'.reaches_pos hheld hc' hrest.2.1 (by rw [hpar]; exact hy)
    omega

/-! ## Removing and destroying -/

/-- The references are accounted for, maps have owners, and entries map what they should. -/
structure Paged (R : FrameRel) (C : Config) (held : Nat → Int) (s : State) : Prop where
  backing : Backing C held s
  owned : Owned s
  apart : Apart s
  entries : Entries R s

/-- The same with a process, which what others do leaves alone. -/
structure Tied (R : FrameRel) (C : Config) (held : Nat → Int) (p : Nat) (pr : Proc) (s : State) : Prop extends
    Paged R C held s where
  proc : s.procs p = some pr

theorem Tied.turn (hR : OnChain R) (h : Tied R C held p pr s) (hheld : ∀ o, 0 ≤ held o) (hlf : lo ≤ fin)
    (hlist : s.vmm_list pr.p_vmmap = pre ++ a :: l) (heff : RemoveEffect s p pr.p_vmmap lo fin pre l a s' done) :
    Tied R C held p pr s' := by
  have hsp := heff.spaces hlist
  exact ⟨⟨h.backing.turn hheld hlf hlist heff, h.owned.withList h.proc hsp, h.apart.turn h.backing hheld hlf hlist heff,
    h.entries.turn hR h.backing hheld h.owned h.proc hlf hlist heff⟩, (congrFun (congrArg Spaces.procs hsp) p).trans h.proc⟩

theorem Tied.remove (hR : OnChain R) (h : Tied R C held p pr s) (hheld : ∀ o, 0 ≤ held o) {npages : Nat}
    (hlt : lo + npages < 2 ^ 32) (hr : vmmap_remove C s p pr.p_vmmap lo npages = some s') : Tied R C held p pr s' :=
  (vmmap_remove_rule (I := Tied R C held p pr) hlt
    (fun _ hlist heff hI => hI.turn hR hheld (Nat.le_add_right _ _) hlist heff) h.backing.layout h hr).2

theorem Tied.destroy (hR : OnChain R) (h : Tied R C held p pr s) (hheld : ∀ o, 0 ≤ held o)
    (hd : vmmap_destroy C s p pr.p_vmmap = some s') : Tied R C held p pr s' ∧ s'.vmm_list pr.p_vmmap = [] := by
  obtain ⟨-, hI, hsp⟩ := vmmap_destroy_rule (I := Tied R C held p pr)
    (fun hlf _ hlist heff hI => hI.turn hR hheld hlf hlist heff) h.backing.layout h hd
  have hl : s'.vmm_list = Function.update s.vmm_list pr.p_vmmap [] := congrArg Spaces.vmm_list hsp
  exact ⟨hI, by rw [hl, Function.update_self]⟩

/-- A process that exits has no entries left. -/
theorem Tied.exit (hR : OnChain R) (h : Tied R C held p pr s) (hheld : ∀ o, 0 ≤ held o) {code : Int}
    (hx : exit_process C s p code = some s') : Apart s' ∧ Entries R s' := by
  simp only [exit_process, h.proc, bind, Option.bind_some, Option.bind_eq_some_iff, Option.some.injEq] at hx
  obtain ⟨s₁, hd, rfl⟩ := hx
  obtain ⟨h1, hnil⟩ := h.destroy hR hheld hd
  refine ⟨h1.apart.same rfl rfl, ?_⟩
  refine h1.entries.keep hR h1.backing.chains (h1.backing.chains.congr rfl rfl) (.of_eq rfl)
    fun q v pte pr' c o pf _ he => ⟨⟨pr', c, ?_, he.area, he.has, he.obj, rfl⟩, fun y _ => ⟨rfl, .inl rfl⟩⟩
  have hq : q ≠ p := by
    rintro rfl
    have harea := he.area
    rw [Option.some.inj (he.proc.symm.trans h1.proc), hnil] at harea
    cases harea
  exact (Function.update_of_ne hq ..).trans he.proc

end Weenix.Vm
