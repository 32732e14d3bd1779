import Weenix.Vm.EntryCopies
import Weenix.Vm.EntryForking
import Weenix.Vm.EntryPageout
import Weenix.Vm.Refs
/-!
# Entries in every run

`Linked` is what holds in the states the system reaches. Every event leads to
such a state with the same objects (`Linked.step`), as long as the pages the
pageout daemon takes are traced, and whatever a copy to user memory does to the
entries is shown by the caller.
-/

namespace Weenix.Vm

open Lib Lib.Intervals

variable {C : Config} {E : Env} {R : FrameRel} {s s' : State} {p : Nat} {pr : Proc} {held : Nat → Int}

/-- The same, where the references from outside are to files and files that can be mapped have objects. -/
structure Linked (R : FrameRel) (C : Config) (held : Nat → Int) (s : State) : Prop extends Paged R C held s where
  outside : Outside held s
  files : FileObjs s

/-- `s'` is such a state too, and has the objects of `s`. -/
structure Stays (R : FrameRel) (C : Config) (held : Nat → Int) (s s' : State) : Prop where
  linked : Linked R C held s'
  objs : ∀ o ob, s.objs o = some ob → s'.objs o = some ob

theorem Stays.trans {t : State} (h : Stays R C held s t) (h' : Stays R C held t s') : Stays R C held s s' :=
  ⟨h'.linked, fun o ob ho => h'.objs o ob (h.objs o ob ho)⟩

/-- Destroying a map makes and frees no object. -/
theorem Backing.destroy_objs {m : Nat} (h : Backing C held s) (hheld : ∀ o, 0 ≤ held o)
    (hd : vmmap_destroy C s p m = some s') : s'.objs = s.objs := by
  have hI := vmmap_destroy_rule (I := fun t => Backing C held t ∧ t.objs = s.objs)
    (fun hlf _ hlist heff ht => ⟨ht.1.turn hheld hlf hlist heff, (ht.1.turn_objs hheld hlist heff).1.trans ht.2⟩)
    h.layout ⟨h, rfl⟩ hd
  exact hI.2.1.2

namespace Linked

/-- The rest stays when vnodes and objects do. -/
theorem keep (h : Linked R C held s) (h' : Paged R C held s') (hobjs : ∀ o ob, s.objs o = some ob → s'.objs o = some ob)
    (hv : s'.vnodes = s.vnodes) : Stays R C held s s' := by
  refine ⟨⟨h', ⟨h.outside.nonneg, fun o ho => ?_⟩, fun vn o ho => ?_⟩, hobjs⟩
  · obtain ⟨ob, hob, hfile⟩ := h.outside.file o ho
    exact ⟨ob, hobjs o ob hob, hfile⟩
  · rw [hv] at ho
    obtain ⟨ob, hob, hfile⟩ := h.files vn o ho
    exact ⟨ob, hobjs o ob hob, hfile⟩

theorem refl (h : Linked R C held s) : Stays R C held s s := ⟨h, fun _ _ ho => ho⟩

theorem tied (h : Linked R C held s) (hpr : s.procs p = some pr) : Tied R C held p pr s := ⟨h.toPaged, hpr⟩

theorem fresh (h : Linked R C held s) : ∀ o, s.nobjs ≤ o → held o = 0 := h.outside.fresh h.backing.chains

/-! ## Processes -/

theorem spawn (hR : OnChain R) (h : Linked R C held s) : Stays R C held s (proc_create s) := by
  have hc := h.backing.chains
  refine h.keep ⟨proc_create_backing h.backing, proc_create_owned h.owned, ?_, ?_⟩ (fun _ _ ho => ho) rfl
  · refine h.apart.parts rfl fun m c hc => ⟨c, ?_, rfl, rfl, rfl⟩
    simp only [proc_create, vmmap_create] at hc
    by_cases e : m = s.nmaps
    · subst e
      simp at hc
    · rwa [Function.update_of_ne e] at hc
  · refine h.entries.keep hR hc (hc.congr rfl rfl) (fun q v pte hpte => ?_) fun q v pte pr a o pf _ he =>
      ⟨⟨pr, a, ?_, ?_, he.has, he.obj, rfl⟩, fun y _ => ⟨rfl, .inl rfl⟩⟩
    · simp only [proc_create] at hpte
      by_cases e : q = s.nprocs
      · subst e
        simp at hpte
      · rwa [Function.update_of_ne e] at hpte
    · exact (Function.update_of_ne (h.owned.live q pr he.proc).1.ne ..).trans he.proc
    · have hm : pr.p_vmmap ≠ s.nmaps := (h.owned.live q pr he.proc).2.ne
      simp only [proc_create, vmmap_create, Function.update_of_ne hm]
      exact he.area

theorem opened (hR : OnChain R) (h : Linked R C held s) (hpr : s.procs p = some pr) (fd f : Nat) (mode : FileMode) (vn : Nat) :
    Stays R C held s (openFile s p pr fd f mode vn) := by
  have hc := h.backing.chains
  have hP : Placed C (openFile s p pr fd f mode vn) := openFile_placed ⟨h.backing.layout, h.owned⟩ hpr
  have hB : Backing C held (openFile s p pr fd f mode vn) := by
    refine ⟨hP.layout, hc.congr rfl rfl, h.backing.frames.congr rfl rfl rfl rfl rfl rfl, h.backing.idle,
      h.backing.hung.congr rfl rfl rfl, h.backing.counted, h.backing.num⟩
  refine h.keep ⟨hB, hP.owned, h.apart.same rfl rfl, ?_⟩ (fun _ _ ho => ho) rfl
  refine h.entries.keep hR hc (hc.congr rfl rfl) (.of_eq rfl) fun q v pte pr' a o pf _ he => ⟨?_, fun y _ => ⟨rfl, .inl rfl⟩⟩
  by_cases e : q = p
  · subst e
    obtain rfl : pr' = pr := Option.some.inj (he.proc.symm.trans hpr)
    exact ⟨_, a, Function.update_self .., he.area, he.has, he.obj, rfl⟩
  · exact ⟨pr', a, (Function.update_of_ne e ..).trans he.proc, he.area, he.has, he.obj, rfl⟩

theorem fork (hR : OnChain R) (h : Linked R C held s) {child : Nat} (hf : do_fork s p = some (s', child)) :
    Stays R C held s s' := by
  have hf' := hf
  simp only [do_fork, bind, Option.bind_eq_some_iff] at hf'
  obtain ⟨pr, hpr, -⟩ := hf'
  obtain ⟨h1, hobjs, -⟩ := (h.tied hpr).fork hR h.outside.nonneg h.fresh hf
  exact h.keep h1.toPaged hobjs (do_fork_live h.backing.layout (fun q pr' hq => (h.owned.live q pr' hq).2) hf).2

theorem exit (hR : OnChain R) (h : Linked R C held s) {code : Int} (hx : exit_process C s p code = some s') :
    Stays R C held s s' := by
  have hx' := hx
  simp only [exit_process, bind, Option.bind_eq_some_iff, Option.some.injEq] at hx'
  obtain ⟨pr, hpr, s₁, hd, rfl⟩ := hx'
  have hT := h.tied hpr
  obtain ⟨hA, hE⟩ := hT.exit hR h.outside.nonneg hx
  obtain ⟨h1, -⟩ := hT.destroy hR h.outside.nonneg hd
  have hsp := (vmmap_destroy_layout h.backing.layout hd).2
  refine h.keep ⟨h1.backing.processes _ s₁.p_brk _, exit_process_owned h.backing.layout h.owned hx, hA, hE⟩ (fun o ob ho => ?_)
    (congrArg Spaces.vnodes hsp :)
  exact (congrFun (h.backing.destroy_objs h.outside.nonneg hd) o).trans ho

/-! ## Areas -/

theorem remove (hR : OnChain R) (h : Linked R C held s) (hpr : s.procs p = some pr) {lo npages : Nat}
    (hlt : lo + npages < 2 ^ 32) (hr : vmmap_remove C s p pr.p_vmmap lo npages = some s') : Stays R C held s s' := by
  refine h.keep ((h.tied hpr).remove hR h.outside.nonneg hlt hr).toPaged (fun o ob ho => ?_)
    (congrArg Spaces.vnodes (vmmap_remove_list hlt h.backing.layout hr) :)
  rw [(vmmap_remove_objs h.backing h.outside.nonneg hlt hr).1]
  exact ho

theorem setFiles (hR : OnChain R) (h : Linked R C held s) (fs : Nat → Option File) : Stays R C held s (s.setFiles fs) := by
  have hB := h.backing
  refine h.keep ⟨⟨hB.layout.setFiles, hB.chains.congr rfl rfl, hB.frames.congr rfl rfl rfl rfl rfl rfl, hB.idle,
    hB.hung.congr rfl rfl rfl, hB.counted, hB.num⟩, h.owned.setFiles, h.apart.same rfl rfl, ?_⟩ (fun _ _ ho => ho) rfl
  exact h.entries.unmap hR hB.chains (.of_eq rfl) rfl rfl rfl rfl rfl

theorem mmap (hR : OnChain R) (h : Linked R C held s) {addr len off : Nat} {prot : Prot} {flags : MapFlags} {fd : Int}
    {r : Except Errno Nat} (hlen : len < 2 ^ 32) (hm : do_mmap C s p addr len prot flags fd off = some (s', r)) :
    Stays R C held s s' := by
  obtain ⟨pr, hpr, heff⟩ := do_mmap_effect hm
  cases heff with
  | failed => exact h.setFiles hR _
  | @mapped fs fs' file lopage start s₁ hkind _ hmap =>
    have h₀ : Linked R C held (s.setFiles fs) := (h.setFiles hR fs).linked
    have hk : flags.shared = !flags.priv := Bool.eq_not.2 hkind
    have hn := roundLen_pages hlen
    obtain ⟨h1, hobjs⟩ := (h₀.tied (p := p) hpr).vmmap_map hR h.outside.nonneg h₀.fresh h₀.files hk hn hmap
    obtain ⟨-, hmeff⟩ := vmmap_map_effect h₀.backing.layout hn hmap
    obtain ⟨l, n, hsp⟩ := hmeff.spaces h₀.backing.layout
    have h2 := h₀.keep h1.toPaged hobjs (congrArg Spaces.vnodes hsp :)
    exact ((h.setFiles hR fs).trans h2).trans (h2.linked.setFiles hR fs')

theorem munmap (hR : OnChain R) (h : Linked R C held s) {addr len : Nat} {r : Except Errno Nat} (ha : addr < 2 ^ 32)
    (hl : len < 2 ^ 32) (hm : do_munmap C s p addr len = some (s', r)) : Stays R C held s s' := by
  rcases do_munmap_cases hm with ⟨rfl, -⟩ | ⟨pr, hpr, hr, -⟩
  · exact h.refl
  · exact h.remove hR hpr (munmap_bound ha hl) hr

/-! ## User accesses -/

theorem fault (hR : OnChain R) (h : Linked R C held s) {vaddr : Nat} {cause : Cause} {r : FaultResult}
    (hf : handle_pagefault C E s p vaddr cause = some (s', r)) : Stays R C held s s' := by
  have heff := handle_pagefault_effect h.backing.layout hf
  cases heff with
  | killed hx => exact h.exit hR hx
  | mapped pr a s₁ pf hpr ha hv _ hframe =>
    have hframe' := hframe
    simp only [fault_frame, bind, Option.bind_eq_some_iff] at hframe'
    obtain ⟨o, ho, -⟩ := hframe'
    obtain ⟨s₁', pf', hframe', hl, hw⟩ := fault_frame_looked (E := E) vaddr h.backing h.outside.nonneg ha ho cause.write
    rw [hframe] at hframe'
    cases hframe'
    have h1 := (h.tied hpr).mapped hR ha hv ho hl hw
    refine h.keep h1.toPaged (fun o ob ho => ?_) (congrArg Spaces.vnodes hl.grown.spaces :)
    exact (congrFun hl.grown.objs o).trans ho

/-- What a page holds is no concern of the entries. -/
theorem setMem (hR : OnChain R) (h : Linked R C held s) (pg : Nat) (x : Page) : Stays R C held s (s.setMem pg x) := by
  have hB := h.backing
  refine h.keep ⟨⟨hB.layout.congr rfl, hB.chains.congr rfl rfl, hB.frames.congr rfl rfl rfl rfl rfl rfl, hB.idle,
    hB.hung.congr rfl rfl rfl, hB.counted, hB.num⟩, h.owned.congr rfl, h.apart.same rfl rfl, ?_⟩ (fun _ _ ho => ho) rfl
  exact h.entries.unmap hR hB.chains (.of_eq rfl) rfl rfl rfl rfl rfl

theorem load (hR : OnChain R) (h : Linked R C held s) {vaddr : Nat} {w : Outcome}
    (hl : userLoad C E s p vaddr = some (s', w)) : Stays R C held s s' := by
  simp only [userLoad, bind] at hl
  split at hl
  · cases hl
    exact h.refl
  · simp only [Option.bind_eq_some_iff, Prod.exists] at hl
    obtain ⟨s₁, r, hf, hl⟩ := hl
    have h1 := h.fault hR hf
    cases r with
    | killed =>
      cases hl
      exact h1
    | mapped =>
      simp only [Option.bind_eq_some_iff, Option.some.injEq, Prod.mk.injEq] at hl
      obtain ⟨-, -, rfl, -⟩ := hl
      exact h1

theorem writePte (hR : OnChain R) (h : Linked R C held s) {vaddr : Nat} {b : UInt8}
    (hw : Vm.writePte s p vaddr b = some s') : Stays R C held s s' := by
  simp only [Vm.writePte] at hw
  split at hw
  · split at hw
    · cases hw
      exact h.setMem hR _ _
    · cases hw
  · cases hw

theorem store (hR : OnChain R) (h : Linked R C held s) {vaddr : Nat} {b : UInt8} {w : Outcome}
    (hs : userStore C E s p vaddr b = some (s', w)) : Stays R C held s s' := by
  simp only [userStore, bind] at hs
  split at hs
  next hw =>
    cases hs
    exact h.writePte hR hw
  · simp only [Option.bind_eq_some_iff, Prod.exists] at hs
    obtain ⟨s₁, r, hf, hs⟩ := hs
    have h1 := h.fault hR hf
    cases r with
    | killed =>
      cases hs
      exact h1
    | mapped =>
      simp only [Option.bind_eq_some_iff, Option.some.injEq, Prod.mk.injEq] at hs
      obtain ⟨s₂, hw, rfl, -⟩ := hs
      exact h1.trans (h1.linked.writePte hR hw)

/-! ## Copies to user memory -/

theorem got (h : Linked R C held s) {o pn : Nat} {pf : Pframe} (hg : Got s o pn s' pf) (hE : Entries R s') :
    Stays R C held s s' := by
  refine h.keep ⟨h.backing.grown hg.grown hg.frames, h.owned.congr hg.grown.spaces, h.apart.grown hg.grown, hE⟩
    (fun o ob ho => ?_) (congrArg Spaces.vnodes hg.grown.spaces :)
  exact (congrFun hg.grown.objs o).trans ho

theorem wrote (hR : OnChain R) (h : Linked R C held s) {pf : Pframe} {x : Page} (hw : Wrote s pf x s') : Stays R C held s s' := by
  have hB := hw.backing h.backing
  cases hw with
  | mk d n =>
    refine h.keep ⟨hB, h.owned.congr rfl, h.apart.same rfl rfl, ?_⟩ (fun _ _ ho => ho) rfl
    exact h.entries.unmap hR h.backing.chains (.of_eq rfl) rfl rfl rfl rfl rfl

/-- A copy fails, or writes. -/
theorem copy_to_user_cases {u n : Nat} {k : Nat → UInt8} {r : Except Errno Unit} (h : copy_to_user E s p u k n = some (s', r)) :
    (s' = s ∧ r = .error .EFAULT) ∨ ∃ pr, s.procs p = some pr ∧
      range_perm (s.vmm_list pr.p_vmmap) u n { write := true } = true ∧ vmmap_write E s pr.p_vmmap u k n = some s' ∧ r = .ok () := by
  simp only [copy_to_user, bind, Option.bind_eq_some_iff] at h
  obtain ⟨pr, hpr, h⟩ := h
  split at h
  next =>
    cases h
    exact .inl ⟨rfl, rfl⟩
  next hperm =>
    simp only [Option.bind_eq_some_iff, Option.some.injEq, Prod.mk.injEq] at h
    obtain ⟨s₁, hw, rfl, rfl⟩ := h
    exact .inr ⟨pr, hpr, by simpa using hperm, hw, rfl⟩

/-- However the pages are got, a chain keeps the frames it has. -/
theorem copy_below (h : Linked State.below C held s) {u n : Nat} {k : Nat → UInt8} {r : Except Errno Unit}
    (hc : copy_to_user E s p u k n = some (s', r)) : Stays State.below C held s s' := by
  rcases copy_to_user_cases hc with ⟨rfl, -⟩ | ⟨pr, -, -, hw, -⟩
  · exact h.refl
  · refine (vmmap_write_rule (I := Stays State.below C held s) h.outside.nonneg
      (fun t t₁ t₂ a v o pf x hB hI ha hv _ _ ho hgot hwrote _ => ?_) h.backing h.refl hw).2
    have hE := hI.linked.entries.grow_below hgot.grown hI.linked.backing.frames hgot.frames
    have h1 := hI.linked.got hgot hE
    exact (hI.trans h1).trans (h1.linked.wrote onChain_below hwrote)

/-! ## Page-outs -/

/-- What a turn of the pageout daemon does to the page it looks at. -/
theorem pageout_cases (h : pageoutd_turn E s = some s') : s' = s ∨ ∃ pf, s.victim = some pf ∧
    ((s.pf_dirty pf.pf_addr = true ∧ pframe_clean E s pf = some s') ∨
      (s.pf_dirty pf.pf_addr = false ∧ pframe_free s pf = some s')) := by
  simp only [pageoutd_turn] at h
  split at h
  next =>
    cases h
    exact .inl rfl
  next pg hpg =>
    simp only [bind, Option.bind_eq_some_iff] at h
    obtain ⟨pf, hfind, h⟩ := h
    have hvictim : s.victim = some pf := by simp [State.victim, hpg, hfind]
    obtain rfl : pf.pf_addr = pg := by simpa using List.find?_some hfind
    split at h
    next =>
      cases h
      exact .inl rfl
    next =>
      refine .inr ⟨pf, hvictim, ?_⟩
      cases hd : s.pf_dirty pf.pf_addr with
      | true => exact .inl ⟨rfl, by simpa [hd] using h⟩
      | false => exact .inr ⟨rfl, by simpa [hd] using h⟩

theorem victim_mem (hB : Backing C held s) {pf : Pframe} (h : s.victim = some pf) :
    pf ∈ s.pframes ∧ s.pf_pincount pf.pf_addr = 0 := by
  unfold State.victim at h
  obtain ⟨pg, hpg, hfind⟩ := Option.bind_eq_some_iff.1 h
  have hm : pf ∈ s.pframes := List.mem_of_find?_eq_some hfind
  have hin : pf.pf_addr ∈ s.alloc_list := by
    obtain rfl : pf.pf_addr = pg := by simpa using List.find?_some hfind
    exact List.mem_of_head? hpg
  obtain ⟨ob, hob⟩ := hB.frames.owner pf hm
  cases hfile : ob.isFile with
  | true => exact ⟨hm, (hB.frames.file pf hm ob hob hfile).1⟩
  | false => exact absurd hin (hB.frames.pinned pf hm ob hob hfile).2.2

theorem pageout (hR : OnChain R) (h : Linked R C held s) (ht : ∀ pf, s.victim = some pf → s.Traced pf)
    (hp : pageoutd_turn E s = some s') : Stays R C held s s' := by
  rcases pageout_cases hp with rfl | ⟨pf, hv, ⟨-, hc⟩ | ⟨-, hf⟩⟩
  · exact h.refl
  · obtain ⟨h1, hobjs, hsp, -⟩ := h.toPaged.clean hR (victim_mem h.backing hv).1 (ht pf hv) hc
    exact h.keep h1 (fun o ob ho => by rw [hobjs]; exact ho) (congrArg Spaces.vnodes hsp :)
  · obtain ⟨hm, hpin⟩ := victim_mem h.backing hv
    obtain ⟨h1, hobjs, hsp, -⟩ := h.toPaged.free hR h.outside.nonneg hm hpin (ht pf hv) hf
    exact h.keep h1 (fun o ob ho => by rw [hobjs]; exact ho) (congrArg Spaces.vnodes hsp :)

/-! ## Every event -/

theorem step (hR : OnChain R) (h : Linked R C held s) {e : Event} {w : Outcome} (he : e.Sane)
    (ht : e = .pageout → ∀ pf, s.victim = some pf → s.Traced pf)
    (hcopy : ∀ p u k n r, e = .copyout p u k n → copy_to_user E s p u k n = some (s', r) → Stays R C held s s')
    (hst : Vm.step C E s e = some (s', w)) : Stays R C held s s' := by
  cases e with
  | spawn =>
    cases hst
    exact h.spawn hR
  | opened p fd f mode vn =>
    simp only [Vm.step, bind, Option.bind_eq_some_iff, Option.some.injEq, Prod.mk.injEq] at hst
    obtain ⟨pr, hpr, -, -, rfl, -⟩ := hst
    exact h.opened hR hpr fd f mode vn
  | mmap p addr len prot flags fd off =>
    simp only [Vm.step, bind, Option.bind_eq_some_iff, Option.some.injEq, Prod.mk.injEq, Prod.exists] at hst
    obtain ⟨s₁, r, hm, rfl, -⟩ := hst
    exact h.mmap hR he.2.1 hm
  | munmap p addr len =>
    simp only [Vm.step, bind, Option.bind_eq_some_iff, Option.some.injEq, Prod.mk.injEq, Prod.exists] at hst
    obtain ⟨s₁, r, hm, rfl, -⟩ := hst
    exact h.munmap hR he.1 he.2 hm
  | remove p lopage npages =>
    simp only [Vm.step, bind, Option.bind_eq_some_iff, Option.some.injEq, Prod.mk.injEq] at hst
    obtain ⟨pr, hpr, s₁, hr, rfl, -⟩ := hst
    obtain ⟨h1, h2⟩ := he
    exact h.remove hR hpr (by omega) hr
  | fork p =>
    simp only [Vm.step, bind, Option.bind_eq_some_iff, Option.some.injEq, Prod.mk.injEq, Prod.exists] at hst
    obtain ⟨s₁, c, hf, rfl, -⟩ := hst
    exact h.fork hR hf
  | load p vaddr =>
    simp only [Vm.step, bind, Option.bind_eq_some_iff] at hst
    obtain ⟨-, -, hst⟩ := hst
    exact h.load hR hst
  | store p vaddr b =>
    simp only [Vm.step, bind, Option.bind_eq_some_iff] at hst
    obtain ⟨-, -, hst⟩ := hst
    exact h.store hR hst
  | copyout p uaddr kmem nbytes =>
    simp only [Vm.step, bind, Option.bind_eq_some_iff, Prod.exists] at hst
    obtain ⟨s₁, r, hc, hst⟩ := hst
    have : s₁ = s' := by
      cases r <;> cases hst <;> rfl
    exact hcopy p uaddr kmem nbytes r rfl (this ▸ hc)
  | pageout =>
    simp only [Vm.step, bind, Option.bind_eq_some_iff, Option.some.injEq, Prod.mk.injEq] at hst
    obtain ⟨s₁, hp, rfl, -⟩ := hst
    exact h.pageout hR (ht rfl) hp
  | exit p =>
    simp only [Vm.step, bind, Option.bind_eq_some_iff, Option.some.injEq, Prod.mk.injEq] at hst
    obtain ⟨s₁, hx, rfl, -⟩ := hst
    exact h.exit hR hx

end Linked

/-- Before the first process there are no areas and no entries. -/
theorem Booted.linked {s₀ : State} (h : Booted s₀) : ∃ held, Linked R C held s₀ := by
  obtain ⟨held, hO, hB⟩ := (h.sound (C := C)).held
  refine ⟨held, ⟨hB, h.placed (C := C).owned, ⟨?_, ?_⟩, fun p v pte hpte => ?_⟩, hO, h.sound (C := C).live.vnodes⟩
  · intro m a ha
    rw [h.lists] at ha
    cases ha
  · intro m a ha
    rw [h.lists] at ha
    cases ha
  · rw [h.pagedir] at hpte
    cases hpte

end Weenix.Vm
