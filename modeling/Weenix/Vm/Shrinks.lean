import Weenix.Vm.EntryRuns
/-!
# What the operations on areas and processes leave alone

None of them stores in a page, on disk or among the dirty marks, makes a frame
or maps a page: frames and entries may only go (`step_shrunk`).
-/

namespace Weenix.Vm

open Lib Lib.Intervals

variable {C : Config} {E : Env} {s s' t : State} {o p m lo fin : Nat} {a c : VmArea} {pre l l' : List VmArea} {done : Bool}
  {pr : Proc}

/-- What pages hold and the dirty marks stay; frames and entries may go. -/
structure Shrunk (s s' : State) : Prop where
  mem : s'.mem = s.mem
  disk : s'.disk = s.disk
  dirty : s'.pf_dirty = s.pf_dirty
  frames : ∀ pf ∈ s'.pframes, pf ∈ s.pframes
  pagedir : NoNewMapping s s'

namespace Shrunk

theorem same (h1 : s'.mem = s.mem) (h2 : s'.disk = s.disk) (h3 : s'.pf_dirty = s.pf_dirty) (h4 : s'.pframes = s.pframes)
    (h5 : NoNewMapping s s') : Shrunk s s' := ⟨h1, h2, h3, fun _ h => h4 ▸ h, h5⟩

theorem refl (s : State) : Shrunk s s := .same rfl rfl rfl rfl (.refl s)

theorem trans (h : Shrunk s t) (h' : Shrunk t s') : Shrunk s s' :=
  ⟨h'.mem.trans h.mem, h'.disk.trans h.disk, h'.dirty.trans h.dirty, fun pf hpf => h.frames pf (h'.frames pf hpf),
    h.pagedir.trans h'.pagedir⟩

end Shrunk

/-! ## Dropping references -/

theorem pframe_unpin_shrunk (s : State) (pg : Nat) : Shrunk s (pframe_unpin s pg) := by
  unfold pframe_unpin
  split
  · dsimp only
    split
    · exact .same rfl rfl rfl rfl (.of_eq rfl)
    · exact .same rfl rfl rfl rfl (.of_eq rfl)
  · exact .refl s

theorem pframe_release_shrunk {pf : Pframe} (h : pframe_release s pf = some s') : Shrunk s s' := by
  have hno := pframe_release_noNew h
  simp only [pframe_release, pframe_remove_from_pts, bind, Option.bind_eq_some_iff, Option.some.injEq] at h
  obtain ⟨-, -, -, -, s₁, ⟨b, -, h1⟩, rfl⟩ := h
  obtain ⟨pd, rfl⟩ := remove_from_areas_only h1
  exact ⟨rfl, rfl, rfl, fun q hq => List.mem_of_mem_erase hq, hno⟩

theorem shrunk_putSteps : PutSteps Shrunk where
  refl := .refl
  trans := .trans
  count _ _ _ := .same rfl rfl rfl rfl (.of_eq rfl)
  num _ _ := .same rfl rfl rfl rfl (.of_eq rfl)
  temp _ _ := .same rfl rfl rfl rfl (.of_eq rfl)
  unpin := pframe_unpin_shrunk
  release := pframe_release_shrunk
  free _ _ := .same rfl rfl rfl rfl (.of_eq rfl)

/-! ## Removing -/

theorem RemoveEffect.shrunk (h : RemoveEffect s p m lo fin pre l a s' done) : Shrunk s s' := by
  have hno := h.noNew
  cases h with
  | split _ _ _ _ hr =>
    obtain ⟨-, rfl⟩ := mmobj_ref_cases hr
    exact .same rfl rfl rfl rfl hno
  | trim => exact .same rfl rfl rfl rfl hno
  | @drop o b s₁ _ _ _ _ hp =>
    have h1 : Shrunk s (s.unlinkVma b a.vma_id) := .same rfl rfl rfl rfl (.of_eq rfl)
    have h2 := h1.trans (shrunk_putSteps.put hp)
    exact ⟨h2.mem, h2.disk, h2.dirty, h2.frames, hno⟩
  | keep => exact .refl s

theorem vmmap_remove_shrunk {npages : Nat} (hL : Layout C s) (hlt : lo + npages < 2 ^ 32)
    (h : vmmap_remove C s p m lo npages = some s') : Shrunk s s' :=
  (vmmap_remove_rule (I := Shrunk s) hlt (fun _ _ heff hI => hI.trans heff.shrunk) hL (.refl s) h).2

theorem exit_process_shrunk {code : Int} (hL : Layout C s) (h : exit_process C s p code = some s') : Shrunk s s' := by
  simp only [exit_process, bind, Option.bind_eq_some_iff, Option.some.injEq] at h
  obtain ⟨pr, -, s₁, hd, rfl⟩ := h
  have h1 := (vmmap_destroy_rule (I := Shrunk s) (fun _ _ _ heff hI => hI.trans heff.shrunk) hL (.refl s) hd).2.1
  exact h1.trans (.same rfl rfl rfl rfl (.of_eq rfl))

/-! ## Mapping -/

theorem AttachEffect.shrunk {area area' : VmArea} {file : Option Nat} {flags : MapFlags}
    (h : AttachEffect s area file flags s' area') : Shrunk s s' := by
  cases h with
  | shared => exact .same rfl rfl rfl rfl (.of_eq rfl)
  | unset => exact .refl s
  | anon => exact .same rfl rfl rfl rfl (.of_eq rfl)
  | file => exact .same rfl rfl rfl rfl (.of_eq rfl)

theorem MapEffect.shrunk {file : Option Nat} {lopage npages off : Nat} {prot : Prot} {flags : MapFlags} {dir : Dir}
    {r : Except Errno Nat} (hL : Layout C s) (h : MapEffect C s p m file lopage npages prot flags off dir s' r) :
    Shrunk s s' := by
  have h₀ : Shrunk s s.vmarea_alloc := .same rfl rfl rfl rfl (.of_eq rfl)
  cases h with
  | noroom => exact h₀
  | @mapped start s₁ s₂ area hfrom _ _ _ hat =>
    have h₁ : Shrunk s s₁ := by
      rcases hfrom with rfl | ⟨hlt, hr⟩
      · exact h₀
      · exact h₀.trans (vmmap_remove_shrunk (hL.more (Nat.le_succ _)) hlt hr)
    exact (h₁.trans (attachObject_effect hat).shrunk).trans (.same rfl rfl rfl rfl (.of_eq rfl))

theorem do_mmap_shrunk {addr len off : Nat} {prot : Prot} {flags : MapFlags} {fd : Int} {r : Except Errno Nat}
    (hL : Layout C s) (hlen : len < 2 ^ 32) (h : do_mmap C s p addr len prot flags fd off = some (s', r)) : Shrunk s s' := by
  obtain ⟨pr, -, heff⟩ := do_mmap_effect h
  cases heff with
  | failed => exact .same rfl rfl rfl rfl (.of_eq rfl)
  | @mapped fs fs' file lopage start s₁ _ _ hmap =>
    have h₀ : Shrunk s (s.setFiles fs) := .same rfl rfl rfl rfl (.of_eq rfl)
    obtain ⟨-, hm⟩ := vmmap_map_effect hL.setFiles (roundLen_pages hlen) hmap
    exact (h₀.trans (hm.shrunk hL.setFiles)).trans (.same rfl rfl rfl rfl (.of_eq rfl))

/-! ## Processes -/

theorem proc_create_pagedir (s : State) : NoNewMapping s (proc_create s) := by
  intro q v pte hpte
  simp only [proc_create] at hpte
  by_cases e : q = s.nprocs
  · rw [e, Function.update_self] at hpte
    cases hpte
  · rwa [Function.update_of_ne e] at hpte

theorem ForkEffect.shrunk {m' : Nat} (h : ForkEffect s p m m' a c s') : Shrunk s s' := by
  cases h with
  | shared => exact .same rfl rfl rfl rfl (.of_eq rfl)
  | @priv o b s₁ _ _ _ _ hpd hframes _ hmem hdisk hdirty =>
    have h1 : NoNewMapping s ((s₁.modArea m' c.vma_id (VmArea.withObj (some (s.nobjs + 1)))).modArea m a.vma_id
        (VmArea.withObj (some s.nobjs))) := .of_eq hpd
    exact .same hmem hdisk hdirty hframes (h1.trans (pt_unmap_range_noNew _ _))

theorem fork_areas_shrunk {m' : Nat} (h : fork_areas p m m' s l l' = some s') : Shrunk s s' := by
  induction l generalizing l' s with
  | nil =>
    cases h
    exact .refl _
  | cons a l ih =>
    cases l' with
    | nil =>
      cases h
      exact .refl _
    | cons c l' =>
      simp only [fork_areas, bind, Option.bind_eq_some_iff] at h
      obtain ⟨s₁, h1, h2⟩ := h
      exact (fork_area_effect h1).shrunk.trans (ih h2)

theorem do_fork_shrunk {child : Nat} (h : do_fork s p = some (s', child)) : Shrunk s s' := by
  simp only [do_fork, bind, Option.bind_eq_some_iff, Option.some.injEq, Prod.mk.injEq] at h
  obtain ⟨pr, -, s₁, hf, rfl, -⟩ := h
  have h₀ : Shrunk s (vmmap_clone (proc_create s) pr.p_vmmap) :=
    .same rfl rfl rfl rfl ((proc_create_pagedir s).trans (.of_eq rfl))
  exact (h₀.trans (fork_areas_shrunk hf)).trans (.same rfl rfl rfl rfl (.of_eq rfl))

/-! ## Every event -/

/-- The event is a user access, a copy or a page-out. -/
def Event.touches : Event → Bool
  | .load .. | .store .. | .copyout .. | .pageout => true
  | _ => false

theorem step_shrunk {e : Event} {w : Outcome} (hL : Layout C s) (he : e.Sane) (hno : e.touches = false)
    (h : step C E s e = some (s', w)) : Shrunk s s' := by
  cases e with
  | spawn =>
    cases h
    exact .same rfl rfl rfl rfl (proc_create_pagedir s)
  | opened p fd f mode vn =>
    simp only [step, bind, Option.bind_eq_some_iff, Option.some.injEq, Prod.mk.injEq] at h
    obtain ⟨pr, hpr, -, -, rfl, -⟩ := h
    exact .same rfl rfl rfl rfl (.of_eq rfl)
  | mmap p addr len prot flags fd off =>
    simp only [step, bind, Option.bind_eq_some_iff, Option.some.injEq, Prod.mk.injEq, Prod.exists] at h
    obtain ⟨s₁, r, hm, rfl, -⟩ := h
    exact do_mmap_shrunk hL he.2.1 hm
  | munmap p addr len =>
    simp only [step, bind, Option.bind_eq_some_iff, Option.some.injEq, Prod.mk.injEq, Prod.exists] at h
    obtain ⟨s₁, r, hm, rfl, -⟩ := h
    rcases do_munmap_cases hm with ⟨rfl, -⟩ | ⟨pr, -, hr, -⟩
    · exact .refl s₁
    · exact vmmap_remove_shrunk hL (munmap_bound he.1 he.2) hr
  | remove p lopage npages =>
    simp only [step, bind, Option.bind_eq_some_iff, Option.some.injEq, Prod.mk.injEq] at h
    obtain ⟨pr, -, s₁, hr, rfl, -⟩ := h
    obtain ⟨h1, h2⟩ := he
    exact vmmap_remove_shrunk hL (by omega) hr
  | fork p =>
    simp only [step, bind, Option.bind_eq_some_iff, Option.some.injEq, Prod.mk.injEq, Prod.exists] at h
    obtain ⟨s₁, c, hf, rfl, -⟩ := h
    exact do_fork_shrunk hf
  | exit p =>
    simp only [step, bind, Option.bind_eq_some_iff, Option.some.injEq, Prod.mk.injEq] at h
    obtain ⟨s₁, hx, rfl, -⟩ := h
    exact exit_process_shrunk hL hx
  | load => cases hno
  | store => cases hno
  | copyout => cases hno
  | pageout => cases hno

end Weenix.Vm
