import Weenix.Vm.AddressSpace
import Weenix.Vm.System
/-!
# Address spaces in every run

What every event of the system does to the area lists: `step_placed` keeps the
layout, and `Owned` says which process a map belongs to.
-/

namespace Weenix.Vm

open Lib Lib.Intervals

variable {C : Config} {E : Env} {s s' : State} {p m : Nat}

/-- The arguments of an event are 32-bit words, and page numbers are at most `2^20`. -/
def Event.Sane : Event → Prop
  | .mmap _ addr len _ _ _ off => addr < 2 ^ 32 ∧ len < 2 ^ 32 ∧ off < 2 ^ 32
  | .munmap _ addr len => addr < 2 ^ 32 ∧ len < 2 ^ 32
  | .remove _ lopage npages => lopage ≤ 2 ^ 20 ∧ npages ≤ 2 ^ 20
  | .load _ vaddr => vaddr < 2 ^ 32
  | .store _ vaddr _ => vaddr < 2 ^ 32
  | .copyout _ uaddr _ nbytes => uaddr < 2 ^ 32 ∧ nbytes < 2 ^ 32
  | _ => True

instance (e : Event) : Decidable e.Sane := by
  cases e <;> unfold Event.Sane <;> infer_instance

/-! ## Changing what an area holds -/

/-- `f` leaves the pages, the address and the map of an area alone. -/
structure KeepsArea (f : VmArea → VmArea) : Prop where
  start : ∀ a, (f a).vma_start = a.vma_start
  end_ : ∀ a, (f a).vma_end = a.vma_end
  id : ∀ a, (f a).vma_id = a.vma_id
  owner : ∀ a, (f a).vma_vmmap = a.vma_vmmap

theorem withObj_keeps (o : Option Nat) : KeepsArea (VmArea.withObj o) :=
  ⟨fun _ => rfl, fun _ => rfl, fun _ => rfl, fun _ => rfl⟩

theorem KeepsArea.ite {f : VmArea → VmArea} (hf : KeepsArea f) (id : Nat) :
    KeepsArea (fun a => if a.vma_id = id then f a else a) := by
  constructor <;> intro a <;> split
  · exact hf.start a
  · rfl
  · exact hf.end_ a
  · rfl
  · exact hf.id a
  · rfl
  · exact hf.owner a
  · rfl

theorem AreasOk.map {l : List VmArea} (hok : AreasOk C m l) {f : VmArea → VmArea} (hf : KeepsArea f) :
    AreasOk C m (l.map f) := by
  refine ⟨⟨List.pairwise_map.2 (hok.sorted.apart.imp fun {a b} h => ?_), fun b hb => ?_⟩, fun b hb => ?_,
    fun b hb => ?_, fun b hb => ?_⟩
  · rw [hf.end_, hf.start]; exact h
  all_goals obtain ⟨a, ha, rfl⟩ := List.mem_map.1 hb
  · rw [hf.end_, hf.start]; exact hok.sorted.nonempty a ha
  · rw [hf.start]; exact hok.low a ha
  · rw [hf.end_]; exact hok.high a ha
  · rw [hf.owner]; exact hok.owner a ha

theorem Layout.modArea (hL : Layout C s) (m id : Nat) {f : VmArea → VmArea} (hf : KeepsArea f) :
    Layout C (s.modArea m id f) := by
  refine hL.update (m := m) rfl le_rfl le_rfl (fun hm => ?_) ((hL.areas m).map (hf.ite id)) ?_ (fun b hb => ?_)
  · rw [hL.unused m hm]; rfl
  · rw [List.map_map]
    have e : ((fun x : VmArea => x.vma_id) ∘ fun a => if a.vma_id = id then f a else a) = (·.vma_id) := by
      funext a; exact (hf.ite id).id a
    rw [e]
    exact hL.ids m
  · obtain ⟨a, ha, rfl⟩ := List.mem_map.1 hb
    rw [(hf.ite id).id]
    exact ⟨hL.fresh m a ha, .inr ⟨a, ha, rfl⟩⟩

/-! ## Destroying a map -/

/-- The rule for `vmmap_destroy`: what every turn of `vmmap_remove` keeps, the
call keeps; the map ends without areas. -/
theorem vmmap_destroy_rule {I : State → Prop}
    (hstep : ∀ {s s' lo fin pre a l done}, lo ≤ fin → Layout C s → s.vmm_list m = pre ++ a :: l →
      RemoveEffect s p m lo fin pre l a s' done → I s → I s')
    (hL : Layout C s) (hI : I s) (h : vmmap_destroy C s p m = some s') :
    Layout C s' ∧ I s' ∧ s'.spaces = s.spaces.withList m [] s'.nareas := by
  have hgo : ∀ (l : List VmArea) (s s' : State), Layout C s → I s → s.vmm_list m = l →
      vmmap_destroy_from C p m s l = some s' →
      Layout C s' ∧ I s' ∧ s'.spaces = s.spaces.withList m [] s'.nareas := by
    intro l
    induction l with
    | nil =>
      intro s s' hL hI hlist h
      cases h
      refine ⟨hL, hI, ?_⟩
      rw [← hlist, Spaces.withList]
      simp [State.spaces]
    | cons a l ih =>
      intro s s' hL hI hlist h
      simp only [vmmap_destroy_from, bind, Option.bind_eq_some_iff] at h
      obtain ⟨s₁, hr, h⟩ := h
      have hC := C.high_lt
      have hok := hL.areas m
      rw [hlist] at hok
      obtain ⟨h1, h2, h3⟩ := sorted_cons.1 hok.sorted
      have hhigh := hok.high a (by simp)
      rw [usub_of_le h1.le (by omega)] at hr
      have hfin : a.vma_start + (a.vma_end - a.vma_start) = a.vma_end := by omega
      obtain ⟨hL₁, hI₁⟩ := vmmap_remove_rule (I := I) (by omega)
        (fun hL hlist heff hI => hstep (Nat.le_add_right _ _) hL hlist heff hI) hL hI hr
      have hsp := vmmap_remove_list (by omega) hL hr
      -- Only `a` is cut, and nothing of it is left.
      have hcut : (s.vmm_list m).flatMap (pieces m s.nareas a.vma_start (a.vma_start + (a.vma_end - a.vma_start))) = l := by
        rw [hlist, hfin, List.flatMap_cons]
        have e1 : pieces m s.nareas a.vma_start a.vma_end a = [] := by
          unfold pieces
          rw [if_neg (by omega), if_neg (by omega), if_neg (by omega), if_pos (by omega)]
        rw [e1, List.nil_append, List.flatMap_congr (g := fun b => [b]) fun b hb => ?_]
        · exact List.flatMap_singleton' l
        · exact pieces_behind h1.le (h3.nonempty b hb) (h2 b hb)
      rw [hcut] at hsp
      have hlist₁ : s₁.vmm_list m = l := by
        simpa [State.spaces, Spaces.withList] using congrFun (congrArg Spaces.vmm_list hsp) m
      obtain ⟨hL', hI', hsp'⟩ := ih s₁ s' hL₁ hI₁ hlist₁ h
      exact ⟨hL', hI', by rw [hsp', hsp, Spaces.withList_withList]⟩
  exact hgo _ s s' hL hI rfl h

theorem vmmap_destroy_layout (hL : Layout C s) (h : vmmap_destroy C s p m = some s') :
    Layout C s' ∧ s'.spaces = s.spaces.withList m [] s'.nareas := by
  obtain ⟨h1, -, h2⟩ := vmmap_destroy_rule (I := fun _ => True) (fun _ _ _ _ _ => trivial) hL trivial h
  exact ⟨h1, h2⟩

theorem exit_process_layout {st : Int} (hL : Layout C s) (h : exit_process C s p st = some s') : Layout C s' := by
  simp only [exit_process, bind, Option.bind_eq_some_iff, Option.some.injEq] at h
  obtain ⟨pr, -, s₁, hd, rfl⟩ := h
  obtain ⟨hL₁, -⟩ := vmmap_destroy_layout hL hd
  exact ⟨hL₁.areas, hL₁.ids, hL₁.fresh, hL₁.apart, hL₁.unused⟩

/-! ## Faults and copies -/

theorem fault_frame_spaces {a : VmArea} {vaddr : Nat} {w : Bool} {pf : Pframe}
    (h : fault_frame E s a vaddr w = some (s', pf)) : s'.spaces = s.spaces := by
  simp only [fault_frame, bind, Option.bind_eq_some_iff] at h
  obtain ⟨o, -, ob, -, h⟩ := h
  split at h
  · simp only [Option.bind_eq_some_iff, Option.some.injEq, Prod.mk.injEq, Prod.exists] at h
    obtain ⟨s₁, pf', ok, hg, rfl, -⟩ := h
    exact pframe_get_spaces hg
  · exact shadow_lookuppage_spaces h

theorem handle_pagefault_spaces {vaddr : Nat} {cause : Cause} {r : FaultResult}
    (h : handle_pagefault C E s p vaddr cause = some (s', r)) :
    (r = .killed ∧ exit_process C s p EFAULT = some s') ∨ (r = .mapped ∧ s'.spaces = s.spaces) := by
  have hkill : ∀ {t : State} {r : FaultResult}, (exit_process C s p EFAULT).map (·, FaultResult.killed) = some (t, r) →
      r = .killed ∧ exit_process C s p EFAULT = some t := fun h => by
    simp only [Option.map_eq_some_iff, Prod.mk.injEq] at h
    obtain ⟨t, ht, rfl, rfl⟩ := h
    exact ⟨rfl, ht⟩
  simp only [handle_pagefault, bind, Option.bind_eq_some_iff] at h
  obtain ⟨pr, -, h⟩ := h
  split at h
  · exact .inl (hkill h)
  · split at h
    · exact .inl (hkill h)
    · simp only [Option.bind_eq_some_iff, Option.some.injEq, Prod.mk.injEq, Prod.exists] at h
      obtain ⟨s₁, pf, hf, rfl, rfl⟩ := h
      exact .inr ⟨rfl, (fault_frame_spaces hf :)⟩

theorem writePte_spaces {vaddr : Nat} {b : UInt8} (h : writePte s p vaddr b = some s') : s'.spaces = s.spaces := by
  simp only [writePte] at h
  split at h
  · split at h <;> cases h
    rfl
  · cases h

/-- A user access ends the process or leaves the spaces alone. -/
theorem userLoad_spaces {vaddr : Nat} {w : Outcome} (h : userLoad C E s p vaddr = some (s', w)) :
    exit_process C s p EFAULT = some s' ∨ s'.spaces = s.spaces := by
  simp only [userLoad, bind] at h
  split at h
  · cases h; exact .inr rfl
  · simp only [Option.bind_eq_some_iff, Prod.exists] at h
    obtain ⟨s₁, r, hf, h⟩ := h
    rcases handle_pagefault_spaces hf with ⟨rfl, hex⟩ | ⟨rfl, hsp⟩
    · cases h; exact .inl hex
    · simp only [Option.bind_eq_some_iff, Option.some.injEq, Prod.mk.injEq] at h
      obtain ⟨-, -, rfl, -⟩ := h
      exact .inr hsp

theorem userStore_spaces {vaddr : Nat} {b : UInt8} {w : Outcome} (h : userStore C E s p vaddr b = some (s', w)) :
    exit_process C s p EFAULT = some s' ∨ s'.spaces = s.spaces := by
  simp only [userStore, bind] at h
  split at h
  next hw => cases h; exact .inr (writePte_spaces hw)
  · simp only [Option.bind_eq_some_iff, Prod.exists] at h
    obtain ⟨s₁, r, hf, h⟩ := h
    rcases handle_pagefault_spaces hf with ⟨rfl, hex⟩ | ⟨rfl, hsp⟩
    · cases h; exact .inl hex
    · simp only [Option.bind_eq_some_iff, Option.some.injEq, Prod.mk.injEq] at h
      obtain ⟨s₂, hw, rfl, -⟩ := h
      exact .inr ((writePte_spaces hw).trans hsp)

theorem write_pages_spaces {a : VmArea} {kmem : Nat → UInt8} {count : Nat} :
    ∀ {k counter : Nat} {s s' : State} {c c' : Cursor},
      write_pages E a kmem count k counter s c = some (s', c') → s'.spaces = s.spaces := by
  intro k
  induction k with
  | zero => intro counter s s' c c' h; cases h; rfl
  | succ k ih =>
    intro counter s s' c c' h
    simp only [write_pages, bind, Option.bind_eq_some_iff, Prod.exists] at h
    obtain ⟨o, -, s₁, pf, ok, hg, s₂, hd, h⟩ := h
    refine (ih h).trans ?_
    simp only [State.setBusy_spaces, State.setMem_spaces]
    exact (pframe_dirty_spaces hd).trans (pframe_get_spaces hg)

theorem write_areas_spaces {kmem : Nat → UInt8} {vi vf count : Nat} {l : List VmArea} :
    ∀ {s s' : State} {c : Cursor}, write_areas E kmem vi vf count s c l = some s' → s'.spaces = s.spaces := by
  induction l with
  | nil => intro s s' c h; cases h; rfl
  | cons a l ih =>
    intro s s' c h
    simp only [write_areas, bind] at h
    split at h
    · exact ih h
    · split at h
      · cases h; rfl
      · simp only [Option.bind_eq_some_iff, Prod.exists] at h
        obtain ⟨s₁, c₁, hw, h⟩ := h
        exact (ih h).trans (write_pages_spaces hw)

theorem copy_to_user_spaces {uaddr n : Nat} {kmem : Nat → UInt8} {r : Except Errno Unit}
    (h : copy_to_user E s p uaddr kmem n = some (s', r)) : s'.spaces = s.spaces := by
  simp only [copy_to_user, bind, Option.bind_eq_some_iff] at h
  obtain ⟨pr, -, h⟩ := h
  split at h
  · cases h; rfl
  · simp only [Option.bind_eq_some_iff, Option.some.injEq, Prod.mk.injEq] at h
    obtain ⟨s₁, hw, rfl, -⟩ := h
    exact write_areas_spaces hw

/-! ## Forking -/

/-- The lists of `s'` are those of `s`, up to the objects of the areas. -/
structure SameShape (s s' : State) : Prop where
  lists : ∀ m, (s'.vmm_list m).map (VmArea.withObj none) = (s.vmm_list m).map (VmArea.withObj none)
  rest : s'.spaces = { s.spaces with vmm_list := s'.vmm_list }

theorem SameShape.refl (s : State) : SameShape s s := ⟨fun _ => rfl, rfl⟩

theorem SameShape.trans {t u : State} (h1 : SameShape s t) (h2 : SameShape t u) : SameShape s u :=
  ⟨fun m => (h2.lists m).trans (h1.lists m), by rw [h2.rest, h1.rest]⟩

theorem SameShape.of_spaces (h : s'.spaces = s.spaces) : SameShape s s' := by
  have hl : s'.vmm_list = s.vmm_list := congrArg Spaces.vmm_list h
  exact ⟨fun m => by rw [hl], by rw [hl]; exact h⟩

theorem SameShape.modArea (s : State) (m id : Nat) (o : Option Nat) :
    SameShape s (s.modArea m id (VmArea.withObj o)) := by
  refine ⟨fun m' => ?_, rfl⟩
  simp only [State.modArea, State.setList]
  rcases eq_or_ne m' m with rfl | h
  · rw [Function.update_self, List.map_map]
    refine List.map_congr_left fun a _ => ?_
    simp only [Function.comp]
    split <;> rfl
  · rw [Function.update_of_ne h]

theorem SameShape.nil_iff (h : SameShape s s') : s'.vmm_list m = [] ↔ s.vmm_list m = [] := by
  have := congrArg List.length (h.lists m)
  simp only [List.length_map] at this
  rw [← List.length_eq_zero_iff, ← List.length_eq_zero_iff, this]

theorem fork_area_shape {m' : Nat} {a b : VmArea} (hL : Layout C s) (h : fork_area s p m m' a b = some s') :
    Layout C s' ∧ SameShape s s' := by
  simp only [fork_area, bind, Option.bind_eq_some_iff] at h
  obtain ⟨o, -, h⟩ := h
  split at h
  · simp only [Option.bind_eq_some_iff, Option.some.injEq] at h
    obtain ⟨ob, -, bot, -, s₁, hr, rfl⟩ := h
    have hsp : s₁.spaces = s.spaces := (mmobj_ref_spaces hr :)
    have hL₁ := (hL.congr hsp).modArea m' b.vma_id (withObj_keeps (some (s.nobjs + 1)))
    have hL₂ := hL₁.modArea m a.vma_id (withObj_keeps (some s.nobjs))
    have hs₁ := (SameShape.of_spaces hsp).trans (.modArea s₁ m' b.vma_id (some (s.nobjs + 1)))
    have hs₂ := hs₁.trans (.modArea _ m a.vma_id (some s.nobjs))
    exact ⟨hL₂.congr (State.pt_unmap_range_spaces _ p a.vma_start a.vma_end),
      hs₂.trans (.of_spaces (State.pt_unmap_range_spaces _ p a.vma_start a.vma_end))⟩
  · simp only [Option.bind_eq_some_iff, Option.some.injEq] at h
    obtain ⟨s₁, hr, rfl⟩ := h
    have hsp : s₁.spaces = (s.modArea m' b.vma_id (VmArea.withObj (some o))).spaces := (mmobj_ref_spaces hr :)
    exact ⟨(hL.modArea m' b.vma_id (withObj_keeps (some o))).congr hsp,
      (SameShape.modArea s m' b.vma_id (some o)).trans (.of_spaces hsp)⟩

theorem fork_areas_shape {m' : Nat} : ∀ {l l' : List VmArea} {s s' : State}, Layout C s →
    fork_areas p m m' s l l' = some s' → Layout C s' ∧ SameShape s s' := by
  intro l
  induction l with
  | nil => intro l' s s' hL h; cases h; exact ⟨hL, .refl s⟩
  | cons a l ih =>
    intro l' s s' hL h
    cases l' with
    | nil => cases h; exact ⟨hL, .refl s⟩
    | cons b l' =>
      simp only [fork_areas, bind, Option.bind_eq_some_iff] at h
      obtain ⟨s₁, h1, h2⟩ := h
      obtain ⟨hL₁, hs₁⟩ := fork_area_shape hL h1
      obtain ⟨hL₂, hs₂⟩ := ih hL₁ h2
      exact ⟨hL₂, hs₁.trans hs₂⟩

theorem proc_create_layout (hL : Layout C s) : Layout C (proc_create s) := by
  have h := vmmap_create_layout hL
  exact ⟨h.areas, h.ids, h.fresh, h.apart, h.unused⟩

theorem do_fork_layout {c : Nat} (hL : Layout C s) (h : do_fork s p = some (s', c)) : Layout C s' := by
  simp only [do_fork, bind, Option.bind_eq_some_iff, Option.some.injEq, Prod.mk.injEq] at h
  obtain ⟨pr, -, s₁, hf, rfl, -⟩ := h
  obtain ⟨hL₁, -⟩ := fork_areas_shape (vmmap_clone_layout (proc_create_layout hL)) hf
  exact ⟨hL₁.areas, hL₁.ids, hL₁.fresh, hL₁.apart, hL₁.unused⟩

/-! ## Owners -/

/-- Every process has a map of its own; a map with areas belongs to a live process. -/
structure Owned (s : State) : Prop where
  live : ∀ p pr, s.procs p = some pr → p < s.nprocs ∧ pr.p_vmmap < s.nmaps
  own : ∀ p q pr pr', s.procs p = some pr → s.procs q = some pr' → pr.p_vmmap = pr'.p_vmmap → p = q
  back : ∀ p pr, s.procs p = some pr → s.vmm_proc pr.p_vmmap = none ∨ s.vmm_proc pr.p_vmmap = some p
  idle : ∀ m, s.vmm_list m ≠ [] → ∃ p pr, s.procs p = some pr ∧ pr.p_vmmap = m

/-- When processes and maps stay, and no map but that of a process gets areas. -/
theorem Owned.keep (hO : Owned s) (hpr : s'.procs = s.procs) (hn : s'.nprocs = s.nprocs) (hm : s'.nmaps = s.nmaps)
    (hv : s'.vmm_proc = s.vmm_proc)
    (hl : ∀ m, s'.vmm_list m ≠ [] → s.vmm_list m ≠ [] ∨ ∃ p pr, s.procs p = some pr ∧ pr.p_vmmap = m) : Owned s' := by
  refine ⟨by rw [hpr, hn, hm]; exact hO.live, by rw [hpr]; exact hO.own, by rw [hpr, hv]; exact hO.back, fun m h => ?_⟩
  rw [hpr]
  rcases hl m h with h | h
  · exact hO.idle m h
  · exact h

theorem Owned.congr (hO : Owned s) (h : s'.spaces = s.spaces) : Owned s' := by
  have hl : s'.vmm_list = s.vmm_list := congrArg Spaces.vmm_list h
  exact hO.keep (congrArg Spaces.procs h :) (congrArg Spaces.nprocs h :) (congrArg Spaces.nmaps h :)
    (congrArg Spaces.vmm_proc h :) fun m hm => .inl (by rwa [hl] at hm)

theorem Owned.withList (hO : Owned s) {pr : Proc} (hpr : s.procs p = some pr) {l : List VmArea} {n : Nat}
    (h : s'.spaces = s.spaces.withList pr.p_vmmap l n) : Owned s' := by
  have hl : s'.vmm_list = Function.update s.vmm_list pr.p_vmmap l := congrArg Spaces.vmm_list h
  refine hO.keep (congrArg Spaces.procs h :) (congrArg Spaces.nprocs h :) (congrArg Spaces.nmaps h :)
    (congrArg Spaces.vmm_proc h :) fun m hm => ?_
  rcases eq_or_ne m pr.p_vmmap with rfl | hne
  · exact .inr ⟨p, pr, hpr, rfl⟩
  · rw [hl, Function.update_of_ne hne] at hm
    exact .inl hm

theorem Owned.setFiles (hO : Owned s) {fs : Nat → Option File} : Owned (s.setFiles fs) :=
  ⟨hO.live, hO.own, hO.back, hO.idle⟩

theorem exit_process_owned {st : Int} (hL : Layout C s) (hO : Owned s) (h : exit_process C s p st = some s') :
    Owned s' := by
  simp only [exit_process, bind, Option.bind_eq_some_iff, Option.some.injEq] at h
  obtain ⟨pr, hpr, s₁, hd, rfl⟩ := h
  obtain ⟨-, hsp⟩ := vmmap_destroy_layout hL hd
  have hl : s₁.vmm_list = Function.update s.vmm_list pr.p_vmmap [] := congrArg Spaces.vmm_list hsp
  have hO₁ : Owned s₁ := hO.withList hpr hsp
  have hold : ∀ q pr', Function.update s₁.procs p none q = some pr' → q ≠ p ∧ s₁.procs q = some pr' := fun q pr' hq => by
    rcases eq_or_ne q p with rfl | hne
    · simp at hq
    · rw [Function.update_of_ne hne] at hq; exact ⟨hne, hq⟩
  constructor
  case live => exact fun q pr' hq => hO₁.live q pr' (hold q pr' hq).2
  case own => exact fun q r pr' pr'' hq hr => hO₁.own q r pr' pr'' (hold q pr' hq).2 (hold r pr'' hr).2
  case back => exact fun q pr' hq => hO₁.back q pr' (hold q pr' hq).2
  case idle =>
    intro m hm
    have hne : m ≠ pr.p_vmmap := by
      rintro rfl
      simp [State.setProc, State.setZombie, hl] at hm
    obtain ⟨q, pr', hq, rfl⟩ := hO₁.idle m hm
    have hpr₁ : s₁.procs p = some pr := (congrFun (congrArg Spaces.procs hsp) p).trans hpr
    have hqp : q ≠ p := by
      rintro rfl
      rw [hpr₁] at hq
      cases hq
      exact hne rfl
    exact ⟨q, pr', (Function.update_of_ne hqp _ _).trans hq, rfl⟩

theorem proc_create_owned (hO : Owned s) : Owned (proc_create s) := by
  have hold : ∀ q pr, Function.update s.procs s.nprocs (some ⟨s.nmaps, 0, fun _ => none⟩) q = some pr →
      (q = s.nprocs ∧ pr.p_vmmap = s.nmaps) ∨ (q ≠ s.nprocs ∧ s.procs q = some pr ∧ pr.p_vmmap < s.nmaps) :=
    fun q pr hq => by
      rcases eq_or_ne q s.nprocs with rfl | hne
      · rw [Function.update_self] at hq; cases hq; exact .inl ⟨rfl, rfl⟩
      · rw [Function.update_of_ne hne] at hq; exact .inr ⟨hne, hq, (hO.live q pr hq).2⟩
  constructor
  case live =>
    intro q pr hq
    simp only [proc_create, vmmap_create] at hq ⊢
    rcases hold q pr hq with ⟨rfl, h⟩ | ⟨-, hq, -⟩
    · omega
    · have := hO.live q pr hq; omega
  case own =>
    intro q r pr pr' hq hr he
    rcases hold q pr hq with ⟨rfl, h⟩ | ⟨h1, hq, h⟩ <;> rcases hold r pr' hr with ⟨rfl, h'⟩ | ⟨h2, hr, h'⟩
    · rfl
    · omega
    · omega
    · exact hO.own q r pr pr' hq hr he
  case back =>
    intro q pr hq
    simp only [proc_create, vmmap_create, Function.update_idem]
    rcases hold q pr hq with ⟨rfl, h⟩ | ⟨-, hq, h⟩
    · rw [h, Function.update_self]; exact .inr rfl
    · rw [Function.update_of_ne h.ne]; exact hO.back q pr hq
  case idle =>
    intro m hm
    simp only [proc_create, vmmap_create] at hm ⊢
    have hne : m ≠ s.nmaps := by rintro rfl; simp at hm
    rw [Function.update_of_ne hne] at hm
    obtain ⟨q, pr, hq, rfl⟩ := hO.idle m hm
    exact ⟨q, pr, by rw [Function.update_of_ne (hO.live q pr hq).1.ne]; exact hq, rfl⟩

theorem do_fork_owned {c : Nat} (hO : Owned s) (hL : Layout C s) (h : do_fork s p = some (s', c)) : Owned s' := by
  simp only [do_fork, bind, Option.bind_eq_some_iff, Option.some.injEq, Prod.mk.injEq] at h
  obtain ⟨pr, hpr, s₁, hf, rfl, rfl⟩ := h
  have hO₀ := proc_create_owned hO
  have hL₀ := proc_create_layout hL
  obtain ⟨-, hshape⟩ := fork_areas_shape (vmmap_clone_layout hL₀) hf
  have hprocs : s₁.procs = (proc_create s).procs := congrArg Spaces.procs hshape.rest
  have hnp : s₁.nprocs = s.nprocs + 1 := congrArg Spaces.nprocs hshape.rest
  have hnm : s₁.nmaps = s.nmaps + 1 + 1 := congrArg Spaces.nmaps hshape.rest
  have hvp : s₁.vmm_proc = Function.update (proc_create s).vmm_proc (s.nmaps + 1) none :=
    congrArg Spaces.vmm_proc hshape.rest
  -- Besides the child, the processes are those there were, with their maps.
  have hold : ∀ q pr', Function.update s₁.procs s.nprocs (some ⟨(proc_create s).nmaps, pr.p_start_brk, pr.p_files⟩) q =
      some pr' → (q = s.nprocs ∧ pr'.p_vmmap = s.nmaps + 1) ∨
        (q ≠ s.nprocs ∧ (proc_create s).procs q = some pr' ∧ pr'.p_vmmap < s.nmaps + 1) := fun q pr' hq => by
    rcases eq_or_ne q s.nprocs with rfl | hne
    · rw [Function.update_self] at hq; cases hq; exact .inl ⟨rfl, rfl⟩
    · rw [Function.update_of_ne hne, hprocs] at hq; exact .inr ⟨hne, hq, (hO₀.live q pr' hq).2⟩
  constructor
  case live =>
    intro q pr' hq
    rcases hold q pr' hq with ⟨rfl, h⟩ | ⟨-, hq, h⟩
    · simp only [setBrk, State.setProc, hnp, hnm]; omega
    · have h1 := (hO₀.live q pr' hq).1
      simp only [proc_create] at h1
      simp only [setBrk, State.setProc, hnp, hnm]; omega
  case own =>
    intro q r pr' pr'' hq hr he
    rcases hold q pr' hq with ⟨rfl, h⟩ | ⟨h1, hq, h⟩ <;> rcases hold r pr'' hr with ⟨rfl, h'⟩ | ⟨h2, hr, h'⟩
    · rfl
    · omega
    · omega
    · exact hO₀.own q r pr' pr'' hq hr he
  case back =>
    intro q pr' hq
    simp only [setBrk, State.setProc, hvp]
    rcases hold q pr' hq with ⟨rfl, h⟩ | ⟨-, hq, h⟩
    · rw [h, Function.update_self]; exact .inl rfl
    · rw [Function.update_of_ne h.ne]; exact hO₀.back q pr' hq
  case idle =>
    intro m hm
    rcases eq_or_ne m (s.nmaps + 1) with rfl | hne
    · exact ⟨s.nprocs, _, Function.update_self .., rfl⟩
    · have hm₁ : (vmmap_clone (proc_create s) pr.p_vmmap).vmm_list m ≠ [] := fun h => hm (hshape.nil_iff.2 h)
      have hne' : m ≠ (proc_create s).nmaps := hne
      have hm₂ : s.vmm_list m ≠ [] := by
        simp only [vmmap_clone, vmmap_create, Function.update_of_ne hne'] at hm₁
        rcases eq_or_ne m s.nmaps with rfl | hne₂
        · simp [proc_create, vmmap_create] at hm₁
        · simpa [proc_create, vmmap_create, hne₂] using hm₁
      obtain ⟨q, pr', hq, rfl⟩ := hO.idle m hm₂
      have hqn := (hO.live q pr' hq).1.ne
      refine ⟨q, pr', ?_, rfl⟩
      simp only [setBrk, State.setProc, Function.update_of_ne hqn, hprocs, proc_create, vmmap_create]
      exact hq

/-! ## Every event -/

theorem MapEffect.spaces {file : Option Nat} {lopage npages off : Nat} {prot : Prot} {flags : MapFlags} {dir : Dir}
    {r : Except Errno Nat} (h : MapEffect C s p m file lopage npages prot flags off dir s' r) (hL : Layout C s) :
    ∃ l n, s'.spaces = s.spaces.withList m l n := by
  cases h with
  | noroom =>
    refine ⟨s.vmm_list m, s.nareas + 1, ?_⟩
    simp [Spaces.withList, State.spaces, State.vmarea_alloc]
  | @mapped start s₁ s₂ area hfrom hL₁ hr _ ha =>
    obtain ⟨hsp, o, rfl⟩ := attachObject_spaces ha
    have h1 : ∃ l n, s₁.spaces = s.spaces.withList m l n := by
      rcases hfrom with rfl | ⟨hlt, hrm⟩
      · refine ⟨s.vmm_list m, s.nareas + 1, ?_⟩
        simp [Spaces.withList, State.spaces, State.vmarea_alloc]
      · have hL₀ : Layout C s.vmarea_alloc := hL.more (Nat.le_succ _)
        have hrs := vmmap_remove_list hlt hL₀ hrm
        rw [show s.vmarea_alloc.spaces = { s.spaces with nareas := s.nareas + 1 } from rfl] at hrs
        exact ⟨_, _, hrs⟩
    obtain ⟨l, n, h1⟩ := h1
    have hl : s₂.vmm_list = s₂.spaces.vmm_list := rfl
    refine ⟨insertArea m ((newArea s.nareas start npages off prot flags).withObj o) (s₂.vmm_list m), n, ?_⟩
    rw [State.setList_spaces, hl, hsp, h1]
    simp only [Spaces.withList, Function.update_idem]

/-- The area lists are well formed and have their owners. -/
structure Placed (C : Config) (s : State) : Prop where
  layout : Layout C s
  owned : Owned s

theorem Placed.congr (h : Placed C s) (hsp : s'.spaces = s.spaces) : Placed C s' :=
  ⟨h.layout.congr hsp, h.owned.congr hsp⟩

theorem exit_process_placed {st : Int} (hP : Placed C s) (h : exit_process C s p st = some s') : Placed C s' :=
  ⟨exit_process_layout hP.layout h, exit_process_owned hP.layout hP.owned h⟩

theorem do_mmap_placed {addr len off : Nat} {prot : Prot} {flags : MapFlags} {fd : Int} {r : Except Errno Nat}
    (hP : Placed C s) (hlen : len < 2 ^ 32) (h : do_mmap C s p addr len prot flags fd off = some (s', r)) :
    Placed C s' := by
  refine ⟨do_mmap_layout hP.layout (fun pr hpr => (hP.owned.live p pr hpr).2) hlen h, ?_⟩
  obtain ⟨pr, hpr, heff⟩ := do_mmap_effect h
  cases heff with
  | failed => exact hP.owned.setFiles
  | @mapped fs fs' file lopage start s₁ _ _ hmap =>
    have hL₀ : Layout C (s.setFiles fs) := hP.layout.setFiles
    have hO₀ : Owned (s.setFiles fs) := hP.owned.setFiles
    obtain ⟨-, hm⟩ := vmmap_map_effect hL₀ (roundLen_pages hlen) hmap
    obtain ⟨l, n, hsp⟩ := hm.spaces hL₀
    have hO₁ : Owned s₁ := hO₀.withList (p := p) hpr hsp
    exact hO₁.setFiles

theorem vmmap_remove_placed {pr : Proc} {lo npages : Nat} (hP : Placed C s) (hpr : s.procs p = some pr)
    (hlt : lo + npages < 2 ^ 32) (h : vmmap_remove C s p pr.p_vmmap lo npages = some s') : Placed C s' :=
  ⟨vmmap_remove_layout hlt hP.layout h, hP.owned.withList hpr (vmmap_remove_list hlt hP.layout h)⟩

/-- The outcomes of `do_munmap`: an error, or a removal. -/
theorem do_munmap_cases {addr len : Nat} {r : Except Errno Nat} (h : do_munmap C s p addr len = some (s', r)) :
    (s' = s ∧ ∃ e, r = .error e) ∨ ∃ pr, s.procs p = some pr ∧
      vmmap_remove C s p pr.p_vmmap (ADDR_TO_PN addr) (ADDR_TO_PN (roundLen len)) = some s' ∧ r = .ok 0 := by
  simp only [do_munmap, bind, Option.bind_eq_some_iff] at h
  obtain ⟨pr, hpr, h⟩ := h
  split at h
  · cases h; exact .inl ⟨rfl, _, rfl⟩
  split at h
  · cases h; exact .inl ⟨rfl, _, rfl⟩
  split at h
  · cases h; exact .inl ⟨rfl, _, rfl⟩
  · simp only [Option.bind_eq_some_iff, Option.some.injEq, Prod.mk.injEq] at h
    obtain ⟨s₁, hr, rfl, rfl⟩ := h
    exact .inr ⟨pr, hpr, hr, rfl⟩

theorem munmap_bound {addr len : Nat} (ha : addr < 2 ^ 32) (hl : len < 2 ^ 32) :
    ADDR_TO_PN addr + ADDR_TO_PN (roundLen len) < 2 ^ 32 := by
  have := roundLen_pages hl
  simp only [ADDR_TO_PN, PAGE_SIZE] at *
  omega

theorem openFile_placed {pr : Proc} {fd f vn : Nat} {mode : FileMode} (hP : Placed C s) (hpr : s.procs p = some pr) :
    Placed C (openFile s p pr fd f mode vn) := by
  obtain ⟨hL, hO⟩ := hP
  have hold : ∀ q pr', (openFile s p pr fd f mode vn).procs q = some pr' →
      ∃ pr'', s.procs q = some pr'' ∧ pr'.p_vmmap = pr''.p_vmmap := fun q pr' hq => by
    simp only [openFile, State.setProc, State.setFiles] at hq
    rcases eq_or_ne q p with rfl | hne
    · rw [Function.update_self] at hq; cases hq; exact ⟨pr, hpr, rfl⟩
    · rw [Function.update_of_ne hne] at hq; exact ⟨pr', hq, rfl⟩
  refine ⟨⟨hL.areas, hL.ids, hL.fresh, hL.apart, hL.unused⟩, ?_, ?_, ?_, ?_⟩
  · intro q pr' hq
    obtain ⟨pr'', h, e⟩ := hold q pr' hq
    rw [e]; exact hO.live q pr'' h
  · intro q r pr' pr'' hq hr he
    obtain ⟨_, h1, e1⟩ := hold q pr' hq
    obtain ⟨_, h2, e2⟩ := hold r pr'' hr
    exact hO.own q r _ _ h1 h2 (by rw [← e1, ← e2, he])
  · intro q pr' hq
    obtain ⟨pr'', h, e⟩ := hold q pr' hq
    rw [e]; exact hO.back q pr'' h
  · intro m hm
    obtain ⟨q, pr', hq, rfl⟩ := hO.idle m hm
    rcases eq_or_ne q p with rfl | hne
    · rw [hpr] at hq
      cases hq
      exact ⟨q, _, Function.update_self .., rfl⟩
    · exact ⟨q, pr', (Function.update_of_ne hne _ _).trans hq, rfl⟩

theorem step_placed {e : Event} {w : Outcome} (hP : Placed C s) (he : e.Sane) (h : step C E s e = some (s', w)) :
    Placed C s' := by
  cases e with
  | spawn => cases h; exact ⟨proc_create_layout hP.layout, proc_create_owned hP.owned⟩
  | opened p fd f mode vn =>
    simp only [step, bind, Option.bind_eq_some_iff, Option.some.injEq, Prod.mk.injEq] at h
    obtain ⟨pr, hpr, -, -, rfl, -⟩ := h
    exact openFile_placed hP hpr
  | mmap p addr len prot flags fd off =>
    simp only [step, bind, Option.bind_eq_some_iff, Option.some.injEq, Prod.mk.injEq, Prod.exists] at h
    obtain ⟨s₁, r, hm, rfl, -⟩ := h
    exact do_mmap_placed hP he.2.1 hm
  | munmap p addr len =>
    simp only [step, bind, Option.bind_eq_some_iff, Option.some.injEq, Prod.mk.injEq, Prod.exists] at h
    obtain ⟨s₁, r, hm, rfl, -⟩ := h
    rcases do_munmap_cases hm with ⟨rfl, -⟩ | ⟨pr, hpr, hr, -⟩
    · exact hP
    · exact vmmap_remove_placed hP hpr (munmap_bound he.1 he.2) hr
  | remove p lopage npages =>
    simp only [step, bind, Option.bind_eq_some_iff, Option.some.injEq, Prod.mk.injEq] at h
    obtain ⟨pr, hpr, s₁, hr, rfl, -⟩ := h
    obtain ⟨h1, h2⟩ := he
    exact vmmap_remove_placed hP hpr (by omega) hr
  | fork p =>
    simp only [step, bind, Option.bind_eq_some_iff, Option.some.injEq, Prod.mk.injEq, Prod.exists] at h
    obtain ⟨s₁, c, hf, rfl, -⟩ := h
    exact ⟨do_fork_layout hP.layout hf, do_fork_owned hP.owned hP.layout hf⟩
  | load p vaddr =>
    simp only [step, bind, Option.bind_eq_some_iff] at h
    obtain ⟨pr, -, h⟩ := h
    rcases userLoad_spaces h with hex | hsp
    · exact exit_process_placed hP hex
    · exact hP.congr hsp
  | store p vaddr b =>
    simp only [step, bind, Option.bind_eq_some_iff] at h
    obtain ⟨pr, -, h⟩ := h
    rcases userStore_spaces h with hex | hsp
    · exact exit_process_placed hP hex
    · exact hP.congr hsp
  | copyout p uaddr kmem nbytes =>
    simp only [step, bind, Option.bind_eq_some_iff, Prod.exists] at h
    obtain ⟨s₁, r, hc, h⟩ := h
    cases r <;> cases h <;> exact hP.congr (copy_to_user_spaces hc)
  | pageout =>
    simp only [step, bind, Option.bind_eq_some_iff, Option.some.injEq, Prod.mk.injEq] at h
    obtain ⟨s₁, hp, rfl, -⟩ := h
    exact hP.congr (pageoutd_turn_spaces hp)
  | exit p =>
    simp only [step, bind, Option.bind_eq_some_iff, Option.some.injEq, Prod.mk.injEq] at h
    obtain ⟨s₁, hx, rfl, -⟩ := h
    exact exit_process_placed hP hx

/-! ## Runs -/

/-- The first state: no process, no map, no frame, and of objects those of the vnodes. -/
structure Booted (s : State) : Prop where
  procs : ∀ p, s.procs p = none
  pagedir : ∀ p v, s.p_pagedir p v = none
  lists : ∀ m, s.vmm_list m = []
  pframes : s.pframes = []
  alloc_list : s.alloc_list = []
  pinned_list : s.pinned_list = []
  vmas : ∀ o, s.mmo_vmas o = []
  nres : ∀ o, s.mmo_nrespages o = 0
  objs : ∀ o ob, s.objs o = some ob → o < s.nobjs ∧ ∃ vn, ob = ⟨.vnode vn, none, none⟩
  vnodes : ∀ vn o, (s.vnodes vn).vn_mmap = some (.ok o) → s.objs o = some ⟨.vnode vn, none, none⟩
  busy : ∀ pg, s.pf_busy pg = false
  num : s.num = 0
  temp_c : s.temp_c = 0

theorem bare_booted : Booted .bare := by
  constructor <;> intros <;> first | rfl | contradiction

theorem Booted.placed (h : Booted s) : Placed C s := by
  refine ⟨?_, ?_, ?_, ?_, fun m hm => absurd (h.lists m) hm⟩
  · constructor <;> intro m <;> simp [h.lists, AreasOk.nil]
  all_goals intro p; simp [h.procs]

theorem run_placed {s₀ : State} {ok : State → Event → Prop} {tr : List (Event × Outcome)} (h0 : Booted s₀)
    (hok : ∀ s e, ok s e → e.Sane) (h : Run (step C E) ok s₀ s tr) : Placed C s :=
  h.inv (Placed C) h0.placed fun _ _ _ _ hP he hst => step_placed hP (hok _ _ he) hst

end Weenix.Vm
