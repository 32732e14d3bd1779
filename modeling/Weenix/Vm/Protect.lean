import Weenix.Vm.System
import Weenix.Vm.Spaces
/-!
# Page protections

`handle_pagefault` asks for the rights in the cause word. A plain read has none
of the bits, so it asks for nothing, and every area lets it through.
-/

namespace Weenix.Vm

open Lib

variable {C : Config} {E : Env} {s s' : State} {p : Nat}

/-- Every mapping of `s'` is a mapping of `s`. -/
def NoNewMapping (s s' : State) : Prop := ∀ q v pte, s'.p_pagedir q v = some pte → s.p_pagedir q v = some pte

theorem NoNewMapping.refl (s : State) : NoNewMapping s s := fun _ _ _ h => h

theorem NoNewMapping.trans {t u : State} (h1 : NoNewMapping s t) (h2 : NoNewMapping t u) : NoNewMapping s u :=
  fun q v pte h => h1 q v pte (h2 q v pte h)

theorem NoNewMapping.of_eq (h : s'.p_pagedir = s.p_pagedir) : NoNewMapping s s' := fun q v pte hp => by
  rwa [h] at hp

/-! ## Removing areas installs nothing -/

theorem pt_unmap_noNew (v : Nat) : NoNewMapping s (s.pt_unmap p v) := by
  intro q w pte h
  simp only [State.pt_unmap] at h
  rcases eq_or_ne q p with rfl | hq
  · rw [Function.update_self] at h
    rcases eq_or_ne w v with rfl | hw
    · simp at h
    · rwa [Function.update_of_ne hw] at h
  · rwa [Function.update_of_ne hq] at h

theorem pt_unmap_range_noNew (lo hi : Nat) : NoNewMapping s (s.pt_unmap_range p lo hi) := by
  intro q w pte h
  simp only [State.pt_unmap_range] at h
  rcases eq_or_ne q p with rfl | hq
  · rw [Function.update_self] at h
    split at h
    · cases h
    · exact h
  · rwa [Function.update_of_ne hq] at h

theorem remove_from_areas_noNew {pf : Pframe} {ids : List Nat} :
    ∀ {s s' : State}, remove_from_areas pf s ids = some s' → NoNewMapping s s' := by
  induction ids with
  | nil => intro s s' h; cases h; exact .refl s
  | cons id ids ih =>
    intro s s' h
    simp only [remove_from_areas, bind, Option.bind_eq_some_iff] at h
    obtain ⟨a, -, s₁, h1, h2⟩ := h
    refine .trans ?_ (ih h2)
    simp only [remove_from_area, bind] at h1
    split at h1
    · simp only [Option.bind_eq_some_iff] at h1
      obtain ⟨m, -, h1⟩ := h1
      split at h1 <;> cases h1
      · exact pt_unmap_noNew _
      · exact .refl s
    · cases h1; exact .refl s

theorem pframe_release_noNew {pf : Pframe} (h : pframe_release s pf = some s') : NoNewMapping s s' := by
  simp only [pframe_release, pframe_remove_from_pts, bind, Option.bind_eq_some_iff, Option.some.injEq] at h
  obtain ⟨-, -, -, -, s₁, ⟨b, -, h1⟩, rfl⟩ := h
  exact (remove_from_areas_noNew h1 :)

theorem noNew_putSteps : PutSteps NoNewMapping where
  refl := .refl
  trans := .trans
  count _ _ _ := .of_eq rfl
  num _ _ := .of_eq rfl
  temp _ _ := .of_eq rfl
  unpin s pg := by
    refine .of_eq ?_
    simp only [pframe_unpin]
    split
    · split <;> rfl
    · rfl
  release := pframe_release_noNew
  free _ _ := .of_eq rfl

theorem mmobj_ref_noNew {o : Nat} (h : mmobj_ref s o = some s') : NoNewMapping s s' := by
  simp only [mmobj_ref, bind, Option.bind_eq_some_iff, Option.some.injEq] at h
  obtain ⟨-, -, -, -, rfl⟩ := h
  exact .of_eq rfl

theorem vmmap_insert_noNew {m : Nat} {x : VmArea} (h : vmmap_insert C s m x = some s') : NoNewMapping s s' := by
  simp only [vmmap_insert, bind, Option.bind_eq_some_iff] at h
  obtain ⟨-, -, -, -, -, -, b, -, h⟩ := h
  split at h <;> cases h
  · exact .of_eq rfl
  · exact .refl s

theorem vmmap_remove_area_noNew {m lo fin : Nat} {a : VmArea} {done : Bool}
    (h : vmmap_remove_area C s p m lo fin a = some (s', done)) : NoNewMapping s s' := by
  simp only [vmmap_remove_area, bind] at h
  split at h
  · simp only [Option.bind_eq_some_iff, Option.some.injEq, Prod.mk.injEq] at h
    obtain ⟨s₁, h1, o, -, b, -, s₂, h2, rfl, -⟩ := h
    exact (vmmap_insert_noNew h1).trans (.trans (mmobj_ref_noNew h2 :) (pt_unmap_range_noNew lo fin))
  split at h
  · cases h; exact pt_unmap_range_noNew _ _
  split at h
  · cases h; exact pt_unmap_range_noNew _ _
  split at h
  · simp only [Option.bind_eq_some_iff, Option.some.injEq, Prod.mk.injEq] at h
    obtain ⟨o, -, b, -, s₁, h1, rfl, -⟩ := h
    exact .trans (noNew_putSteps.put h1 :) (pt_unmap_range_noNew _ _)
  · cases h; exact .refl s

theorem vmmap_remove_from_noNew {m lo fin : Nat} {l : List VmArea} :
    ∀ {s s' : State}, vmmap_remove_from C p m lo fin s l = some s' → NoNewMapping s s' := by
  induction l with
  | nil => intro s s' h; cases h; exact .refl s
  | cons a l ih =>
    intro s s' h
    simp only [vmmap_remove_from, bind, Option.bind_eq_some_iff, Prod.exists] at h
    obtain ⟨s₁, done, h1, h2⟩ := h
    refine (vmmap_remove_area_noNew h1).trans ?_
    split at h2
    · cases h2; exact .refl _
    · exact ih h2

theorem vmmap_destroy_from_noNew {m : Nat} {l : List VmArea} :
    ∀ {s s' : State}, vmmap_destroy_from C p m s l = some s' → NoNewMapping s s' := by
  induction l with
  | nil => intro s s' h; cases h; exact .refl s
  | cons a l ih =>
    intro s s' h
    simp only [vmmap_destroy_from, bind, Option.bind_eq_some_iff] at h
    obtain ⟨s₁, h1, h2⟩ := h
    exact (vmmap_remove_from_noNew h1).trans (ih h2)

/-! ## What the handler lets through -/

/-- The right an access needs: a fault that is neither a write nor an instruction fetch is a read. -/
def neededRight (cause : Cause) : Prot :=
  { read := !cause.write && !cause.exec, write := cause.write, exec := cause.exec }

/-- The area of the address. -/
def faultArea (s : State) (p vaddr : Nat) : Option VmArea :=
  (s.procs p).bind fun pr => vmmap_lookup (s.vmm_list pr.p_vmmap) (ADDR_TO_PN vaddr)

/-- The address lies in an area that allows the access. -/
def Granted (s : State) (p vaddr : Nat) (cause : Cause) : Prop :=
  ∃ a, faultArea s p vaddr = some a ∧ a.vma_prot.grants (neededRight cause) = true

/-- The process has ended with `EFAULT`, and nothing was mapped. -/
structure Terminated (s : State) (p : Nat) (s' : State) (r : FaultResult) : Prop where
  killed : r = .killed
  gone : s'.procs p = none
  status : s'.zombies p = some EFAULT
  unmapped : NoNewMapping s s'

/-- A plain read in an area that does not allow reading. -/
def UnreadableRead (s : State) (p vaddr : Nat) (cause : Cause) : Prop :=
  (cause.present = false ∧ cause.write = false ∧ cause.exec = false) ∧
    ∃ a, faultArea s p vaddr = some a ∧ a.vma_prot.read = false

theorem exit_process_terminated {pr : Proc} {r : FaultResult} (hpr : s.procs p = some pr)
    (h : (exit_process C s p EFAULT).map (·, FaultResult.killed) = some (s', r)) : Terminated s p s' r := by
  simp only [exit_process, hpr, bind, Option.bind_some, Option.map_eq_some_iff, Option.bind_eq_some_iff,
    Option.some.injEq, Prod.mk.injEq] at h
  obtain ⟨t, ⟨s₁, h1, rfl⟩, rfl, rfl⟩ := h
  exact ⟨rfl, by simp [State.setProc, State.setZombie], by simp [State.setZombie], (vmmap_destroy_from_noNew h1 :)⟩

theorem addr_perm_eq {l : List VmArea} {vaddr : Nat} {perm : Prot} {a : VmArea}
    (h : vmmap_lookup l (ADDR_TO_PN vaddr) = some a) : addr_perm l vaddr perm = a.vma_prot.grants perm := by
  simp [addr_perm, h]

/-- The handler maps the page or terminates the process, by what `addr_perm` says. -/
theorem handle_pagefault_cases {vaddr : Nat} {cause : Cause} {r : FaultResult}
    (h : handle_pagefault C E s p vaddr cause = some (s', r)) :
    (Terminated s p s' r ∧ ∀ a, faultArea s p vaddr = some a → a.vma_prot.grants (accessRight cause) = false) ∨
    (r = .mapped ∧ ∃ a, faultArea s p vaddr = some a ∧ a.vma_prot.grants (accessRight cause) = true) := by
  simp only [handle_pagefault, bind, Option.bind_eq_some_iff] at h
  obtain ⟨pr, hpr, h⟩ := h
  have hfault : faultArea s p vaddr = vmmap_lookup (s.vmm_list pr.p_vmmap) (ADDR_TO_PN vaddr) := by
    simp [faultArea, hpr]
  split at h
  next hl => exact .inl ⟨exit_process_terminated hpr h, fun a ha => by rw [hfault, hl] at ha; cases ha⟩
  next a hl =>
    rw [hfault, hl]
    rw [addr_perm_eq hl] at h
    split at h
    next hp => exact .inl ⟨exit_process_terminated hpr h, fun b hb => by cases hb; exact hp⟩
    next hp =>
      simp only [Option.bind_eq_some_iff, Option.some.injEq, Prod.mk.injEq] at h
      obtain ⟨-, -, -, rfl⟩ := h
      exact .inr ⟨rfl, a, rfl, by simpa using hp⟩

/-- Whenever the handler returns: accesses that are not granted are stopped,
exactly when the fault is not a plain read of an unreadable area. -/
theorem handle_pagefault_protects {vaddr : Nat} {cause : Cause} {r : FaultResult}
    (h : handle_pagefault C E s p vaddr cause = some (s', r)) :
    (¬ Granted s p vaddr cause → Terminated s p s' r) ↔ ¬ UnreadableRead s p vaddr cause := by
  constructor
  · rintro hprot ⟨⟨hpr, hw, hx⟩, a, ha, hread⟩
    have hask : a.vma_prot.grants (accessRight cause) = true := by
      simp [accessRight, Prot.grants, hpr, hw, hx]
    have hng : ¬ Granted s p vaddr cause := by
      rintro ⟨b, hb, hg⟩
      rw [ha] at hb
      cases hb
      simp [neededRight, Prot.grants, hw, hx, hread] at hg
    have hkilled := (hprot hng).killed
    rcases handle_pagefault_cases h with ⟨-, hno⟩ | ⟨hmapped, -⟩
    · rw [hno a ha] at hask; cases hask
    · rw [hmapped] at hkilled; cases hkilled
  · intro hnot hng
    rcases handle_pagefault_cases h with ⟨hterm, -⟩ | ⟨-, a, ha, hask⟩
    · exact hterm
    · -- The rights asked for cover the access, except for a plain read.
      refine absurd ⟨a, ha, ?_⟩ hng
      by_cases hplain : cause.present = false ∧ cause.write = false ∧ cause.exec = false
      · have hread : a.vma_prot.read = true := by
          by_contra hr
          exact hnot ⟨hplain, a, ha, by simpa using hr⟩
        simp [neededRight, Prot.grants, hplain, hread]
      · simp only [Prot.grants, accessRight, neededRight, Bool.and_eq_true, Bool.or_eq_true, Bool.not_eq_true'] at hask ⊢
        obtain ⟨⟨⟨h1, h2⟩, h3⟩, -⟩ := hask
        refine ⟨⟨⟨?_, h2⟩, h3⟩, .inl trivial⟩
        cases hw : cause.write <;> cases hx : cause.exec <;> simp_all

/-- A process with one page that it may not touch. -/
def noneArea : List Event :=
  [.spawn, .mmap 0 0 4096 {} { priv := true, anon := true } (-1) 0]

/-- A plain read of the page gets it mapped. -/
theorem noneArea_read : ∃ s tr s', Run (step .stock .simple) (fun _ _ => True) .bare s tr ∧
    handle_pagefault .stock .simple s 0 0x400000 {} = some (s', .mapped) ∧ ¬ Granted s 0 0x400000 {} := by
  have hex : (exec (step .stock .simple) (fun _ _ => true) .bare noneArea).bind (fun r =>
      (handle_pagefault .stock .simple r.1 0 0x400000 {}).map fun q => (q.2, (faultArea r.1 0 0x400000).map (·.vma_prot))) =
      some (.mapped, some {}) := by decide +kernel
  simp only [Option.bind_eq_some_iff, Option.map_eq_some_iff, Prod.mk.injEq, Prod.exists] at hex
  obtain ⟨s, tr, he, s', r, hf, rfl, a, ha, hprot⟩ := hex
  refine ⟨s, tr, s', Run.of_exec (fun _ _ _ => trivial) he, hf, ?_⟩
  rintro ⟨b, hb, hg⟩
  rw [ha] at hb
  cases hb
  rw [hprot] at hg
  revert hg
  decide

/-- A write to it ends the process. -/
theorem noneArea_write : ∃ s tr s' r, Run (step .stock .simple) (fun _ _ => True) .bare s tr ∧
    handle_pagefault .stock .simple s 0 0x400000 { write := true } = some (s', r) ∧ Terminated s 0 s' r := by
  have hex : (exec (step .stock .simple) (fun _ _ => true) .bare noneArea).bind (fun r =>
      (handle_pagefault .stock .simple r.1 0 0x400000 { write := true }).map fun _ =>
        (faultArea r.1 0 0x400000).map (·.vma_prot)) = some (some {}) := by decide +kernel
  simp only [Option.bind_eq_some_iff, Option.map_eq_some_iff, Prod.exists] at hex
  obtain ⟨s, tr, he, s', r, hf, a, ha, hprot⟩ := hex
  refine ⟨s, tr, s', r, Run.of_exec (fun _ _ _ => trivial) he, hf, (handle_pagefault_protects hf).2 ?_ ?_⟩
  · rintro ⟨⟨-, hw, -⟩, -⟩
    cases hw
  · rintro ⟨b, hb, hg⟩
    rw [ha] at hb
    cases hb
    rw [hprot] at hg
    revert hg
    decide

end Weenix.Vm
