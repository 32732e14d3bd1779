import Weenix.Vm.MemoryForking
/-!
# Copy-on-write isolation

`deepStep` is memory without sharing: an anonymous page starts as zeros, and
`fork` copies all pages. Whatever the processes do, the system with its shadow
objects has the same outcomes (`memory_isolated`).
-/

namespace Weenix.Vm

open Lib Lib.Intervals

variable {C : Config} {E : Env} {s s' : State} {p : Nat} {pr : Proc} {held : Nat → Int}

/-- The pages `[lo, lo + npages)` become `x`. -/
def setPages (f : Nat → Option Page) (lo npages : Nat) (x : Option Page) (v : Nat) : Option Page :=
  if lo ≤ v ∧ v < lo + npages then x else f v

/-- The reference model: the pages of every process, and `none` for who is no process. A new process is no process
before. A load or store at no page ends the process. -/
def deepStep (M : Nat → Option (Nat → Option Page)) : Event → Outcome → Option (Nat → Option (Nat → Option Page))
  | .spawn, .value c => if (M c).isNone then some (Function.update M c (some fun _ => none)) else none
  | .mmap p _ len _ _ _ _, .value addr => do
    let f ← M p
    some (Function.update M p (some (setPages f (ADDR_TO_PN addr) (ADDR_TO_PN (roundLen len)) (some fun _ => 0))))
  | .mmap .., .error _ => some M
  | .munmap p addr len, .value _ => do
    let f ← M p
    some (Function.update M p (some (setPages f (ADDR_TO_PN addr) (ADDR_TO_PN (roundLen len)) none)))
  | .munmap .., .error _ => some M
  | .remove p lo npages, .done => do
    let f ← M p
    some (Function.update M p (some (setPages f lo npages none)))
  | .fork p, .value c => do
    let f ← M p
    if (M c).isNone then some (Function.update M c (some f)) else none
  | .load p vaddr, .byte b => do
    let f ← M p
    let x ← f (ADDR_TO_PN vaddr)
    if b = x (vaddr % PAGE_SIZE) then some M else none
  | .store p vaddr b, .done => do
    let f ← M p
    let x ← f (ADDR_TO_PN vaddr)
    some (Function.update M p (some (Function.update f (ADDR_TO_PN vaddr) (some (Function.update x (vaddr % PAGE_SIZE) b)))))
  | .load p vaddr, .killed | .store p vaddr _, .killed => do
    let f ← M p
    if (f (ADDR_TO_PN vaddr)).isNone then some (Function.update M p none) else none
  | .exit p, .done => if (M p).isSome then some (Function.update M p none) else none
  | _, _ => none

/-- All memory is mapped private and anonymous, to be read and written. -/
def Event.Private : Event → Prop
  | .mmap _ _ _ prot flags _ _ => prot.read = true ∧ prot.write = true ∧ flags.priv = true ∧ flags.anon = true
  | .opened .. | .copyout .. | .pageout => False
  | _ => True

instance : DecidablePred Event.Private
  | .mmap _ _ _ prot flags _ _ =>
    inferInstanceAs (Decidable (prot.read = true ∧ prot.write = true ∧ flags.priv = true ∧ flags.anon = true))
  | .opened .. | .copyout .. | .pageout => isFalse id
  | .spawn | .munmap .. | .remove .. | .fork _ | .load .. | .store .. | .exit _ => isTrue trivial

/-- An access outside its memory ends the process. -/
theorem Secluded.killed (h : Secluded C held s) {v : Nat} (hpr : s.procs p = some pr) (hlacks : s.Lacks p v)
    (hx : exit_process C s p EFAULT = some s') : Secluded C held s' ∧ ((s.memory p).bind fun f =>
      if (f v).isNone then some (Function.update s.memory p none) else none) = some s'.memory := by
  obtain ⟨h1, -, hmem⟩ := h.exit hx
  refine ⟨h1, ?_⟩
  simp only [memory_of hpr, Option.bind_some, hlacks _ (memory_of hpr), Option.isNone_none, if_true, hmem]

/-- Every event does to the memory what it does to the reference model, with the same outcome. -/
theorem Secluded.step (h : Secluded C held s) {e : Event} {w : Outcome} (he : e.Sane) (hp : e.Private)
    (hst : Vm.step C E s e = some (s', w)) : Secluded C held s' ∧ deepStep s.memory e w = some s'.memory := by
  cases e with
  | spawn =>
    cases hst
    obtain ⟨h1, hnew, hmem⟩ := h.spawn
    refine ⟨h1, ?_⟩
    simp only [deepStep, hnew, Option.isNone_none, if_true, hmem]
  | mmap p addr len prot flags fd off =>
    simp only [Vm.step, bind, Option.bind_eq_some_iff, Option.some.injEq, Prod.mk.injEq, Prod.exists] at hst
    obtain ⟨s₁, r, hm, rfl, rfl⟩ := hst
    obtain ⟨hread, hwrite, hpriv, hanon⟩ := hp
    obtain ⟨h1, f, hf, ⟨e, rfl, hmem⟩ | ⟨place, rfl, hmem⟩⟩ := h.mmap he.2.1 hread hwrite hpriv hanon hm
    · exact ⟨h1, by rw [hmem]; rfl⟩
    · refine ⟨h1, ?_⟩
      simp only [deepStep, sysret, hf, bind, Option.bind_some, hmem]
      rfl
  | munmap p addr len =>
    simp only [Vm.step, bind, Option.bind_eq_some_iff, Option.some.injEq, Prod.mk.injEq, Prod.exists] at hst
    obtain ⟨s₁, r, hm, rfl, rfl⟩ := hst
    rcases do_munmap_cases hm with ⟨rfl, e, rfl⟩ | ⟨pr, hpr, hr, rfl⟩
    · exact ⟨h, rfl⟩
    · obtain ⟨h1, hmem⟩ := h.remove hpr (munmap_bound he.1 he.2) hr
      refine ⟨h1, ?_⟩
      simp only [deepStep, sysret, memory_of hpr, bind, Option.bind_some, hmem]
      rfl
  | remove p lopage npages =>
    simp only [Vm.step, bind, Option.bind_eq_some_iff, Option.some.injEq, Prod.mk.injEq] at hst
    obtain ⟨pr, hpr, s₁, hr, rfl, rfl⟩ := hst
    obtain ⟨h1, h2⟩ := he
    obtain ⟨h3, hmem⟩ := h.remove hpr (by omega) hr
    refine ⟨h3, ?_⟩
    simp only [deepStep, memory_of hpr, bind, Option.bind_some, hmem]
    rfl
  | fork p =>
    simp only [Vm.step, bind, Option.bind_eq_some_iff, Option.some.injEq, Prod.mk.injEq, Prod.exists] at hst
    obtain ⟨s₁, c, hf, rfl, rfl⟩ := hst
    obtain ⟨h1, f, hparent, hnew, hmem⟩ := h.fork hf
    refine ⟨h1, ?_⟩
    simp only [deepStep, hparent, bind, Option.bind_some, hnew, Option.isNone_none, if_true, hmem]
  | load p vaddr =>
    simp only [Vm.step, bind, Option.bind_eq_some_iff] at hst
    obtain ⟨pr, hpr, hst⟩ := hst
    rcases h.load hst with ⟨f, x, hf, hx, rfl, h1, hmem⟩ | ⟨rfl, hlacks, hexit⟩
    · refine ⟨h1, ?_⟩
      simp only [deepStep, hf, hx, bind, Option.bind_some, if_true, hmem]
    · exact h.killed hpr hlacks hexit
  | store p vaddr b =>
    simp only [Vm.step, bind, Option.bind_eq_some_iff] at hst
    obtain ⟨pr, hpr, hst⟩ := hst
    rcases h.store hst with ⟨f, x, hf, hx, rfl, h1, hmem⟩ | ⟨rfl, hlacks, hexit⟩
    · refine ⟨h1, ?_⟩
      simp only [deepStep, hf, hx, bind, Option.bind_some, hmem]
    · exact h.killed hpr hlacks hexit
  | exit p =>
    simp only [Vm.step, bind, Option.bind_eq_some_iff, Option.some.injEq, Prod.mk.injEq] at hst
    obtain ⟨s₁, hx, rfl, rfl⟩ := hst
    obtain ⟨h1, hsome, hmem⟩ := h.exit hx
    refine ⟨h1, ?_⟩
    simp only [deepStep, Option.isSome_iff_ne_none.2 hsome, if_true, hmem]
  | opened => cases hp
  | copyout => cases hp
  | pageout => cases hp

/-- A running process forks, uses its memory, removes pages, or exits. -/
def Event.Running (s : State) : Event → Prop
  | .fork p | .load p _ | .store p _ _ | .remove p _ _ | .exit p => (s.procs p).isSome = true
  | _ => False

/-- A user access returns, whether or not the process survives it. -/
theorem access_returns {R : FrameRel} (h : Linked R C held s) (hs : Settled s) (hpr : s.procs p = some pr) (vaddr : Nat) (b : UInt8) :
    (∃ r, userLoad C E s p vaddr = some r) ∧ ∃ r, userStore C E s p vaddr b = some r := by
  have hfault (cause : Cause) := handle_pagefault_total (E := E) h.backing h.outside.nonneg hs hpr vaddr cause
  constructor
  · unfold userLoad
    cases hr : readPte s p vaddr with
    | some x => exact ⟨_, rfl⟩
    | none =>
      obtain ⟨t, r, hf, -⟩ := hfault {}
      cases handle_pagefault_effect h.backing.layout hf with
      | killed => exact ⟨_, by simp only [hf, bind, Option.bind_some]; rfl⟩
      | mapped pr a t' pf =>
        exact ⟨_, by simp only [hf, bind, Option.bind_some, readPte, pt_map_self, Option.map_some]; rfl⟩
  · unfold userStore
    cases hw : writePte s p vaddr b with
    | some x => exact ⟨_, rfl⟩
    | none =>
      obtain ⟨t, r, hf, -⟩ := hfault { present := (s.p_pagedir p (ADDR_TO_PN vaddr)).isSome, write := true }
      cases handle_pagefault_effect h.backing.layout hf with
      | killed => exact ⟨_, by simp only [hf, bind, Option.bind_some]; rfl⟩
      | mapped pr a t' pf =>
        exact ⟨_, by simp only [hf, bind, Option.bind_some, writePte, pt_map_self, if_true]; rfl⟩

theorem Linked.returns {R : FrameRel} (h : Linked R C held s) (hs : Settled s) {e : Event} (he : e.Sane) (hr : e.Running s) :
    ∃ s' w, Vm.step C E s e = some (s', w) := by
  have hheld := h.outside.nonneg
  cases e with
  | fork p =>
    obtain ⟨pr, hpr⟩ := Option.isSome_iff_exists.1 hr
    obtain ⟨s', c, hf, -⟩ := do_fork_total h.backing hheld h.fresh hs hpr (h.owned.live p pr hpr).2
    exact ⟨s', .value c, by simp only [Vm.step, hf, bind, Option.bind_some]⟩
  | load p vaddr =>
    obtain ⟨pr, hpr⟩ := Option.isSome_iff_exists.1 hr
    obtain ⟨⟨r, hl⟩, -⟩ := access_returns (E := E) h hs hpr vaddr 0
    exact ⟨r.1, r.2, by simp only [Vm.step, hpr, hl, bind, Option.bind_some]⟩
  | store p vaddr b =>
    obtain ⟨pr, hpr⟩ := Option.isSome_iff_exists.1 hr
    obtain ⟨-, r, hs⟩ := access_returns (E := E) h hs hpr vaddr b
    exact ⟨r.1, r.2, by simp only [Vm.step, hpr, hs, bind, Option.bind_some]⟩
  | remove p lopage npages =>
    obtain ⟨pr, hpr⟩ := Option.isSome_iff_exists.1 hr
    obtain ⟨h1, h2⟩ := he
    have hlt : lopage + npages < 2 ^ 32 := by omega
    obtain ⟨s', hrem⟩ := vmmap_remove_returns (p := p) h.backing hheld hlt fun a ha _ => hs pr.p_vmmap a ha
    exact ⟨s', .done, by simp only [Vm.step, hpr, hrem, bind, Option.bind_some]⟩
  | exit p =>
    obtain ⟨pr, hpr⟩ := Option.isSome_iff_exists.1 hr
    obtain ⟨s', hx, -⟩ := exit_process_total h.backing hheld hs hpr 0
    exact ⟨s', .done, by simp only [Vm.step, hx, bind, Option.bind_some]⟩
  | _ => cases hr

theorem Secluded.returns (h : Secluded C held s) {e : Event} (he : e.Sane) (hr : e.Running s) :
    ∃ s' w, Vm.step C E s e = some (s', w) := h.toLinked.returns h.settled he hr

theorem Booted.secluded {s₀ : State} (h : Booted s₀) : ∃ held, Secluded C held s₀ := by
  obtain ⟨held, hL⟩ := h.linked (C := C) (R := State.reads)
  refine ⟨held, hL, fun m a ha => ?_⟩
  rw [h.lists] at ha
  cases ha

theorem Booted.memory {s₀ : State} (h : Booted s₀) : s₀.memory = fun _ => none := by
  funext p
  exact memory_none (h.procs p)

/-- Copy-on-write isolation: in every run in which memory is mapped private and anonymous, the outcomes are those of
the reference model, and every fork, load, store, removal and exit of a running process has such an outcome next. -/
theorem memory_isolated {s₀ : State} {tr : List (Event × Outcome)} (h0 : Booted s₀)
    (h : Run (step C E) (fun _ e => e.Sane ∧ e.Private) s₀ s tr) :
    ∃ M, follow deepStep (fun _ => none) tr = some M ∧ ∀ e : Event, e.Sane → e.Running s →
      ∃ s' w M', step C E s e = some (s', w) ∧ deepStep M e w = some M' := by
  obtain ⟨held, hS₀⟩ := h0.secluded (C := C)
  have hS : Secluded C held s := h.inv (Secluded C held) hS₀ fun _ _ _ _ hS hok hst => (hS.step hok.1 hok.2 hst).1
  have htrace := h.follows (Secluded C held) State.memory deepStep hS₀ fun _ _ _ _ hS hok hst => hS.step hok.1 hok.2 hst
  rw [h0.memory] at htrace
  refine ⟨s.memory, htrace, fun e he hr => ?_⟩
  obtain ⟨s', w, hst⟩ := hS.returns (E := E) he hr
  have hp : e.Private := by
    cases e with
    | mmap => cases hr
    | opened => cases hr
    | copyout => cases hr
    | pageout => cases hr
    | _ => trivial
  exact ⟨s', w, s'.memory, hst, (hS.step he hp hst).2⟩

/-- A process and its child store to the same page, and each finds what it stored. -/
theorem forked_stores_isolated : ∃ s tr M, Run (step .stock .simple) (fun _ e => e.Sane ∧ e.Private) .bare s tr ∧
    tr.map (·.2) = [.value 0, .value 0x400000, .done, .value 1, .done, .byte 7, .byte 8] ∧
    follow deepStep (fun _ => none) tr = some M ∧ ∀ e : Event, e.Sane → e.Running s →
      ∃ s' w M', step .stock .simple s e = some (s', w) ∧ deepStep M e w = some M' := by
  have hex : (exec (step .stock .simple) (fun _ e => decide (e.Sane ∧ e.Private)) .bare
      [.spawn, .mmap 0 0 4096 { read := true, write := true } { priv := true, anon := true } (-1) 0, .store 0 0x400000 7,
        .fork 0, .store 1 0x400000 8, .load 0 0x400000, .load 1 0x400000]).map (fun r => r.2.map (·.2)) =
      some [.value 0, .value 0x400000, .done, .value 1, .done, .byte 7, .byte 8] := by decide +kernel
  simp only [Option.map_eq_some_iff, Prod.exists] at hex
  obtain ⟨s, tr, he, hw⟩ := hex
  have hrun : Run (step .stock .simple) (fun _ e => e.Sane ∧ e.Private) .bare s tr := Run.of_exec (fun _ _ => of_decide_eq_true) he
  obtain ⟨M, hM, hnext⟩ := memory_isolated bare_booted hrun
  exact ⟨s, tr, M, hrun, hw, hM, hnext⟩

end Weenix.Vm
