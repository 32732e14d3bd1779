import Weenix.Proc.Release
import Weenix.Proc.VmZombies
/-!
# Exits of vm-submit that release files and memory

`kthread_exit` marks the thread `KT_EXITED`, and `proc_cleanup` then releases what
the process has, before it wakes up the parent and marks the process
`PROC_DEAD`. The rest of the kernel may change files and pages at any time.
-/

namespace Weenix.Proc.VmExit
open Lib VmSubmit

abbrev Event := ExitEvent VmSubmit.Event

abbrev Outcome := ExitOutcome VmSubmit.Outcome

/-- Interrupts come also while a thread exits. -/
def interrupts : VmSubmit.Event → Bool
  | .wakeup _ | .broadcast _ => true
  | _ => false

/-- The argument of the `kthread_exit` that ends the current thread. -/
def exitArg : VmSubmit.Event → Int
  | .do_exit addr _ => addr
  | .fault addr => addr
  | .kthread_exit retval => retval
  | .kthread_cancel _ retval => retval
  | _ => 0

/-- What is done before `kthread_exit` is called. -/
def beforeExit (k : Kernel) (cur : Nat) : VmSubmit.Event → Kernel
  | .fault _ => k.setProc cur ((k.procs cur).map fun curproc => { curproc with p_status := EFAULT })
  | _ => k

/-- `kthread_exit` and `proc_cleanup`, up to the first thing that is released. -/
def kthread_exit (s : ExitState) (k : Kernel) (cur : Nat) (retval : Int) : Option ExitState := do
  let thr ← k.threads cur
  KASSERT (thr.kt_wchan = none)
  let k := k.setThread cur (some { thr with kt_retval := retval, kt_state := .exited })
  let _ ← k.proc_initproc
  let curproc ← k.procs cur
  KASSERT (0 < curproc.p_pid)
  some ({ s with k := k }.setTodo cur (some (vmTasks s.w cur)))

variable (F : Fs) (MAX : Nat)

/-- The rest of `proc_cleanup`, and the final `sched_switch`. -/
def finish (s : ExitState) (t : Nat) : Option ExitState := do
  let thr ← s.k.threads t
  let k ← proc_cleanup s.k t thr.kt_retval
  some ({ s with k := k.setCur none }.setTodo t none)

def step (s : ExitState) : Event → Option (ExitState × Outcome)
  | .proc e => do
    KASSERT (interrupts e = true ∨ s.pending = none)
    if e.exits s.k then do
      let cur ← s.k.curthr
      let s ← kthread_exit s (beforeExit s.k cur e) cur (exitArg e)
      some (s, .done)
    else do
      let (k, w) ← VmSubmit.step MAX s.k e
      some ({ s with k := k }, .proc w)
  | .store w => some ({ s with w := w }, .done)
  | .release => do
    match ← s.pending with
    | (_, []) => none
    | (t, x :: ts) => s.release F sched_broadcast_on sched_sleep_on t x ts
  | .finish => do
    match ← s.pending with
    | (t, []) => do
      let s ← finish s t
      some (s, .ended t)
    | (_, _ :: _) => none

variable {F MAX} {k k' : Kernel} {u t : Nat} {q : Queue}

theorem wakeTail_untouched (h : wakeTail q k = some k') (hu : u ∉ k.tq_list q) : Untouched k k' u := by
  simp only [wakeTail, bind, Option.bind_eq_some_iff, Prod.exists] at h
  obtain ⟨k₁, r, h1, h2⟩ := h
  rcases dequeue_cases h1 with ⟨-, -, rfl⟩ | ⟨t, ht, rfl, ho⟩
  · cases h2
  · have hne : u ≠ t := fun e => hu (e ▸ List.mem_of_getLast? ht)
    exact (takeOff_untouched ho hne).trans (make_runnable_untouched h2 hne)

/-! ## The exiting thread -/

variable {s s' : ExitState} {e : Event} {w : Outcome}

/-- A thread that still releases is the current one, has exited and is on no queue. -/
structure Ok (s : ExitState) : Prop where
  queues : Queues s.k
  exiting : ∀ t ts, s.todo t = some ts → s.k.curthr = some t ∧
    ∃ th, s.k.threads t = some th ∧ th.kt_state = .exited ∧ th.kt_wchan = none

theorem Ok.boot (w : Store) : Ok (.boot w) := ⟨boot_queues, by rintro t ts ⟨⟩⟩

theorem Ok.not_pending (h : Ok s) (hp : s.pending = none) (t : Nat) : s.todo t = none := by
  cases ht : s.todo t with
  | none => rfl
  | some ts => simp [ExitState.pending, (h.exiting t ts ht).1, ht] at hp

theorem Ok.pending {ts : List Task} (h : Ok s) (hp : s.pending = some (t, ts)) :
    s.todo t = some ts ∧ s.k.curthr = some t ∧ ∃ th, s.k.threads t = some th ∧ th.kt_state = .exited ∧ th.kt_wchan = none := by
  simp only [ExitState.pending, Option.bind_eq_some_iff, Option.map_eq_some_iff, Prod.mk.injEq] at hp
  obtain ⟨t', -, ts', ht, rfl, rfl⟩ := hp
  exact ⟨ht, h.exiting t' ts' ht⟩

/-- The store changes, and what the current thread has to do. -/
theorem Ok.setTodo {ts ts' : List Task} {w' : Store} (h : Ok s) (ht : s.todo t = some ts) :
    Ok ({ s with w := w' }.setTodo t (some ts')) := by
  refine ⟨h.queues, fun u us hu => ?_⟩
  by_cases e : u = t
  · subst e
    exact h.exiting u ts ht
  · exact h.exiting u us (by simpa [ExitState.setTodo, e] using hu)

/-- An interrupt does not touch the exiting thread. -/
theorem Ok.kernel (h : Ok s) (hq : Queues k') (hu : ∀ t ts, s.todo t = some ts → Untouched s.k k' t) :
    Ok { s with k := k' } := by
  refine ⟨hq, fun t ts ht => ?_⟩
  obtain ⟨h1, th, h2, h3⟩ := h.exiting t ts ht
  have hun := hu t ts ht
  exact ⟨hun.cur.trans h1, th, hun.thread.trans h2, h3⟩

theorem Ok.not_mem {ts : List Task} (h : Ok s) (ht : s.todo t = some ts) (q : Queue) : t ∉ s.k.tq_list q := by
  obtain ⟨-, th, h2, -, h4⟩ := h.exiting t ts ht
  exact h.queues.not_mem h2 (by simp [h4])

theorem beforeExit_queues {cur : Nat} {e : VmSubmit.Event} (h : Queues k) : Queues (beforeExit k cur e) := by
  unfold beforeExit
  split
  · have hd : ∀ p, Dead (k.setProc cur ((k.procs cur).map fun curproc => { curproc with p_status := EFAULT })) p → Dead k p := by
      rintro p ⟨pr, hp, hd⟩
      simp only [Kernel.setProc, Function.update_apply] at hp
      split at hp
      next e =>
        obtain ⟨pr', h1, rfl⟩ := Option.map_eq_some_iff.1 hp
        exact ⟨pr', e ▸ h1, hd⟩
      next => exact ⟨pr, hp, hd⟩
    exact ⟨h.nodup, h.linked, fun p hp => h.dead p (hd p hp), fun t ht hp => h.cur t ht (hd t hp)⟩
  · exact h

theorem beforeExit_threads {cur : Nat} {e : VmSubmit.Event} :
    (beforeExit k cur e).threads = k.threads ∧ (beforeExit k cur e).curthr = k.curthr := by
  unfold beforeExit
  split <;> exact ⟨rfl, rfl⟩

theorem Ok.exit {cur : Nat} {retval : Int} (h : Ok s) (hp : s.pending = none) (hk : Queues k) (hc : k.curthr = some cur)
    (hx : kthread_exit s k cur retval = some s') : Ok s' := by
  simp only [kthread_exit, bind, Option.bind_eq_some_iff, KASSERT_eq_some, Option.some.injEq] at hx
  obtain ⟨thr, hthr, -, hw, ini, -, pr, -, -, -, rfl⟩ := hx
  refine ⟨hk.setThread _ hthr rfl (fun _ => rfl) fun _ _ => hk.not_mem hthr (by simp [hw]), fun t ts ht => ?_⟩
  by_cases e : t = cur
  · subst e
    exact ⟨hc, _, Kernel.setThread_self .., rfl, hw⟩
  · have := h.not_pending hp t
    simp [ExitState.setTodo, e, this] at ht

/-- The exiting thread cannot sleep: `sched_sleep_on` asserts that it is `KT_RUN`. -/
theorem Ok.no_sleep {ts : List Task} (h : Ok s) (ht : s.todo t = some ts) (q : Queue) (r : Resume) :
    sched_sleep_on s.k t q r = none := by
  obtain ⟨-, th, h2, h3, -⟩ := h.exiting t ts ht
  simp [sched_sleep_on, h2, KASSERT, h3]

theorem Ok.release {x : Task} {ts : List Task} (h : Ok s) (ht : s.todo t = some (x :: ts))
    (hx : s.release F sched_broadcast_on sched_sleep_on t x ts = some (s', w)) : Ok s' := by
  simp only [ExitState.release, bind, Option.bind_eq_some_iff] at hx
  obtain ⟨turn, -, hx⟩ := hx
  cases turn with
  | next w' new =>
    cases hx
    exact h.setTodo ht
  | broadcast n w' =>
    simp only [Option.bind_eq_some_iff, Option.some.injEq, Prod.mk.injEq] at hx
    obtain ⟨k₁, h1, rfl, -⟩ := hx
    have hk := h.kernel (Queues.broadcast wakeTail_queues h.queues h1) fun u us hu =>
      broadcast_untouched wakeTail_untouched h1 (h.not_mem hu _)
    exact hk.setTodo (s := { s with k := k₁ }) ht
  | wait pf => simp [h.no_sleep ht] at hx

/-- With a thread that has exited already, `kthread_exit` is the rest of `proc_cleanup`. -/
theorem kthread_exit_eq {thr : Kthread} (h1 : k.threads t = some thr) (h2 : thr.kt_state = .exited)
    (h3 : thr.kt_wchan = none) :
    VmSubmit.kthread_exit k t thr.kt_retval = (proc_cleanup k t thr.kt_retval).map (·.setCur none) := by
  obtain ⟨st, wchan, retval, cancelled⟩ := thr
  subst h2 h3
  have hk : k.setThread t (some ⟨.exited, none, retval, cancelled⟩) = k := by
    simp only [Kernel.setThread, ← h1, Function.update_eq_self]
  simp only [VmSubmit.kthread_exit, h1, bind, Option.bind_some, KASSERT, if_true, hk]
  cases proc_cleanup k t retval <;> rfl

theorem Ok.finish {ts : List Task} (h : Ok s) (ht : s.todo t = some ts) (hx : finish s t = some s') : Ok s' := by
  obtain ⟨hc, thr, h1, h2, h3⟩ := h.exiting t ts ht
  simp only [VmExit.finish, h1, bind, Option.bind_some, Option.bind_eq_some_iff, Option.some.injEq] at hx
  obtain ⟨k₁, hcl, rfl⟩ := hx
  have hex : VmSubmit.kthread_exit s.k t thr.kt_retval = some (k₁.setCur none) := by
    rw [kthread_exit_eq h1 h2 h3, hcl]
    rfl
  refine ⟨(kthread_exit_effect h.queues hex).1, fun u us hu => ?_⟩
  by_cases e : u = t
  · simp [ExitState.setTodo, e] at hu
  · have hu' : s.todo u = some us := by simpa [ExitState.setTodo, e] using hu
    exact absurd (Option.some.inj ((h.exiting u us hu').1.symm.trans hc)) e

theorem Ok.step (h : Ok s) (hx : step F MAX s e = some (s', w)) : Ok s' := by
  cases e with simp only [VmExit.step, bind, Option.bind_eq_some_iff, KASSERT_eq_some] at hx
  | proc e =>
    obtain ⟨-, hp, hx⟩ := hx
    split at hx
    next hex =>
      simp only [Option.bind_eq_some_iff, Option.some.injEq, Prod.mk.injEq] at hx
      obtain ⟨cur, hc, s₁, h1, rfl, -⟩ := hx
      have hp : s.pending = none := hp.resolve_left fun hi => by
        cases e with
        | wakeup | broadcast => exact hex.elim
        | _ => cases hi
      exact h.exit hp (beforeExit_queues h.queues) (beforeExit_threads.2.trans hc) h1
    next =>
      simp only [Option.bind_eq_some_iff, Option.some.injEq, Prod.mk.injEq, Prod.exists] at hx
      obtain ⟨k₁, w₁, h1, rfl, -⟩ := hx
      refine h.kernel (step_effect h.queues h1).1 fun t ts ht => ?_
      rcases hp with hi | hp
      · cases e with simp only [VmSubmit.step, bind, Option.bind_eq_some_iff, Option.some.injEq, Prod.mk.injEq] at h1
        | wakeup n =>
          obtain ⟨k₂, h2, rfl, -⟩ := h1
          exact wakeup_untouched h2 (h.not_mem ht _)
        | broadcast n =>
          obtain ⟨k₂, h2, rfl, -⟩ := h1
          exact broadcast_untouched wakeTail_untouched h2 (h.not_mem ht _)
        | _ => cases hi
      · rw [h.not_pending hp t] at ht
        cases ht
  | store w' =>
    cases hx
    exact ⟨h.queues, h.exiting⟩
  | release =>
    obtain ⟨⟨t, ts⟩, hp, hx⟩ := hx
    cases ts with
    | nil => cases hx
    | cons x ts => exact h.release (h.pending hp).1 hx
  | finish =>
    obtain ⟨⟨t, ts⟩, hp, hx⟩ := hx
    cases ts with
    | nil =>
      simp only [Option.bind_eq_some_iff, Option.some.injEq, Prod.mk.injEq] at hx
      obtain ⟨s₁, h1, rfl, -⟩ := hx
      exact h.finish (h.pending hp).1 h1
    | cons => cases hx

theorem run_ok {b : Store} {tr : List (Event × Outcome)} (h : Run (step F MAX) (fun _ _ => True) (.boot b) s tr) : Ok s :=
  h.inv Ok (Ok.boot b) fun _ _ _ _ hi _ hs => hi.step hs

/-- An exiting thread that has to wait sleeps, and a process that is dead has a thread that has exited. -/
structure SleepsInExit (F : Fs) (MAX : Nat) (s : ExitState) : Prop where
  sleeps : ∀ pf, s.waitsFor F = some pf → ∃ s', step F MAX s .release = some (s', .slept pf)
  exited : ∀ p, Dead s.k p → ∃ th, s.k.threads p = some th ∧ th.kt_state = .exited

theorem waitsFor_step {pf : Nat} (h : Ok s) (hw : s.waitsFor F = some pf) : step F MAX s .release = none := by
  unfold ExitState.waitsFor at hw
  split at hw
  next t x ts hp =>
    split at hw
    next hx =>
      simp only [step, hp, ExitState.release, hx, bind, Option.bind_some]
      simp [h.no_sleep (h.pending hp).1]
    next => cases hw
  next => cases hw

/-- In every state that a run reaches an exit goes on right exactly when it meets no busy page. -/
theorem sleeps_in_exit_iff {b : Store} {tr : List (Event × Outcome)} (h : Run (step F MAX) (fun _ _ => True) (.boot b) s tr) :
    SleepsInExit F MAX s ↔ s.waitsFor F = none := by
  have hok := run_ok h
  constructor
  · intro hs
    by_contra hne
    obtain ⟨pf, hpf⟩ := Option.ne_none_iff_exists'.1 hne
    obtain ⟨s', hs'⟩ := hs.sleeps pf hpf
    rw [waitsFor_step hok hpf] at hs'
    cases hs'
  · intro hn
    refine ⟨fun pf hpf => absurd (hn.symm.trans hpf) (by simp), fun p hp => ?_⟩
    obtain ⟨th, h1, h2, -⟩ := hok.queues.dead p hp
    exact ⟨th, h1, h2⟩

/-- Process 1 exits, and gets to the page. -/
def toThePage : List Event :=
  [.proc .proc_create, .proc (.start 1), .proc (.do_waitpid (-1)), .proc .dispatch, .proc (.do_exit 100 0), .release, .release,
    .release]

/-- When the page is not busy it is freed, and the process ends. -/
theorem free_page_exits : ∃ s tr, Run (step Fs.simple 256) (fun _ _ => True) (.boot (oneDir false)) s tr ∧
    tr.getLast?.map (·.2) = some (.ended 1) ∧ SleepsInExit Fs.simple 256 s := by
  have h : (exec (step Fs.simple 256) (fun _ _ => true) (.boot (oneDir false))
      (toThePage ++ List.replicate 8 .release ++ [.finish])).map
        (fun x => (x.2.getLast?.map (·.2), x.1.waitsFor Fs.simple)) = some (some (.ended 1), none) := by decide +kernel
  obtain ⟨⟨s, tr⟩, hex, hlw⟩ := Option.map_eq_some_iff.1 h
  obtain ⟨hl, hw⟩ := Prod.mk.inj hlw
  have hr : Run (step Fs.simple 256) (fun _ _ => True) (.boot (oneDir false)) s tr :=
    Run.of_exec (fun _ _ _ => trivial) hex
  exact ⟨s, tr, hr, hl, (sleeps_in_exit_iff hr).2 hw⟩

/-- When the page is busy the thread cannot wait for it. -/
theorem busy_page_stops : ¬ ∀ s tr, Run (step Fs.simple 256) (fun _ _ => True) (.boot (oneDir true)) s tr →
    SleepsInExit Fs.simple 256 s := by
  intro hall
  have h : (exec (step Fs.simple 256) (fun _ _ => true) (.boot (oneDir true)) toThePage).map
      (fun x => (x.1.waitsFor Fs.simple, (step Fs.simple 256 x.1 .release).isNone)) = some (some 5, true) := by
    decide +kernel
  simp only [Option.map_eq_some_iff, Prod.exists, Prod.mk.injEq, Option.isNone_iff_eq_none] at h
  obtain ⟨s, tr, hex, hw, hn⟩ := h
  obtain ⟨s', hs'⟩ := (hall s tr (Run.of_exec (fun _ _ _ => trivial) hex)).sleeps 5 hw
  rw [hn] at hs'
  cases hs'

end Weenix.Proc.VmExit
