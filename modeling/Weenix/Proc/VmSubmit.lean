import Weenix.Proc.Status
/-!
# Processes in vm-submit: exit and `do_waitpid`

One event is what the running thread does until it calls `sched_switch` or is
done; interrupts wake up threads at any time. Only queues other than `kt_runq`
and the `p_wait` of a process are open to the rest of the kernel. A caller of
`do_waitpid` gives a `status` pointer; what is stored there is in the outcome.
-/

namespace Weenix.Proc.VmSubmit
open Lib

inductive Event
  | proc_create
  | start (p : Nat)
  | fork
  /-- `addr` is where `do_exit` keeps its argument `status`. -/
  | do_exit (addr status : Int)
  /-- A fault that terminates the process; `addr` is where its `p_status` is. -/
  | fault (addr : Int)
  | kthread_exit (retval : Int)
  | kthread_cancel (t : Nat) (retval : Int)
  | do_waitpid (pid : Int)
  | sleep (n : Nat)
  | cancellable_sleep (n : Nat)
  | wakeup (n : Nat)
  | broadcast (n : Nat)
  | yield
  | dispatch
  deriving DecidableEq

/-- `reaped c pid status`: `do_waitpid` disposed of `c`, stored `status` and returned `pid`. -/
inductive Outcome
  | done
  | created (c : Nat)
  | ended (c : Nat)
  | reaped (c : Nat) (pid status : Int)
  | error (e : Errno)
  deriving DecidableEq

/-! ## `proc.c`, `kthread.c`, `sched.c` -/

def kthread_create (k : Kernel) (p : Nat) : Option Kernel := kthread_create_as .no_state k p

/-- The clone `c` of thread `t` is put on the queue `t` is on, and starts in user mode. -/
def kthread_clone (k : Kernel) (t c : Nat) : Option Kernel := do
  let thr ← k.threads t
  KASSERT (k.threads c = none)
  let k := (k.setThread c (some thr)).setResume c .elsewhere
  KASSERT (thr.kt_state = .run)
  match thr.kt_wchan with
  | none => some k
  | some q => some (k.setQueue q (c :: k.tq_list q) (k.tq_size q + 1))

/-- `do_fork`, as far as processes and threads go. -/
def do_fork (MAX : Nat) (k : Kernel) (cur : Nat) : Option (Kernel × Nat) := do
  let (k, c) ← proc_create MAX k cur
  let k ← kthread_clone k cur c
  let k ← sched_make_runnable k c
  some (k, c)

/-- Move each child to the children of the init process. -/
def reparent (ini : Nat) : Kernel → List Nat → Option Kernel
  | k, [] => some k
  | k, c :: cs => do
    let pr ← k.procs c
    let par ← k.procs pr.p_pproc
    let k := k.setProc pr.p_pproc (some { par with p_children := par.p_children.erase c })
    let k := k.setProc c ((k.procs c).map fun pr => { pr with p_pproc := ini })
    reparent ini (k.addChildren ini [c]) cs

/-- `status` is not used. -/
def proc_cleanup (k : Kernel) (cur : Nat) (_status : Int) : Option Kernel := do
  let ini ← k.proc_initproc
  let curproc ← k.procs cur
  KASSERT (0 < curproc.p_pid)
  let k ← sched_wakeup_on k (.wait curproc.p_pproc)
  -- the loop over the children of the init process moves them to the end of its own list
  KASSERT (cur ≠ ini ∨ curproc.p_children.length ≤ 1)
  let k ← reparent ini k curproc.p_children
  let curproc ← k.procs cur
  some (k.setProc cur (some { curproc with p_state := .dead }))

/-- With `proc_thread_exited`, which goes on to `sched_switch`. -/
def kthread_exit (k : Kernel) (cur : Nat) (retval : Int) : Option Kernel := do
  let thr ← k.threads cur
  KASSERT (thr.kt_wchan = none)
  let k := k.setThread cur (some { thr with kt_retval := retval, kt_state := .exited })
  let k ← proc_cleanup k cur retval
  some (k.setCur none)

def sched_cancel (k : Kernel) (t : Nat) : Option Kernel := do
  let kthr ← k.threads t
  KASSERT (kthr.kt_state ≠ .no_state ∧ kthr.kt_state ≠ .exited)
  let q ← kthr.kt_wchan
  let k := k.setThread t (some { kthr with kt_cancelled := true })
  if kthr.kt_state = .sleep_cancellable ∧ q ≠ .runq then do
    let k ← takeOff k q t
    sched_make_runnable k t
  else some k

/-- The current thread exits; the result says so. -/
def kthread_cancel (k : Kernel) (cur t : Nat) (retval : Int) : Option (Kernel × Bool) :=
  if cur = t then (kthread_exit k cur retval).map (·, true)
  else do
    let kthr ← k.threads t
    let k ← sched_cancel (k.setThread t (some { kthr with kt_retval := retval })) t
    some (k, false)

/-- The one thread is cancelled with the address of `status`. -/
def do_exit (k : Kernel) (cur : Nat) (addr _status : Int) : Option Kernel :=
  (kthread_cancel k cur cur addr).map (·.1)

/-- What `handle_pagefault` does when it refuses. -/
def fault (k : Kernel) (cur : Nat) (addr : Int) : Option Kernel := do
  let curproc ← k.procs cur
  kthread_exit (k.setProc cur (some { curproc with p_status := EFAULT })) cur addr

def sched_sleep_on (k : Kernel) (cur : Nat) (q : Queue) (r : Resume) : Option Kernel := do
  let thr ← k.threads cur
  KASSERT (thr.kt_state = .run)
  sleepOn k cur q .sleep r

/-- Go on after `sched_switch`, or return `-EINTR` at once. -/
def sched_cancellable_sleep_on (k : Kernel) (cur : Nat) (q : Queue) : Option (Kernel × Outcome) := do
  let thr ← k.threads cur
  if thr.kt_cancelled then some (k, .error .EINTR)
  else do
    let k ← sleepOn k cur q .sleep_cancellable .elsewhere
    some (k, .done)

/-- Take the tail thread off the queue and make it runnable. -/
def wakeTail (q : Queue) (k : Kernel) : Option Kernel := do
  match ← ktqueue_dequeue k q with
  | (_, none) => none
  | (k, some t) => sched_make_runnable k t

def sched_broadcast_on (k : Kernel) (q : Queue) : Option Kernel := broadcast_from (wakeTail q) k (k.tq_list q)

def disposeZombie (k : Kernel) (cur z : Nat) : Option Kernel := do
  let t ← k.threads z
  KASSERT (t.kt_state = .exited)
  let par ← k.procs cur
  let k := k.setThread z none
  let k := k.setProc cur (some { par with p_children := par.p_children.erase z })
  some ((k.setProc z none).setList (k.proc_list.erase z))

/-- `PROC_DEAD == p_state`. -/
def isDead (k : Kernel) (c : Nat) : Bool := (k.procs c).any (·.p_state = .dead)

def reap (k : Kernel) (cur z : Nat) : Option (Kernel × Outcome) := do
  let zombie ← k.procs z
  let k ← disposeZombie k cur z
  some (k, .reaped z zombie.p_pid zombie.p_status)

/-- A turn of the loop for `pid == -1`. -/
def waitAny (k : Kernel) (cur : Nat) : Option (Kernel × Outcome) := do
  let curproc ← k.procs cur
  match curproc.p_children.find? (isDead k) with
  | some c => reap k cur c
  | none => do
    let k ← sched_sleep_on k cur (.wait cur) .waitAny
    some (k, .done)

/-- A turn of the loop for the child `c`. -/
def waitFor (k : Kernel) (cur c : Nat) : Option (Kernel × Outcome) := do
  let child ← k.procs c
  if child.p_state = .dead then reap k cur c
  else do
    let k ← sched_sleep_on k cur (.wait cur) (.waitFor c)
    some (k, .done)

def do_waitpid (k : Kernel) (cur : Nat) (pid : Int) : Option (Kernel × Outcome) := do
  KASSERT (pid = -1 ∨ 0 < pid)
  let curproc ← k.procs cur
  if curproc.p_children = [] then some (k, .error .ECHILD)
  else if pid = -1 then waitAny k cur
  else
    -- the loop over the children keeps the last one that matches
    match curproc.p_children.reverse.find? fun c => (k.procs c).any (·.p_pid = pid) with
    | none => some (k, .error .ECHILD)
    | some child => waitFor k cur child

/-- The thread `sched_switch` finds goes on where it left off. -/
def dispatch (k : Kernel) : Option (Kernel × Outcome) := do
  let (k, t) ← sched_switch_to k
  match k.resume t with
  | .elsewhere => some (k, .done)
  | .waitAny => waitAny k t
  | .waitFor c => waitFor k t c

/-- One event. -/
def step (MAX : Nat) (k : Kernel) : Event → Option (Kernel × Outcome)
  | .wakeup n => do
    let k ← sched_wakeup_on k (.other n)
    some (k, .done)
  | .broadcast n => do
    let k ← sched_broadcast_on k (.other n)
    some (k, .done)
  | .dispatch => dispatch k
  | .proc_create => do
    let cur ← k.curthr
    let (k, c) ← proc_create MAX k cur
    some (k, .created c)
  | .start p => do
    let _ ← k.curthr
    let k ← kthread_create k p
    let k ← sched_make_runnable k p
    some (k, .done)
  | .fork => do
    let cur ← k.curthr
    let (k, c) ← do_fork MAX k cur
    some (k, .created c)
  | .do_exit addr status => do
    let cur ← k.curthr
    let k ← do_exit k cur addr status
    some (k, .ended cur)
  | .fault addr => do
    let cur ← k.curthr
    let k ← fault k cur addr
    some (k, .ended cur)
  | .kthread_exit retval => do
    let cur ← k.curthr
    let k ← kthread_exit k cur retval
    some (k, .ended cur)
  | .kthread_cancel t retval => do
    let cur ← k.curthr
    let (k, ex) ← kthread_cancel k cur t retval
    some (k, if ex then .ended cur else .done)
  | .do_waitpid pid => do
    let cur ← k.curthr
    do_waitpid k cur pid
  | .sleep n => do
    let cur ← k.curthr
    let k ← sched_sleep_on k cur (.other n) .elsewhere
    some (k, .done)
  | .cancellable_sleep n => do
    let cur ← k.curthr
    sched_cancellable_sleep_on k cur (.other n)
  | .yield => do
    let cur ← k.curthr
    let k ← sched_make_runnable (k.setResume cur .elsewhere) cur
    some (k.setCur none, .done)

/-! ## What a step does to the processes -/

variable {MAX : Nat} {k k' : Kernel} {cur : Nat} {e : Event}

/-- The status that is left by an event that ends a process. -/
def Event.leaves : Event → Int
  | .fault _ => EFAULT
  | _ => 0

def change : Event × Outcome → Change
  | (_, .created _) => .created
  | (e, .ended c) => .ended c e.leaves
  | (_, .reaped c _ st) => .reaped c st
  | _ => .quiet

theorem reparent_ends {ini : Nat} {cs : List Nat} : ∀ {k k' : Kernel}, reparent ini k cs = some k' → SameEnds k k' := by
  induction cs with
  | nil => intro k k' h; cases h; exact .refl k
  | cons c cs ih =>
    intro k k' h
    simp only [reparent, bind, Option.bind_eq_some_iff] at h
    obtain ⟨pr, -, par, hpar, h⟩ := h
    refine ((SameEnds.setProc { par with p_children := par.p_children.erase c } hpar rfl rfl).trans ?_).trans (ih h)
    exact (SameEnds.setProc_map (f := fun pr => { pr with p_pproc := ini }) (fun _ => rfl) (fun _ => rfl)).trans
      (.addChildren ini [c])

theorem kthread_clone_queues {t c : Nat} (hk : Queues k) (h : kthread_clone k t c = some k') :
    Queues k' ∧ ¬ Dead k' c ∧ k'.table = k.table := by
  simp only [kthread_clone, bind, Option.bind_eq_some_iff, KASSERT_eq_some] at h
  obtain ⟨thr, -, -, ht, -, hs, h⟩ := h
  obtain ⟨h1, h2, h3⟩ := newThread_queues thr hk ht
  replace h1 := h1.setResume (t := c) .elsewhere
  split at h
  · cases h; exact ⟨h1, h2, rfl⟩
  · next q hq =>
    cases h
    refine ⟨⟨fun q' => ?_, fun q' u hu => ?_, h1.dead, h1.cur⟩, h2, rfl⟩
    · simp only [Kernel.setQueue, Function.update_apply]
      split
      · exact List.nodup_cons.2 ⟨h3 q, h1.nodup q⟩
      · exact h1.nodup q'
    · simp only [Kernel.setQueue, Function.update_apply] at hu
      split at hu
      · next e =>
        subst e
        obtain rfl | hu := List.mem_cons.1 hu
        · exact ⟨thr, Kernel.setThread_self .., hq, by simp [hs]⟩
        · exact h1.linked _ u hu
      · exact h1.linked q' u hu

/-! ### Exit -/

theorem kthread_exit_effect {retval : Int} (hk : Queues k)
    (h : kthread_exit k cur retval = some k') : Queues k' ∧ ∃ st s, ends k cur = some (st, s) ∧
      ends k' = Function.update (ends k) cur (some (st, .dead)) ∧ k'.nprocs = k.nprocs := by
  simp only [kthread_exit, proc_cleanup, bind, Option.bind_eq_some_iff, KASSERT_eq_some, Option.some.injEq] at h
  obtain ⟨thr, hthr, -, hw, _, ⟨ini, -, pr, -, -, -, k₂, h2, -, -, k₃, h3, pr', hpr', rfl⟩, rfl⟩ := h
  -- up to the wakeup only threads and queues change, then only lists and parents
  have hk1 := hk.setThread { thr with kt_retval := retval, kt_state := .exited } hthr rfl (fun _ => rfl)
    fun _ _ => hk.not_mem hthr (by simp [hw])
  have hq1 : cur ∉ k.tq_list (.wait pr.p_pproc) := hk.not_mem hthr (by simp [hw])
  have hs := reparent_ends h3
  have ht : k₃.threads cur = some { thr with kt_retval := retval, kt_state := .exited } := by
    rw [hs.threads, hk1.wakeup_threads h2 hq1]
    simp
  have e2 : k₂.table = k.table := (sched_wakeup_on_table h2 :)
  have he : ends k₃ = ends k := hs.ends.trans (ends_table e2)
  refine ⟨(hs.queues (hk1.wakeup h2)).die _ ht rfl hw, pr'.p_status, pr'.p_state, ?_, ?_, ?_⟩
  · rw [← he]; simp [ends, hpr']
  · rw [← he]
    funext u
    simp only [ends, Kernel.setCur, Kernel.setProc, Function.update_apply]
    split <;> simp
  · exact hs.nprocs.trans (nprocs_table e2)

theorem fault_effect {addr : Int} (hk : Queues k) (h : fault k cur addr = some k') :
    Queues k' ∧ ∃ st s, ends k cur = some (st, s) ∧ ends k' = Function.update (ends k) cur (some (EFAULT, .dead)) ∧
      k'.nprocs = k.nprocs := by
  simp only [fault, bind, Option.bind_eq_some_iff] at h
  obtain ⟨pr, hpr, h⟩ := h
  have hd : ∀ u, Dead (k.setProc cur (some { pr with p_status := EFAULT })) u → Dead k u := by
    rintro u ⟨x, hx, hxs⟩
    simp only [Kernel.setProc, Function.update_apply] at hx
    split at hx
    · next e => cases hx; exact ⟨pr, e ▸ hpr, hxs⟩
    · exact ⟨x, hx, hxs⟩
  have hk' : Queues (k.setProc cur (some { pr with p_status := EFAULT })) :=
    ⟨hk.nodup, hk.linked, fun u hu => hk.dead u (hd u hu), fun u hu hud => hk.cur u hu (hd u hud)⟩
  obtain ⟨h1, st, s, h2, h3, h4⟩ := kthread_exit_effect hk' h
  have he : ends (k.setProc cur (some { pr with p_status := EFAULT })) =
      Function.update (ends k) cur (some (EFAULT, pr.p_state)) := by
    funext u
    simp only [ends, Kernel.setProc, Function.update_apply]
    split <;> simp
  rw [he] at h2 h3
  simp only [Function.update_self, Option.some.injEq, Prod.mk.injEq] at h2
  refine ⟨h1, pr.p_status, pr.p_state, by simp [ends, hpr], ?_, h4⟩
  rw [h3, ← h2.1, Function.update_idem]

theorem sched_cancel_table {t : Nat} (h : sched_cancel k t = some k') : k'.table = k.table := by
  simp only [sched_cancel, bind, Option.bind_eq_some_iff] at h
  obtain ⟨th, -, -, -, q, -, h⟩ := h
  split at h
  · simp only [Option.bind_eq_some_iff] at h
    obtain ⟨k₁, h1, h2⟩ := h
    exact (sched_make_runnable_table h2).trans (takeOff_table h1 :)
  · cases h
    rfl

theorem sched_cancel_effect {t : Nat} {kthr : Kthread} {retval : Int} (hk : Queues k) (ht : k.threads t = some kthr)
    (h : sched_cancel (k.setThread t (some { kthr with kt_retval := retval })) t = some k') :
    Queues k' ∧ k'.table = k.table := by
  refine ⟨?_, (sched_cancel_table h :)⟩
  simp only [sched_cancel, bind, Option.bind_eq_some_iff, KASSERT_eq_some] at h
  obtain ⟨th, hth, -, ⟨-, hne⟩, q, hq, h⟩ := h
  simp only [Kernel.setThread_self, Option.some.injEq] at hth
  subst hth
  have hd : ¬ Dead k t := fun hd => by
    obtain ⟨th, h1, h2, -⟩ := hk.dead t hd
    cases ht.symm.trans h1
    exact hne h2
  have hk1 := (hk.setThread_same { kthr with kt_retval := retval } ht rfl rfl).setThread_same
    { kthr with kt_retval := retval, kt_cancelled := true } (Kernel.setThread_self ..) rfl rfl
  split at h
  · simp only [Option.bind_eq_some_iff] at h
    obtain ⟨k₁, h1, h2⟩ := h
    have hk2 := hk1.takeOff (Kernel.setThread_self ..) hq h1
    have e1 := takeOff_table h1
    exact hk2.make_runnable (by rw [dead_table e1]; exact hd) h2
  · cases h
    exact hk1

/-! ### `do_waitpid` -/

variable {w : Outcome}

theorem reap_effect {z : Nat} (hk : Queues k) (hz : Dead k z) (h : reap k cur z = some (k', w)) :
    Queues k' ∧ Effect k k' (change (e, w)) := by
  simp only [reap, disposeZombie, bind, Option.bind_eq_some_iff, KASSERT_eq_some, Option.some.injEq, Prod.mk.injEq] at h
  obtain ⟨zom, hzom, _, ⟨t, -, -, -, par, hpar, rfl⟩, rfl, rfl⟩ := h
  refine ⟨hk.bury (fun q hq => hk.alive_of_mem hq hz) hpar rfl, .reaped (s := zom.p_state) ?_ ?_ rfl⟩
  · simp [ends, hzom]
  · exact bury_ends hpar rfl rfl

theorem sched_sleep_on_sleeps {q : Queue} {r : Resume} (h : sched_sleep_on k cur q r = some k') :
    sleepOn k cur q .sleep r = some k' := by
  simp only [sched_sleep_on, bind, Option.bind_eq_some_iff] at h
  obtain ⟨-, -, -, -, h⟩ := h
  exact h

theorem sched_sleep_on_table {q : Queue} {r : Resume} (h : sched_sleep_on k cur q r = some k') : k'.table = k.table :=
  sleepOn_table (sched_sleep_on_sleeps h)

theorem sched_sleep_on_effect {q : Queue} {r : Resume} (hk : Queues k) (hc : ¬ Dead k cur)
    (h : sched_sleep_on k cur q r = some k') : Queues k' ∧ k'.table = k.table :=
  ⟨hk.sleepOn hc (by simp) (sched_sleep_on_sleeps h), sched_sleep_on_table h⟩

/-- A thread that cancels itself exits. -/
theorem kthread_cancel_cases {t : Nat} {retval : Int} {ended : Bool} (h : kthread_cancel k cur t retval = some (k', ended)) :
    cur = t ∧ kthread_exit k cur retval = some k' ∧ ended = true ∨
      cur ≠ t ∧ ∃ kthr, k.threads t = some kthr ∧
        sched_cancel (k.setThread t (some { kthr with kt_retval := retval })) t = some k' ∧ ended = false := by
  unfold kthread_cancel at h
  split at h
  next e =>
    simp only [Option.map_eq_some_iff, Prod.mk.injEq] at h
    obtain ⟨k₁, h1, rfl, rfl⟩ := h
    exact .inl ⟨e, h1, rfl⟩
  next e =>
    simp only [bind, Option.bind_eq_some_iff, Option.some.injEq, Prod.mk.injEq] at h
    obtain ⟨kthr, ht, k₁, h1, rfl, rfl⟩ := h
    exact .inr ⟨e, kthr, ht, h1, rfl⟩

theorem do_exit_exits {addr status : Int} (h : do_exit k cur addr status = some k') : kthread_exit k cur addr = some k' := by
  simp only [do_exit, Option.map_eq_some_iff] at h
  obtain ⟨⟨k₁, ended⟩, h, rfl⟩ := h
  obtain ⟨-, h, -⟩ | ⟨hne, -⟩ := kthread_cancel_cases h
  · exact h
  · exact absurd rfl hne

/-- A cancellable sleep is refused when the thread has been cancelled already. -/
theorem sched_cancellable_sleep_on_cases {q : Queue} (h : sched_cancellable_sleep_on k cur q = some (k', w)) :
    ∃ thr, k.threads cur = some thr ∧ (thr.kt_cancelled = true ∧ k' = k ∧ w = .error .EINTR ∨
      thr.kt_cancelled = false ∧ sleepOn k cur q .sleep_cancellable .elsewhere = some k' ∧ w = .done) := by
  simp only [sched_cancellable_sleep_on, bind, Option.bind_eq_some_iff] at h
  obtain ⟨thr, ht, h⟩ := h
  split at h
  next hx =>
    cases h
    exact ⟨thr, ht, .inl ⟨hx, rfl, rfl⟩⟩
  next hx =>
    obtain ⟨k₁, h1, h⟩ := Option.bind_eq_some_iff.1 h
    cases h
    exact ⟨thr, ht, .inr ⟨by simpa using hx, h1, rfl⟩⟩

theorem waitAny_effect (hk : Queues k) (hc : ¬ Dead k cur) (h : waitAny k cur = some (k', w)) :
    Queues k' ∧ Effect k k' (change (e, w)) := by
  simp only [waitAny, bind, Option.bind_eq_some_iff] at h
  obtain ⟨pr, -, h⟩ := h
  split at h
  next c hfind =>
    have hd := List.find?_some hfind
    simp only [isDead, Option.any_eq_true, decide_eq_true_eq] at hd
    exact reap_effect hk hd h
  next =>
    simp only [Option.bind_eq_some_iff, Option.some.injEq, Prod.mk.injEq] at h
    obtain ⟨k₁, h1, rfl, rfl⟩ := h
    obtain ⟨h2, h3⟩ := sched_sleep_on_effect hk hc h1
    exact ⟨h2, .of_table h3⟩

theorem waitFor_effect {c : Nat} (hk : Queues k) (hc : ¬ Dead k cur) (h : waitFor k cur c = some (k', w)) :
    Queues k' ∧ Effect k k' (change (e, w)) := by
  simp only [waitFor, bind, Option.bind_eq_some_iff] at h
  obtain ⟨ch, hch, h⟩ := h
  split at h
  next hd => exact reap_effect hk ⟨ch, hch, hd⟩ h
  next =>
    simp only [Option.bind_eq_some_iff, Option.some.injEq, Prod.mk.injEq] at h
    obtain ⟨k₁, h1, rfl, rfl⟩ := h
    obtain ⟨h2, h3⟩ := sched_sleep_on_effect hk hc h1
    exact ⟨h2, .of_table h3⟩

/-- There is nothing to wait for, or the caller waits for any child or for one child. -/
theorem do_waitpid_cases {pid : Int} (h : do_waitpid k cur pid = some (k', w)) : ∃ pr, k.procs cur = some pr ∧
    (k' = k ∧ w = .error .ECHILD ∨ pid = -1 ∧ waitAny k cur = some (k', w) ∨
      ∃ c ∈ pr.p_children, (k.procs c).any (·.p_pid = pid) ∧ waitFor k cur c = some (k', w)) := by
  simp only [do_waitpid, bind, Option.bind_eq_some_iff] at h
  obtain ⟨-, -, pr, hpr, h⟩ := h
  refine ⟨pr, hpr, ?_⟩
  split at h
  next =>
    cases h
    exact .inl ⟨rfl, rfl⟩
  next =>
    split at h
    next hpid => exact .inr (.inl ⟨hpid, h⟩)
    next =>
      split at h
      next =>
        cases h
        exact .inl ⟨rfl, rfl⟩
      next c hfind =>
        have hc := List.mem_of_find?_eq_some hfind
        have hpid := List.find?_some hfind
        exact .inr (.inr ⟨c, List.mem_reverse.1 hc, hpid, h⟩)

theorem do_waitpid_effect {pid : Int} (hk : Queues k) (hc : ¬ Dead k cur) (h : do_waitpid k cur pid = some (k', w)) :
    Queues k' ∧ Effect k k' (change (e, w)) := by
  obtain ⟨pr, -, ⟨rfl, rfl⟩ | ⟨-, h⟩ | ⟨c, -, -, h⟩⟩ := do_waitpid_cases h
  · exact ⟨hk, .of_table rfl⟩
  · exact waitAny_effect hk hc h
  · exact waitFor_effect hk hc h

theorem dispatch_effect (hk : Queues k) (h : dispatch k = some (k', w)) : Queues k' ∧ Effect k k' (change (e, w)) := by
  simp only [dispatch, bind, Option.bind_eq_some_iff, Prod.exists] at h
  obtain ⟨k₁, t, h1, h⟩ := h
  have hk1 := hk.switch_to h1
  have ht := sched_switch_to_table h1
  have hc : ¬ Dead k₁ t := hk1.cur t (sched_switch_to_curthr h1)
  have after : Queues k' ∧ Effect k₁ k' (change (e, w)) → Queues k' ∧ Effect k k' (change (e, w)) := fun ⟨a, b⟩ => ⟨a, b.after ht⟩
  split at h
  · cases h; exact after ⟨hk1, .of_table rfl⟩
  · exact after (waitAny_effect hk1 hc h)
  · exact after (waitFor_effect hk1 hc h)

/-! ### Every step -/

theorem wakeTail_queues {q : Queue} (hk : Queues k) (h : wakeTail q k = some k') : Queues k' := by
  simp only [wakeTail, bind, Option.bind_eq_some_iff, Prod.exists] at h
  obtain ⟨k₁, r, h1, h⟩ := h
  obtain ⟨h2, h3⟩ := hk.dequeue h1
  have ht := ktqueue_dequeue_table h1
  cases r with
  | none => cases h
  | some t =>
    have hd : ¬ Dead k₁ t := by rw [dead_table ht]; exact hk.alive_of_mem (h3 _ rfl)
    exact h2.make_runnable hd h

theorem wakeTail_table {q : Queue} (h : wakeTail q k = some k') : k'.table = k.table := by
  simp only [wakeTail, bind, Option.bind_eq_some_iff, Prod.exists] at h
  obtain ⟨k₁, r, h1, h⟩ := h
  cases r with
  | none => cases h
  | some t => exact (sched_make_runnable_table h).trans (ktqueue_dequeue_table h1)

theorem step_effect (hk : Queues k) (h : step MAX k e = some (k', w)) : Queues k' ∧ Effect k k' (change (e, w)) := by
  cases e with simp only [step, bind, Option.bind_eq_some_iff, Option.some.injEq, Prod.mk.injEq, Prod.exists] at h
  | wakeup n =>
    obtain ⟨k₁, h1, rfl, rfl⟩ := h
    exact ⟨hk.wakeup h1, .of_table (sched_wakeup_on_table h1)⟩
  | broadcast n =>
    obtain ⟨k₁, h1, rfl, rfl⟩ := h
    exact ⟨Queues.broadcast wakeTail_queues hk h1,
      .of_table (broadcast_from_table wakeTail_table h1)⟩
  | dispatch => exact dispatch_effect hk h
  | proc_create =>
    obtain ⟨cur, -, k₁, c, h1, rfl, rfl⟩ := h
    exact ⟨proc_create_queues hk h1, proc_create_changes h1⟩
  | start p =>
    obtain ⟨cur, -, k₁, h1, k₂, h2, rfl, rfl⟩ := h
    obtain ⟨hk1, hd, ht⟩ := kthread_create_queues hk h1
    exact ⟨hk1.make_runnable hd h2, .of_table ((sched_make_runnable_table h2).trans ht)⟩
  | fork =>
    simp only [do_fork, bind, Option.bind_eq_some_iff, Option.some.injEq, Prod.mk.injEq, Prod.exists] at h
    obtain ⟨cur, -, _, _, ⟨k₁, c, h1, k₂, h2, k₃, h3, rfl, rfl⟩, rfl, rfl⟩ := h
    obtain ⟨hk2, hd, ht⟩ := kthread_clone_queues (proc_create_queues hk h1) h2
    have ht' := (sched_make_runnable_table h3).trans ht
    exact ⟨hk2.make_runnable hd h3, (proc_create_changes h1).before ht'⟩
  | do_exit addr status =>
    obtain ⟨cur, hc, k₁, h0, rfl, rfl⟩ := h
    have h1 := do_exit_exits h0
    obtain ⟨hk', st, s, h2, h3, h4⟩ := kthread_exit_effect hk h1
    exact ⟨hk', .exit hk hc h2 id h3 h4⟩
  | fault addr =>
    obtain ⟨cur, hc, k₁, h1, rfl, rfl⟩ := h
    obtain ⟨hk', st, s, h2, h3, h4⟩ := fault_effect hk h1
    exact ⟨hk', .exit hk hc h2 (fun _ => rfl) h3 h4⟩
  | kthread_exit retval =>
    obtain ⟨cur, hc, k₁, h1, rfl, rfl⟩ := h
    obtain ⟨hk', st, s, h2, h3, h4⟩ := kthread_exit_effect hk h1
    exact ⟨hk', .exit hk hc h2 id h3 h4⟩
  | kthread_cancel t retval =>
    obtain ⟨cur, hc, k₁, ex, h0, rfl, rfl⟩ := h
    obtain ⟨-, h1, rfl⟩ | ⟨-, kthr, ht, h1, rfl⟩ := kthread_cancel_cases h0
    · obtain ⟨hk', st, s, h2, h3, h4⟩ := kthread_exit_effect hk h1
      exact ⟨hk', .exit hk hc h2 id h3 h4⟩
    · obtain ⟨hk', ht'⟩ := sched_cancel_effect hk ht h1
      exact ⟨hk', .of_table ht'⟩
  | do_waitpid pid =>
    obtain ⟨cur, hc, h⟩ := h
    exact do_waitpid_effect hk (hk.cur cur hc) h
  | sleep n =>
    obtain ⟨cur, hc, k₁, h1, rfl, rfl⟩ := h
    obtain ⟨hk', ht⟩ := sched_sleep_on_effect hk (hk.cur cur hc) h1
    exact ⟨hk', .of_table ht⟩
  | cancellable_sleep n =>
    obtain ⟨cur, hc, h⟩ := h
    obtain ⟨thr, -, ⟨-, rfl, rfl⟩ | ⟨-, h1, rfl⟩⟩ := sched_cancellable_sleep_on_cases h
    · exact ⟨hk, .of_table rfl⟩
    · exact ⟨hk.sleepOn (hk.cur cur hc) (by simp) h1, .of_table (sleepOn_table h1)⟩
  | yield =>
    obtain ⟨cur, hc, k₁, h1, rfl, rfl⟩ := h
    have hk1 := (hk.setResume .elsewhere).make_runnable (hk.cur cur hc) h1
    exact ⟨hk1.setCur (by simp), .of_table (sched_make_runnable_table h1 :)⟩

/-! ## Exit status -/

theorem run_fates {tr : List (Event × Outcome)} (h : Run (step MAX) (fun _ _ => True) Kernel.boot k tr) :
    Queues k ∧ Fates k (tr.map change) := by
  refine h.inv_trace (fun k tr => Queues k ∧ Fates k (tr.map change)) ⟨boot_queues, boot_fates⟩ ?_
  intro k tr e k' w hi _ hst
  obtain ⟨hq, he⟩ := step_effect hi.1 hst
  exact ⟨hq, by rw [List.map_append]; exact hi.2.effect he⟩

/-- What `do_waitpid` stores for a child that called `do_exit` with status `s` is
`s` if and only if `s` is 0; for a child that a page fault ended it is `EFAULT`. -/
theorem reaped_status_iff {tr : List (Event × Outcome)} (h : Run (step MAX) (fun _ _ => True) Kernel.boot k tr)
    {c : Nat} {pid st : Int} (hr : (e, .reaped c pid st) ∈ tr) :
    (∀ addr s, (.do_exit addr s, .ended c) ∈ tr → (st = s ↔ s = 0)) ∧
      ∀ addr, (.fault addr, .ended c) ∈ tr → st = EFAULT := by
  have hf := (run_fates h).2
  have hst : ∀ e', (e', .ended c) ∈ tr → st = e'.leaves := fun e' he' =>
    hf.reaped_eq (List.mem_map_of_mem (f := change) hr) (List.mem_map_of_mem (f := change) he')
  refine ⟨fun addr s hx => ?_, fun addr hx => hst _ hx⟩
  rw [hst _ hx]
  exact eq_comm

/-- The idle process has two children and waits for both: the first calls
`do_exit(s)`, the second faults. -/
def twoChildren (s : Int) : List Event :=
  [.proc_create, .start 1, .proc_create, .start 2, .do_waitpid (-1), .dispatch, .do_exit 100 s, .dispatch, .fault 200,
    .dispatch, .do_waitpid (-1)]

/-- The trace of `twoChildren s`, when `st` is stored for the first child. -/
def twoReaped (s st : Int) : List (Event × Outcome) :=
  (twoChildren s).zip [.created 1, .done, .created 2, .done, .done, .done, .ended 1, .done, .ended 2, .reaped 1 1 st,
    .reaped 2 2 EFAULT]

theorem twoChildren_run (s st : Int)
    (h : (exec (step 256) (fun _ _ => true) Kernel.boot (twoChildren s)).map (·.2) = some (twoReaped s st)) :
    ∃ k, Run (step 256) (fun _ _ => True) Kernel.boot k (twoReaped s st) := by
  simp only [Option.map_eq_some_iff, Prod.exists, exists_eq_right] at h
  obtain ⟨k, hk⟩ := h
  exact ⟨k, Run.of_exec (fun _ _ _ => trivial) hk⟩

/-- The status 7 is lost. -/
theorem exit_status_lost : ∃ k tr, Run (step 256) (fun _ _ => True) Kernel.boot k tr ∧
    (.do_exit 100 7, .ended 1) ∈ tr ∧ (.dispatch, .reaped 1 1 0) ∈ tr := by
  obtain ⟨k, hk⟩ := twoChildren_run 7 0 (by decide +kernel)
  exact ⟨k, _, hk, by decide, by decide⟩

/-- The status 0 is stored, and `EFAULT` for the child that faults. -/
theorem exit_status_kept : ∃ st st' : Int, ((.dispatch, .reaped 1 1 st) ∈ twoReaped 0 0 ∧ st = 0) ∧
    (.do_waitpid (-1), .reaped 2 2 st') ∈ twoReaped 0 0 ∧ st' = EFAULT := by
  obtain ⟨k, hk⟩ := twoChildren_run 0 0 (by decide +kernel)
  have h1 : (.dispatch, .reaped 1 1 0) ∈ twoReaped 0 0 := by decide
  have h2 : (.do_waitpid (-1), .reaped 2 2 EFAULT) ∈ twoReaped 0 0 := by decide
  exact ⟨0, EFAULT, ⟨h1, ((reaped_status_iff hk h1).1 100 0 (by decide)).2 rfl⟩, h2,
    (reaped_status_iff hk h2).2 200 (by decide)⟩

end Weenix.Proc.VmSubmit
