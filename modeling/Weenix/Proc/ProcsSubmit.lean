import Weenix.Proc.Status
/-!
# Processes in procs-submit: `do_waitpid` for a given child

As in `VmSubmit`, one event is what the running thread does until it calls
`sched_switch` or is done. The exit status is passed on by value here, a wait
for a given child sleeps once, and an exit wakes up all who wait in the parent.
-/

namespace Weenix.Proc.ProcsSubmit
open Lib

inductive Event
  | proc_create
  | start (p : Nat)
  | do_exit (status : Int)
  | kthread_exit (retval : Int)
  | kthread_cancel (t : Nat) (retval : Int)
  | do_waitpid (pid : Int)
  | sleep (n : Nat)
  | cancellable_sleep (n : Nat)
  | wakeup (n : Nat)
  | broadcast (n : Nat)
  | yield
  | dispatch
  deriving DecidableEq

/-- `returned c pid status`: `do_waitpid` took `c` away, stored `status` and
returned `pid`; `slept`: it went to sleep. -/
inductive Outcome
  | done
  | created (c : Nat)
  | ended (c : Nat)
  | slept
  | returned (c : Nat) (pid status : Int)
  | error (e : Errno)
  deriving DecidableEq

/-! ## `proc.c`, `kthread.c`, `sched.c` -/

def kthread_create (k : Kernel) (p : Nat) : Option Kernel := kthread_create_as .run k p

def sched_broadcast_on (k : Kernel) (q : Queue) : Option Kernel := broadcast_from (sched_wakeup_on · q) k (k.tq_list q)

/-- Each child goes to the end of the init process's list, and is not taken off its old one. -/
def reparent (ini : Nat) : Kernel → List Nat → Kernel
  | k, [] => k
  | k, c :: cs =>
    let k := k.setProc c ((k.procs c).map fun pr => { pr with p_pproc := ini })
    reparent ini (k.addChildren ini [c]) cs

def proc_cleanup (k : Kernel) (cur : Nat) (status : Int) : Option Kernel := do
  let ini ← k.proc_initproc
  let curproc ← k.procs cur
  KASSERT (1 ≤ curproc.p_pid)
  let k := k.setProc cur (some { curproc with p_status := status, p_state := .dead })
  -- a child of the init process would be put into the list it is still linked in
  KASSERT (cur = ini → curproc.p_children = [])
  let k := reparent ini k curproc.p_children
  sched_broadcast_on k (.wait curproc.p_pproc)

/-- With `proc_thread_exited`, and `sched_switch` after it. -/
def kthread_exit (k : Kernel) (cur : Nat) (retval : Int) : Option Kernel := do
  let thr ← k.threads cur
  let k := k.setThread cur (some { thr with kt_retval := retval, kt_state := .exited })
  KASSERT (thr.kt_wchan = none)
  -- nothing reads `curthr` any more before `sched_switch`
  proc_cleanup (k.setCur none) cur retval

def sched_cancel (k : Kernel) (t : Nat) : Option Kernel := do
  let kthr ← k.threads t
  if kthr.kt_state = .sleep_cancellable then do
    let q ← kthr.kt_wchan
    let k := k.setThread t (some { kthr with kt_cancelled := true })
    let k ← takeOff k q t
    sched_make_runnable k t
  else do
    KASSERT (kthr.kt_state ≠ .no_state → kthr.kt_state ≠ .exited → kthr.kt_wchan.any (k.tq_list · ≠ []) = true)
    some (k.setThread t (some { kthr with kt_cancelled := true }))

/-- The current thread exits; the result says so. -/
def kthread_cancel (k : Kernel) (cur t : Nat) (retval : Int) : Option (Kernel × Bool) :=
  if t = cur then (kthread_exit k cur retval).map (·, true)
  else do
    let kthr ← k.threads t
    let k ← sched_cancel (k.setThread t (some { kthr with kt_retval := retval })) t
    some (k, false)

/-- The one thread is cancelled with `status`. -/
def do_exit (k : Kernel) (cur : Nat) (status : Int) : Option Kernel := (kthread_cancel k cur cur status).map (·.1)

def sched_sleep_on (k : Kernel) (cur : Nat) (q : Queue) (r : Resume) : Option Kernel := sleepOn k cur q .sleep r

/-- Go on after `sched_switch`, or return `-EINTR` at once. -/
def sched_cancellable_sleep_on (k : Kernel) (cur : Nat) (q : Queue) : Option (Kernel × Outcome) := do
  let thr ← k.threads cur
  if thr.kt_cancelled then some (k, .error .EINTR)
  else do
    let k ← sleepOn k cur q .sleep_cancellable .elsewhere
    some (k, .done)

/-- Store the status of `p`, destroy its thread, take it off the lists and
return. The state of the thread is checked after it is destroyed. -/
def takeAway (k : Kernel) (cur p : Nat) : Option (Kernel × Outcome) := do
  let child ← k.procs p
  KASSERT ((k.threads p).all (·.kt_state = .exited) = true)
  let par ← k.procs cur
  let k := k.setThread p none
  let k := k.setProc cur (some { par with p_children := par.p_children.erase p })
  some ((k.setProc p none).setList (k.proc_list.erase p), .returned p child.p_pid child.p_status)

/-- `PROC_DEAD == p_state`. -/
def isDead (k : Kernel) (c : Nat) : Bool := (k.procs c).any (·.p_state = .dead)

/-- A turn of the loop for `pid == -1`. -/
def waitAny (k : Kernel) (cur : Nat) : Option (Kernel × Outcome) := do
  let curproc ← k.procs cur
  match curproc.p_children.find? (isDead k) with
  | some p => takeAway k cur p
  | none => do
    let k ← sched_sleep_on k cur (.wait cur) .waitAny
    some (k, .slept)

/-- The first child with the given pid. -/
def named (k : Kernel) (cur : Nat) (pid : Int) : Option Nat :=
  (k.procs cur).bind fun curproc => curproc.p_children.find? fun c => (k.procs c).any (·.p_pid = pid)

def do_waitpid (k : Kernel) (cur : Nat) (pid : Int) : Option (Kernel × Outcome) := do
  KASSERT (pid = -1 ∨ 0 < pid)
  let curproc ← k.procs cur
  if curproc.p_children = [] then some (k, .error .ECHILD)
  else if pid = -1 then waitAny k cur
  else
    match named k cur pid with
    | none => some (k, .error .ECHILD)
    | some p => do
      let k ← sched_sleep_on k cur (.wait cur) (.waitFor p)
      some (k, .slept)

/-- The thread `sched_switch` finds goes on where it left off. -/
def dispatch (k : Kernel) : Option (Kernel × Outcome) := do
  let (k, t) ← sched_switch_to k
  match k.resume t with
  | .elsewhere => some (k, .done)
  | .waitAny => waitAny k t
  | .waitFor p => takeAway k t p

/-- One event. -/
def step (MAX : Nat) (k : Kernel) : Event → Option (Kernel × Outcome)
  | .wakeup n => do
    let k ← sched_wakeup_on k (.other n)
    some (k, .done)
  | .broadcast n => do
    let k ← sched_broadcast_on k (.other n)
    some (k, .done)
  | .dispatch => dispatch k
  | .proc_create => do
    let cur ← k.curthr
    let (k, c) ← proc_create MAX k cur
    some (k, .created c)
  | .start p => do
    let _ ← k.curthr
    let k ← kthread_create k p
    let k ← sched_make_runnable k p
    some (k, .done)
  | .do_exit status => do
    let cur ← k.curthr
    let k ← do_exit k cur status
    some (k, .ended cur)
  | .kthread_exit retval => do
    let cur ← k.curthr
    let k ← kthread_exit k cur retval
    some (k, .ended cur)
  | .kthread_cancel t retval => do
    let cur ← k.curthr
    let (k, ex) ← kthread_cancel k cur t retval
    some (k, if ex then .ended cur else .done)
  | .do_waitpid pid => do
    let cur ← k.curthr
    do_waitpid k cur pid
  | .sleep n => do
    let cur ← k.curthr
    let k ← sched_sleep_on k cur (.other n) .elsewhere
    some (k, .done)
  | .cancellable_sleep n => do
    let cur ← k.curthr
    sched_cancellable_sleep_on k cur (.other n)
  | .yield => do
    let cur ← k.curthr
    let k ← sched_make_runnable (k.setResume cur .elsewhere) cur
    some (k.setCur none, .done)

/-! ## What a step does to the processes -/

variable {MAX : Nat} {k k' : Kernel} {cur : Nat} {e : Event} {w : Outcome}

/-- The exit status of a process that an event ends. -/
def Event.status : Event → Int
  | .do_exit status => status
  | .kthread_exit retval => retval
  | .kthread_cancel _ retval => retval
  | _ => 0

def change : Event × Outcome → Change
  | (_, .created _) => .created
  | (e, .ended c) => .ended c e.status
  | (_, .returned c _ st) => .reaped c st
  | _ => .quiet

theorem reparent_ends {ini : Nat} {cs : List Nat} : ∀ {k : Kernel}, SameEnds k (reparent ini k cs) := by
  induction cs with
  | nil => intro k; exact .refl k
  | cons c cs ih =>
    intro k
    exact ((SameEnds.setProc_map (f := fun pr => { pr with p_pproc := ini }) (fun _ => rfl) (fun _ => rfl)).trans
      (.addChildren ini [c])).trans ih

theorem sched_broadcast_on_queues {q : Queue} (hk : Queues k) (h : sched_broadcast_on k q = some k') :
    Queues k' ∧ k'.table = k.table :=
  ⟨Queues.broadcast (fun hk h => Queues.wakeup hk h) hk h, broadcast_from_table (fun h => sched_wakeup_on_table h) h⟩

theorem kthread_exit_effect {retval : Int} (hk : Queues k) (h : kthread_exit k cur retval = some k') :
    Queues k' ∧ ∃ st s, ends k cur = some (st, s) ∧
      ends k' = Function.update (ends k) cur (some (retval, .dead)) ∧ k'.nprocs = k.nprocs := by
  simp only [kthread_exit, proc_cleanup, bind, Option.bind_eq_some_iff, KASSERT_eq_some] at h
  obtain ⟨thr, hthr, -, hw, ini, -, pr, hpr, -, -, -, -, h⟩ := h
  have hk1 := hk.setThread { thr with kt_retval := retval, kt_state := .exited } hthr rfl (fun _ => rfl)
    fun _ _ => hk.not_mem hthr (by simp [hw])
  have hk2 := hk1.die { pr with p_status := retval, p_state := .dead } (Kernel.setThread_self ..) rfl hw
  obtain ⟨hk3, ht⟩ := sched_broadcast_on_queues (reparent_ends.queues hk2) h
  refine ⟨hk3, pr.p_status, pr.p_state, ?_, ?_, (nprocs_table ht).trans reparent_ends.nprocs⟩
  · have hpr' : k.procs cur = some pr := hpr
    simp [ends, hpr']
  · refine ((ends_table ht).trans reparent_ends.ends).trans (funext fun u => ?_)
    simp only [ends, Kernel.setCur, Kernel.setProc, Kernel.setThread, Function.update_apply]
    split <;> simp

theorem sched_cancel_effect {t : Nat} {kthr : Kthread} {retval : Int} (hk : Queues k) (ht : k.threads t = some kthr)
    (h : sched_cancel (k.setThread t (some { kthr with kt_retval := retval })) t = some k') :
    Queues k' ∧ k'.table = k.table := by
  have hk1 := (hk.setThread_same { kthr with kt_retval := retval } ht rfl rfl).setThread_same
    { kthr with kt_retval := retval, kt_cancelled := true } (Kernel.setThread_self ..) rfl rfl
  simp only [sched_cancel, bind, Option.bind_eq_some_iff] at h
  obtain ⟨th, hth, h⟩ := h
  simp only [Kernel.setThread_self, Option.some.injEq] at hth
  subst hth
  split at h
  next hs =>
    have hd : ¬ Dead k t := fun hd => by
      obtain ⟨th, h1, h2, -⟩ := hk.dead t hd
      cases ht.symm.trans h1
      simp [h2] at hs
    simp only [Option.bind_eq_some_iff] at h
    obtain ⟨q, hq, k₁, h1, h2⟩ := h
    have hk2 := hk1.takeOff (Kernel.setThread_self ..) hq h1
    have e1 := takeOff_table h1
    exact ⟨hk2.make_runnable (by rw [dead_table e1]; exact hd) h2, (sched_make_runnable_table h2).trans (e1.trans rfl)⟩
  next =>
    simp only [Option.bind_eq_some_iff, KASSERT_eq_some, Option.some.injEq] at h
    obtain ⟨-, -, rfl⟩ := h
    exact ⟨hk1, rfl⟩

theorem takeAway_effect {z : Nat} (hk : Queues k) (h : takeAway k cur z = some (k', w)) :
    Queues k' ∧ Effect k k' (change (e, w)) := by
  simp only [takeAway, bind, Option.bind_eq_some_iff, KASSERT_eq_some, Option.some.injEq, Prod.mk.injEq] at h
  obtain ⟨child, hchild, -, hex, par, hpar, rfl, rfl⟩ := h
  have hz : ∀ q, z ∉ k.tq_list q := fun q hq => by
    obtain ⟨th, h1, -, h2⟩ := hk.linked q z hq
    simp only [h1, Option.all_some, decide_eq_true_eq] at hex
    exact h2 hex
  refine ⟨hk.bury hz hpar rfl, .reaped (s := child.p_state) ?_ ?_ rfl⟩
  · simp [ends, hchild]
  · exact bury_ends hpar rfl rfl

theorem sched_sleep_on_effect {q : Queue} {r : Resume} (hk : Queues k) (hc : ¬ Dead k cur)
    (h : sched_sleep_on k cur q r = some k') : Queues k' ∧ k'.table = k.table :=
  ⟨hk.sleepOn hc (by simp) h, sleepOn_table h⟩

/-- A thread that cancels itself exits. -/
theorem kthread_cancel_cases {t : Nat} {retval : Int} {ended : Bool} (h : kthread_cancel k cur t retval = some (k', ended)) :
    t = cur ∧ kthread_exit k cur retval = some k' ∧ ended = true ∨
      t ≠ cur ∧ ∃ kthr, k.threads t = some kthr ∧
        sched_cancel (k.setThread t (some { kthr with kt_retval := retval })) t = some k' ∧ ended = false := by
  unfold kthread_cancel at h
  split at h
  next e =>
    simp only [Option.map_eq_some_iff, Prod.mk.injEq] at h
    obtain ⟨k₁, h1, rfl, rfl⟩ := h
    exact .inl ⟨e, h1, rfl⟩
  next e =>
    simp only [bind, Option.bind_eq_some_iff, Option.some.injEq, Prod.mk.injEq] at h
    obtain ⟨kthr, ht, k₁, h1, rfl, rfl⟩ := h
    exact .inr ⟨e, kthr, ht, h1, rfl⟩

theorem do_exit_exits {status : Int} (h : do_exit k cur status = some k') : kthread_exit k cur status = some k' := by
  simp only [do_exit, Option.map_eq_some_iff] at h
  obtain ⟨⟨k₁, ended⟩, h, rfl⟩ := h
  obtain ⟨-, h, -⟩ | ⟨hne, -⟩ := kthread_cancel_cases h
  · exact h
  · exact absurd rfl hne

/-- A cancellable sleep is refused when the thread has been cancelled already. -/
theorem sched_cancellable_sleep_on_cases {q : Queue} (h : sched_cancellable_sleep_on k cur q = some (k', w)) :
    ∃ thr, k.threads cur = some thr ∧ (thr.kt_cancelled = true ∧ k' = k ∧ w = .error .EINTR ∨
      thr.kt_cancelled = false ∧ sleepOn k cur q .sleep_cancellable .elsewhere = some k' ∧ w = .done) := by
  simp only [sched_cancellable_sleep_on, bind, Option.bind_eq_some_iff] at h
  obtain ⟨thr, ht, h⟩ := h
  split at h
  next hx =>
    cases h
    exact ⟨thr, ht, .inl ⟨hx, rfl, rfl⟩⟩
  next hx =>
    obtain ⟨k₁, h1, h⟩ := Option.bind_eq_some_iff.1 h
    cases h
    exact ⟨thr, ht, .inr ⟨by simpa using hx, h1, rfl⟩⟩

theorem waitAny_effect (hk : Queues k) (hc : ¬ Dead k cur) (h : waitAny k cur = some (k', w)) :
    Queues k' ∧ Effect k k' (change (e, w)) := by
  simp only [waitAny, bind, Option.bind_eq_some_iff] at h
  obtain ⟨pr, -, h⟩ := h
  split at h
  · exact takeAway_effect hk h
  · simp only [Option.bind_eq_some_iff, Option.some.injEq, Prod.mk.injEq] at h
    obtain ⟨k₁, h1, rfl, rfl⟩ := h
    obtain ⟨h2, h3⟩ := sched_sleep_on_effect hk hc h1
    exact ⟨h2, .of_table h3⟩

theorem do_waitpid_effect {pid : Int} (hk : Queues k) (hc : ¬ Dead k cur) (h : do_waitpid k cur pid = some (k', w)) :
    Queues k' ∧ Effect k k' (change (e, w)) := by
  simp only [do_waitpid, bind, Option.bind_eq_some_iff] at h
  obtain ⟨-, -, pr, -, h⟩ := h
  split at h
  · cases h; exact ⟨hk, .of_table rfl⟩
  · split at h
    · exact waitAny_effect hk hc h
    · split at h
      · cases h; exact ⟨hk, .of_table rfl⟩
      · simp only [Option.bind_eq_some_iff, Option.some.injEq, Prod.mk.injEq] at h
        obtain ⟨k₁, h1, rfl, rfl⟩ := h
        obtain ⟨h2, h3⟩ := sched_sleep_on_effect hk hc h1
        exact ⟨h2, .of_table h3⟩

theorem dispatch_effect (hk : Queues k) (h : dispatch k = some (k', w)) : Queues k' ∧ Effect k k' (change (e, w)) := by
  simp only [dispatch, bind, Option.bind_eq_some_iff, Prod.exists] at h
  obtain ⟨k₁, t, h1, h⟩ := h
  have hk1 := hk.switch_to h1
  have ht := sched_switch_to_table h1
  have after : Queues k' ∧ Effect k₁ k' (change (e, w)) → Queues k' ∧ Effect k k' (change (e, w)) :=
    fun ⟨a, b⟩ => ⟨a, b.after ht⟩
  split at h
  · cases h; exact after ⟨hk1, .of_table rfl⟩
  · exact after (waitAny_effect hk1 (hk1.cur t (sched_switch_to_curthr h1)) h)
  · exact after (takeAway_effect hk1 h)

/-! ### Every step -/

theorem step_effect (hk : Queues k) (h : step MAX k e = some (k', w)) : Queues k' ∧ Effect k k' (change (e, w)) := by
  cases e with simp only [step, bind, Option.bind_eq_some_iff, Option.some.injEq, Prod.mk.injEq, Prod.exists] at h
  | wakeup n =>
    obtain ⟨k₁, h1, rfl, rfl⟩ := h
    exact ⟨hk.wakeup h1, .of_table (sched_wakeup_on_table h1)⟩
  | broadcast n =>
    obtain ⟨k₁, h1, rfl, rfl⟩ := h
    obtain ⟨hk', ht⟩ := sched_broadcast_on_queues hk h1
    exact ⟨hk', .of_table ht⟩
  | dispatch => exact dispatch_effect hk h
  | proc_create =>
    obtain ⟨cur, -, k₁, c, h1, rfl, rfl⟩ := h
    exact ⟨proc_create_queues hk h1, proc_create_changes h1⟩
  | start p =>
    obtain ⟨cur, -, k₁, h1, k₂, h2, rfl, rfl⟩ := h
    obtain ⟨hk1, hd, ht⟩ := kthread_create_queues hk h1
    exact ⟨hk1.make_runnable hd h2, .of_table ((sched_make_runnable_table h2).trans ht)⟩
  | do_exit status =>
    obtain ⟨cur, hc, k₁, h0, rfl, rfl⟩ := h
    have h1 := do_exit_exits h0
    obtain ⟨hk', st, s, h2, h3, h4⟩ := kthread_exit_effect hk h1
    exact ⟨hk', .exit hk hc h2 (fun _ => rfl) h3 h4⟩
  | kthread_exit retval =>
    obtain ⟨cur, hc, k₁, h1, rfl, rfl⟩ := h
    obtain ⟨hk', st, s, h2, h3, h4⟩ := kthread_exit_effect hk h1
    exact ⟨hk', .exit hk hc h2 (fun _ => rfl) h3 h4⟩
  | kthread_cancel t retval =>
    obtain ⟨cur, hc, k₁, ex, h0, rfl, rfl⟩ := h
    obtain ⟨-, h1, rfl⟩ | ⟨-, kthr, ht, h1, rfl⟩ := kthread_cancel_cases h0
    · obtain ⟨hk', st, s, h2, h3, h4⟩ := kthread_exit_effect hk h1
      exact ⟨hk', .exit hk hc h2 (fun _ => rfl) h3 h4⟩
    · obtain ⟨hk', ht'⟩ := sched_cancel_effect hk ht h1
      exact ⟨hk', .of_table ht'⟩
  | do_waitpid pid =>
    obtain ⟨cur, hc, h⟩ := h
    exact do_waitpid_effect hk (hk.cur cur hc) h
  | sleep n =>
    obtain ⟨cur, hc, k₁, h1, rfl, rfl⟩ := h
    obtain ⟨hk', ht⟩ := sched_sleep_on_effect hk (hk.cur cur hc) h1
    exact ⟨hk', .of_table ht⟩
  | cancellable_sleep n =>
    obtain ⟨cur, hc, h⟩ := h
    obtain ⟨thr, -, ⟨-, rfl, rfl⟩ | ⟨-, h1, rfl⟩⟩ := sched_cancellable_sleep_on_cases h
    · exact ⟨hk, .of_table rfl⟩
    · exact ⟨hk.sleepOn (hk.cur cur hc) (by simp) h1, .of_table (sleepOn_table h1)⟩
  | yield =>
    obtain ⟨cur, hc, k₁, h1, rfl, rfl⟩ := h
    have hk1 := (hk.setResume .elsewhere).make_runnable (hk.cur cur hc) h1
    exact ⟨hk1.setCur (by simp), .of_table (sched_make_runnable_table h1 :)⟩

theorem run_fates {ok : Kernel → Event → Prop} {tr : List (Event × Outcome)}
    (h : Run (step MAX) ok Kernel.boot k tr) : Queues k ∧ Fates k (tr.map change) := by
  refine h.inv_trace (fun k tr => Queues k ∧ Fates k (tr.map change)) ⟨boot_queues, boot_fates⟩ ?_
  intro k tr e k' w hi _ hst
  obtain ⟨hq, he⟩ := step_effect hi.1 hst
  exact ⟨hq, by rw [List.map_append]; exact hi.2.effect he⟩

/-! ## Waiting for a given child -/

/-- `e` is a step of a call `do_waitpid(pid)` with `pid > 0` that names `c`: the
call itself, or the caller going on after its sleep. -/
def WaitsFor (k : Kernel) (c : Nat) : Event → Prop
  | .do_waitpid pid => 0 < pid ∧ ∃ cur, k.curthr = some cur ∧ named k cur pid = some c
  | .dispatch => ∃ t, (k.tq_list .runq).getLast? = some t ∧ k.resume t = .waitFor c
  | _ => False

/-- In the run `tr`, process `c` has ended with status `st`, and with no other. -/
def ExitStatus (tr : List (Event × Outcome)) (c : Nat) (st : Int) : Prop :=
  (∃ e, (e, .ended c) ∈ tr) ∧ ∀ e, (e, .ended c) ∈ tr → e.status = st

/-- What a wait for a given child has to do in a step: it returns only when the
child is dead, with its exit status, and does not sleep when it is dead already. -/
structure WaitsRight (k : Kernel) (tr : List (Event × Outcome)) (e : Event) (w : Outcome) : Prop where
  returned : ∀ c p st, WaitsFor k c e → w = .returned c p st → Dead k c ∧ ExitStatus tr c st
  awake : ∀ c, WaitsFor k c e → Dead k c → w ≠ .slept

/-- A call is made before the child is dead, and the caller is scheduled after its death. -/
def InTime (k : Kernel) (e : Event) : Prop := ∀ c, WaitsFor k c e → (Dead k c ↔ e = .dispatch)

theorem exitStatus_of_dead {tr : List (Event × Outcome)} {c : Nat} {st : Int} (hf : Fates k (tr.map change))
    (hd : ends k c = some (st, .dead)) : ExitStatus tr c st := by
  obtain ⟨h1, h2⟩ := hf.dead_status hd
  refine ⟨?_, fun e he => h2 _ (List.mem_map_of_mem (f := change) he)⟩
  obtain ⟨⟨e, w⟩, hm, he⟩ := List.mem_map.1 h1
  cases w with simp [change] at he
  | ended c' =>
    obtain ⟨rfl, -⟩ := he
    exact ⟨e, hm⟩

/-- The call goes to sleep. -/
theorem call_sleeps {pid : Int} {c : Nat} (hw : WaitsFor k c (.do_waitpid pid))
    (h : step MAX k (.do_waitpid pid) = some (k', w)) : w = .slept := by
  obtain ⟨hpid, cur, hc, hn⟩ := hw
  simp only [step, hc, do_waitpid, bind, Option.bind_some, Option.bind_eq_some_iff] at h
  obtain ⟨-, -, pr, hpr, h⟩ := h
  have hch : pr.p_children ≠ [] := by
    intro he
    simp [named, hpr, he] at hn
  rw [if_neg hch, if_neg (by omega), hn] at h
  simp only [Option.bind_eq_some_iff, Option.some.injEq, Prod.mk.injEq] at h
  obtain ⟨k₁, -, -, rfl⟩ := h
  rfl

theorem takeOff_resume {q : Queue} {t : Nat} (h : takeOff k q t = some k') : k'.resume = k.resume := by
  simp only [takeOff, bind, Option.bind_eq_some_iff, Option.some.injEq] at h
  obtain ⟨th, -, rfl⟩ := h
  rfl

theorem dequeue_last {q : Queue} {t : Nat} (h : ktqueue_dequeue k q = some (k', some t)) :
    (k.tq_list q).getLast? = some t ∧ k'.resume = k.resume := by
  simp only [ktqueue_dequeue] at h
  split at h
  · cases h
  · next t' ht =>
    simp only [Option.map_eq_some_iff, Prod.mk.injEq, Option.some.injEq] at h
    obtain ⟨k₁, h1, rfl, rfl⟩ := h
    exact ⟨ht, takeOff_resume h1⟩

theorem sched_switch_to_next {t : Nat} (h : sched_switch_to k = some (k', t)) :
    (k.tq_list .runq).getLast? = some t ∧ k'.resume = k.resume := by
  simp only [sched_switch_to, bind, Option.bind_eq_some_iff, Prod.exists] at h
  obtain ⟨-, -, k₁, r, h1, h⟩ := h
  cases r with
  | none => cases h
  | some t' =>
    cases h
    exact (dequeue_last h1 :)

/-- The caller returns with the status the child has. -/
theorem caller_returns {c : Nat} (hw : WaitsFor k c .dispatch) (h : step MAX k .dispatch = some (k', w)) :
    ∃ child, k.procs c = some child ∧ w = .returned c child.p_pid child.p_status := by
  obtain ⟨t, ht, hr⟩ := hw
  simp only [step, dispatch, bind, Option.bind_eq_some_iff, Prod.exists] at h
  obtain ⟨k₁, t', h1, h⟩ := h
  obtain ⟨h2, h3⟩ := sched_switch_to_next h1
  cases ht.symm.trans h2
  rw [h3, hr] at h
  simp only [takeAway, bind, Option.bind_eq_some_iff, Option.some.injEq, Prod.mk.injEq] at h
  obtain ⟨child, hchild, -, -, -, -, -, rfl⟩ := h
  have hp : k₁.procs = k.procs := congrArg Table.procs (sched_switch_to_table h1)
  exact ⟨child, hp ▸ hchild, rfl⟩

theorem right_of_inTime {tr : List (Event × Outcome)} (hf : Fates k (tr.map change))
    (hst : step MAX k e = some (k', w)) (hin : InTime k e) : WaitsRight k tr e w := by
  constructor
  · intro c p st hw hret
    cases e with
    | do_waitpid pid => cases (call_sleeps hw hst).symm.trans hret
    | dispatch =>
      have hd : Dead k c := (hin c hw).2 rfl
      obtain ⟨child, hchild, hret'⟩ := caller_returns hw hst
      cases hret'.symm.trans hret
      obtain ⟨pr, h1, h2⟩ := hd
      cases hchild.symm.trans h1
      exact ⟨⟨child, hchild, h2⟩, exitStatus_of_dead hf (by simp [ends, hchild, h2])⟩
    | _ => exact hw.elim
  · intro c hw hd hslept
    obtain rfl : e = .dispatch := (hin c hw).1 hd
    obtain ⟨child, -, hret⟩ := caller_returns hw hst
    cases hret.symm.trans hslept

theorem dead_of_isDead {c : Nat} (h : isDead k c = true) : Dead k c := by
  simpa [isDead, Option.any_eq_true, Dead] using h

/-- The idle process has a child that exits with 7. -/
def exitedChild : List Event := [.proc_create, .start 1, .yield, .dispatch, .do_exit 7, .dispatch]

/-- It has two, of which the second has not started, and waits for it; the first exits. -/
def otherChild : List Event := [.proc_create, .start 1, .proc_create, .do_waitpid 2, .dispatch, .do_exit 7]

/-- A process that runs no more. -/
def Over (k : Kernel) (c : Nat) : Prop := c < k.nprocs ∧ ∀ st, ends k c ≠ some (st, .running)

/-- While a process waits for a given child, only that child exits; a wait is
called before the child is dead. -/
def OwnExits (k : Kernel) (e : Event) : Prop :=
  (∀ c, (∃ pid, e = .do_waitpid pid) → WaitsFor k c e → ¬ Dead k c) ∧
    ∀ cur pr, k.curthr = some cur → k.procs cur = some pr →
      (∃ st, e = .do_exit st ∨ e = .kthread_exit st ∨ e = .kthread_cancel cur st) →
        ∀ t ∈ k.tq_list (.wait pr.p_pproc), ∀ c, k.resume t = .waitFor c → c = cur

/-- Who waits for a given child sleeps in its own `p_wait`, not cancellable, or
the child is over. -/
structure Waiting (past : Nat → Prop) (k : Kernel) : Prop where
  place : ∀ q t c, t ∈ k.tq_list q → k.resume t = .waitFor c → q = .wait t ∨ (q = .runq ∧ past c)
  deep : ∀ t c th, k.resume t = .waitFor c → k.threads t = some th → th.kt_state ≠ .sleep_cancellable

namespace Waiting

variable {past past' : Nat → Prop} {q : Queue} {t : Nat} {th : Kthread}

theorem mono (h : Waiting past k) (ho : ∀ c, past c → past' c) : Waiting past' k :=
  ⟨fun q t c h1 h2 => (h.place q t c h1 h2).imp_right (.imp_right (ho c)), h.deep⟩

theorem congr (h : Waiting past k) (h1 : k'.tq_list = k.tq_list) (h2 : k'.resume = k.resume)
    (h3 : k'.threads = k.threads) : Waiting past k' :=
  ⟨by rw [h1, h2]; exact h.place, by rw [h2, h3]; exact h.deep⟩

/-- A thread changes in place. -/
theorem setThread (h : Waiting past k) {o : Option Kthread} (hs : ∀ th c, o = some th → k.resume t = .waitFor c →
    th.kt_state ≠ .sleep_cancellable) : Waiting past (k.setThread t o) := by
  refine ⟨h.place, fun u c thu hr hu => ?_⟩
  simp only [Kernel.setThread, Function.update_apply] at hu
  split at hu
  · next e => subst e; exact hs thu c hu hr
  · exact h.deep u c thu hr hu

/-- A thread that waits for nothing. -/
theorem setResume (h : Waiting past k) : Waiting past (k.setResume t .elsewhere) := by
  have hr : ∀ u c, (k.setResume t .elsewhere).resume u = .waitFor c → k.resume u = .waitFor c := by
    intro u c hc
    simp only [Kernel.setResume, Function.update_apply] at hc
    split at hc
    · cases hc
    · exact hc
  exact ⟨fun q u c hu hc => h.place q u c hu (hr u c hc), fun u c th hc => h.deep u c th (hr u c hc)⟩

theorem takeOff (h : Waiting past k) (ht : takeOff k q t = some k') : Waiting past k' := by
  simp only [Proc.takeOff, bind, Option.bind_eq_some_iff, Option.some.injEq] at ht
  obtain ⟨th, hth, rfl⟩ := ht
  refine ⟨fun q' u c hu hr => ?_, fun u c thu hr hu => ?_⟩
  · simp only [Kernel.setThread, Kernel.setQueue, Function.update_apply] at hu
    split at hu
    · next e => subst e; exact h.place _ u c (List.mem_of_mem_erase hu) hr
    · exact h.place q' u c hu hr
  · simp only [Kernel.setThread, Kernel.setQueue, Function.update_apply] at hu
    split at hu
    · next e => cases hu; subst e; exact h.deep u c th hr hth
    · exact h.deep u c thu hr hu

theorem make_runnable (h : Waiting past k) (ho : ∀ c, k.resume t = .waitFor c → past c)
    (ht : sched_make_runnable k t = some k') : Waiting past k' := by
  simp only [sched_make_runnable, ktqueue_enqueue, bind, Option.bind_eq_some_iff, Kernel.setThread_self,
    Option.some.injEq] at ht
  obtain ⟨th, hth, -, -, _, rfl, -, -, rfl⟩ := ht
  refine ⟨fun q' u c hu hr => ?_, fun u c thu hr hu => ?_⟩
  · simp only [Kernel.setThread, Kernel.setQueue, Function.update_apply] at hu
    split at hu
    · next e =>
      subst e
      obtain rfl | hu := List.mem_cons.1 hu
      · exact .inr ⟨rfl, ho c hr⟩
      · exact h.place _ u c hu hr
    · exact h.place q' u c hu hr
  · simp only [Kernel.setThread, Kernel.setQueue, Function.update_apply] at hu
    split at hu
    · cases hu; simp
    · exact h.deep u c thu hr hu

theorem sleepOn {st : ThreadState} {r : Resume} (h : Waiting past k) (hk : Queues k)
    (hr : ∀ c, r = .waitFor c → q = .wait t ∧ st = .sleep) (ht : sleepOn k t q st r = some k') : Waiting past k' := by
  simp only [Proc.sleepOn, ktqueue_enqueue, bind, Option.bind_eq_some_iff, Kernel.setThread_self, KASSERT_eq_some,
    Option.some.injEq] at ht
  obtain ⟨th, hth, _, ⟨_, rfl, -, hw, rfl⟩, rfl⟩ := ht
  have hnot : ∀ q', t ∉ k.tq_list q' := fun q' => hk.not_mem hth (by simp only at hw; simp [hw])
  refine ⟨fun q' u c hu hc => ?_, fun u c thu hc hu => ?_⟩
  · simp only [Kernel.setThread, Kernel.setQueue, Kernel.setResume, Kernel.setCur, Function.update_apply] at hu hc
    by_cases hut : u = t
    · subst hut
      rw [if_pos rfl] at hc
      split at hu
      · next e => subst e; exact .inl (hr c hc).1
      · exact absurd hu (hnot q')
    · rw [if_neg hut] at hc
      split at hu
      · next e => subst e; exact h.place _ u c ((List.mem_cons.1 hu).resolve_left hut) hc
      · exact h.place q' u c hu hc
  · simp only [Kernel.setThread, Kernel.setQueue, Kernel.setResume, Kernel.setCur, Function.update_apply] at hu hc
    split at hc
    · next e =>
      subst e
      rw [if_pos rfl] at hu
      cases hu
      simp [(hr c hc).2]
    · next e =>
      rw [if_neg e, if_neg e] at hu
      exact h.deep u c thu hc hu

/-- Waking up threads whose child is over, or that wait for nothing. -/
theorem wakeup (h : Waiting past k) (hq : ∀ t ∈ k.tq_list q, ∀ c, k.resume t = .waitFor c → past c)
    (hw : sched_wakeup_on k q = some k') : Waiting past k' := by
  simp only [sched_wakeup_on, ktqueue_dequeue, bind, Option.bind_eq_some_iff, Prod.exists] at hw
  obtain ⟨k₁, r, h1, hw⟩ := hw
  split at h1
  · cases h1; cases hw; exact h
  · next t ht =>
    simp only [Option.map_eq_some_iff, Prod.mk.injEq] at h1
    obtain ⟨k₂, h1, rfl, rfl⟩ := h1
    simp only [Option.bind_eq_some_iff] at hw
    obtain ⟨-, -, hw⟩ := hw
    have hr : k₂.resume = k.resume := takeOff_resume h1
    exact (h.takeOff h1).make_runnable (fun c hc => hq t (List.mem_of_getLast? ht) c (hr ▸ hc)) hw

theorem switch_to (h : Waiting past k) (hs : sched_switch_to k = some (k', t)) : Waiting past k' := by
  simp only [sched_switch_to, ktqueue_dequeue, bind, Option.bind_eq_some_iff, Prod.exists] at hs
  obtain ⟨-, -, k₁, r, h1, hs⟩ := hs
  split at h1
  · cases h1; cases hs
  · simp only [Option.map_eq_some_iff, Prod.mk.injEq] at h1
    obtain ⟨k₂, h1, rfl, rfl⟩ := h1
    cases hs
    exact (h.takeOff h1).congr rfl rfl rfl

end Waiting

/-- What is left on a queue after a wakeup was there before. -/
theorem wakeup_subset {q : Queue} (hq : q ≠ .runq) (h : sched_wakeup_on k q = some k') :
    k'.resume = k.resume ∧ ∀ t ∈ k'.tq_list q, t ∈ k.tq_list q := by
  simp only [sched_wakeup_on, ktqueue_dequeue, bind, Option.bind_eq_some_iff, Prod.exists] at h
  obtain ⟨k₁, r, h1, h⟩ := h
  split at h1
  · cases h1; cases h; exact ⟨rfl, fun _ h => h⟩
  · next t ht =>
    simp only [Option.map_eq_some_iff, Prod.mk.injEq, takeOff, bind, Option.bind_eq_some_iff, Option.some.injEq] at h1
    obtain ⟨_, ⟨th, -, rfl⟩, rfl, rfl⟩ := h1
    simp only [Option.bind_eq_some_iff, sched_make_runnable, ktqueue_enqueue, bind, Option.some.injEq] at h
    obtain ⟨-, -, th', -, -, -, th'', -, -, -, rfl⟩ := h
    refine ⟨rfl, fun u hu => ?_⟩
    simp only [Kernel.setThread, Kernel.setQueue, Function.update_apply, if_neg hq, if_true] at hu
    exact List.mem_of_mem_erase hu

theorem Waiting.broadcast {past : Nat → Prop} {q : Queue} (hq : q ≠ .runq) {ts : List Nat} : ∀ {k k' : Kernel}, Waiting past k →
    (∀ t ∈ k.tq_list q, ∀ c, k.resume t = .waitFor c → past c) →
      broadcast_from (sched_wakeup_on · q) k ts = some k' → Waiting past k' := by
  induction ts with
  | nil => intro k k' h _ hb; cases hb; exact h
  | cons t ts ih =>
    intro k k' h ho hb
    simp only [broadcast_from, bind, Option.bind_eq_some_iff] at hb
    obtain ⟨k₁, h1, h2⟩ := hb
    obtain ⟨hr, hsub⟩ := wakeup_subset hq h1
    exact ih (h.wakeup ho h1) (fun t ht c hc => ho t (hsub t ht) c (hr ▸ hc)) h2

theorem Over.effect {ch : Change} (he : Effect k k' ch) {c : Nat}
    (h : Over k c) : Over k' c := by
  obtain ⟨hlt, hne⟩ := h
  cases he with
  | quiet h1 h2 => exact ⟨h2 ▸ hlt, h1 ▸ hne⟩
  | created h1 h2 =>
    refine ⟨by omega, fun st => ?_⟩
    rw [h1, Function.update_of_ne (by omega)]
    exact hne st
  | ended h1 h2 h3 h4 =>
    refine ⟨h4 ▸ hlt, fun st => ?_⟩
    rw [h3, Function.update_apply]
    split
    · simp
    · exact hne st
  | reaped h1 h2 h3 =>
    refine ⟨h3 ▸ hlt, fun st => ?_⟩
    rw [h2, Function.update_apply]
    split
    · simp
    · exact hne st

theorem reparent_resume {ini : Nat} {cs : List Nat} : ∀ {k : Kernel},
    (reparent ini k cs).resume = k.resume := by
  induction cs with
  | nil => intro k; rfl
  | cons c cs ih => intro k; exact ih.trans rfl

theorem kthread_exit_waiting {retval : Int} {past : Nat → Prop} (h : Waiting past k)
    (hown : ∀ pr, k.procs cur = some pr → ∀ t ∈ k.tq_list (.wait pr.p_pproc), ∀ c, k.resume t = .waitFor c → past c)
    (hx : kthread_exit k cur retval = some k') : Waiting past k' := by
  simp only [kthread_exit, proc_cleanup, bind, Option.bind_eq_some_iff, KASSERT_eq_some] at hx
  obtain ⟨thr, hthr, -, hw, ini, -, pr, hpr, -, -, -, -, hx⟩ := hx
  have h1 := h.setThread (t := cur) (o := some { thr with kt_retval := retval, kt_state := .exited }) (by rintro _ _ ⟨⟩; simp)
  have h2 : Waiting past ((((k.setThread cur (some { thr with kt_retval := retval, kt_state := .exited })).setCur
      none).setProc cur (some { pr with p_status := retval, p_state := .dead }))) := h1.congr rfl rfl rfl
  refine Waiting.broadcast (q := .wait pr.p_pproc) (by simp)
    (h2.congr reparent_ends.tq_list reparent_resume reparent_ends.threads) ?_ hx
  rw [reparent_resume, reparent_ends.tq_list]
  exact hown pr hpr

theorem takeAway_waiting {z : Nat} {past : Nat → Prop} (h : Waiting past k)
    (hx : takeAway k cur z = some (k', w)) : Waiting past k' := by
  simp only [takeAway, bind, Option.bind_eq_some_iff, Option.some.injEq, Prod.mk.injEq] at hx
  obtain ⟨child, -, -, -, par, -, rfl, -⟩ := hx
  exact (h.setThread (t := z) (o := none) (by simp)).congr rfl rfl rfl

theorem waitAny_waiting {past : Nat → Prop} (hk : Queues k) (h : Waiting past k)
    (hx : waitAny k cur = some (k', w)) : Waiting past k' := by
  simp only [waitAny, bind, Option.bind_eq_some_iff] at hx
  obtain ⟨pr, -, hx⟩ := hx
  split at hx
  · exact takeAway_waiting h hx
  · simp only [Option.bind_eq_some_iff, Option.some.injEq, Prod.mk.injEq] at hx
    obtain ⟨k₁, h1, rfl, -⟩ := hx
    exact h.sleepOn hk (by simp) h1

theorem do_waitpid_waiting {pid : Int} {past : Nat → Prop} (hk : Queues k) (h : Waiting past k)
    (hx : do_waitpid k cur pid = some (k', w)) : Waiting past k' := by
  simp only [do_waitpid, bind, Option.bind_eq_some_iff] at hx
  obtain ⟨-, -, pr, -, hx⟩ := hx
  split at hx
  · cases hx; exact h
  · split at hx
    · exact waitAny_waiting hk h hx
    · split at hx
      · cases hx; exact h
      · simp only [Option.bind_eq_some_iff, Option.some.injEq, Prod.mk.injEq] at hx
        obtain ⟨k₁, h1, rfl, -⟩ := hx
        exact h.sleepOn hk (by simp) h1

theorem sched_cancel_waiting {t : Nat} {kthr : Kthread} {retval : Int} {past : Nat → Prop} (h : Waiting past k)
    (ht : k.threads t = some kthr) (hx : sched_cancel (k.setThread t (some { kthr with kt_retval := retval })) t = some k') :
    Waiting past k' := by
  simp only [sched_cancel, bind, Option.bind_eq_some_iff, Kernel.setThread_self, Option.some.injEq] at hx
  obtain ⟨_, rfl, hx⟩ := hx
  split at hx
  next hs =>
    simp only [Option.bind_eq_some_iff] at hx
    obtain ⟨q, -, k₁, h1, h2⟩ := hx
    have hr : ∀ c, k.resume t ≠ .waitFor c := fun c hc => h.deep t c kthr hc ht hs
    have hk₁ : k₁.resume = k.resume := (takeOff_resume h1 :)
    refine (((h.setThread ?_).setThread ?_).takeOff h1).make_runnable (fun c hc => absurd (hk₁ ▸ hc) (hr c)) h2
    · exact fun _ c _ hc => absurd hc (hr c)
    · exact fun _ c _ hc => absurd hc (hr c)
  next hs =>
    simp only [Option.bind_eq_some_iff, Option.some.injEq] at hx
    obtain ⟨-, -, rfl⟩ := hx
    exact (h.setThread (by rintro _ _ ⟨⟩ _; exact hs)).setThread (by rintro _ _ ⟨⟩ _; exact hs)

theorem proc_create_waiting {c : Nat} {past : Nat → Prop} (h : Waiting past k)
    (hx : proc_create MAX k cur = some (k', c)) : Waiting past k' := by
  simp only [proc_create, bind, Option.bind_eq_some_iff, Option.some.injEq, Prod.mk.injEq] at hx
  obtain ⟨pr, -, -, -, -, -, rfl, rfl⟩ := hx
  split
  · exact h.congr rfl rfl rfl
  · exact h.congr rfl rfl rfl

theorem step_waiting {tr : List (Event × Outcome)} (hk : Queues k) (hf : Fates k (tr.map change))
    (h : Waiting (Over k) k) (hown : OwnExits k e) (hst : step MAX k e = some (k', w)) : Waiting (Over k') k' := by
  have hE := (step_effect hk hst).2
  have h := h.mono fun c => Over.effect hE
  -- the process that ends is over after the step
  have exits {cur st} (hc : k.curthr = some cur) (hx : kthread_exit k cur st = some k')
      (he : ∃ st, e = .do_exit st ∨ e = .kthread_exit st ∨ e = .kthread_cancel cur st) : Waiting (Over k') k' := by
    obtain ⟨-, st₀, s, h1, h2, h3⟩ := kthread_exit_effect hk hx
    have hcur : Over k' cur := by
      refine ⟨?_, by simp [h2]⟩
      have := hf cur
      rw [h1] at this
      rw [h3]
      cases this <;> assumption
    refine kthread_exit_waiting h (fun pr hpr t ht c hc' => ?_) hx
    rwa [hown.2 cur pr hc hpr he t ht c hc']
  cases e with simp only [step, bind, Option.bind_eq_some_iff, Option.some.injEq, Prod.mk.injEq, Prod.exists] at hst
  | wakeup n =>
    obtain ⟨k₁, h1, rfl, rfl⟩ := hst
    exact h.wakeup (fun t ht c hc => by simpa using h.place _ t c ht hc) h1
  | broadcast n =>
    obtain ⟨k₁, h1, rfl, rfl⟩ := hst
    exact Waiting.broadcast (by simp) h (fun t ht c hc => by simpa using h.place _ t c ht hc) h1
  | dispatch =>
    simp only [dispatch, bind, Option.bind_eq_some_iff, Prod.exists] at hst
    obtain ⟨k₁, t, h1, hst⟩ := hst
    have hk1 := hk.switch_to h1
    have h' := h.switch_to h1
    split at hst
    · cases hst; exact h'
    · exact waitAny_waiting hk1 h' hst
    · exact takeAway_waiting h' hst
  | proc_create =>
    obtain ⟨cur, -, k₁, c, h1, rfl, rfl⟩ := hst
    exact proc_create_waiting h h1
  | start p =>
    obtain ⟨cur, -, k₁, h1, k₂, h2, rfl, rfl⟩ := hst
    simp only [kthread_create, kthread_create_as, bind, Option.bind_eq_some_iff, Option.some.injEq] at h1
    obtain ⟨-, -, -, -, rfl⟩ := h1
    refine ((h.setThread ?_).setResume (t := p)).make_runnable ?_ h2
    · rintro _ _ ⟨⟩; simp
    · simp [Kernel.setResume]
  | do_exit status =>
    obtain ⟨cur, hc, k₁, h0, rfl, rfl⟩ := hst
    have h1 := do_exit_exits h0
    exact exits hc h1 ⟨status, .inl rfl⟩
  | kthread_exit retval =>
    obtain ⟨cur, hc, k₁, h1, rfl, rfl⟩ := hst
    exact exits hc h1 ⟨retval, .inr (.inl rfl)⟩
  | kthread_cancel t retval =>
    obtain ⟨cur, hc, k₁, ex, h0, rfl, rfl⟩ := hst
    obtain ⟨htc, h1, rfl⟩ | ⟨-, kthr, ht, h1, rfl⟩ := kthread_cancel_cases h0
    · exact exits hc h1 ⟨retval, .inr (.inr (by rw [htc]))⟩
    · exact sched_cancel_waiting h ht h1
  | do_waitpid pid =>
    obtain ⟨cur, hc, hst⟩ := hst
    exact do_waitpid_waiting hk h hst
  | sleep n =>
    obtain ⟨cur, hc, k₁, h1, rfl, rfl⟩ := hst
    exact h.sleepOn hk (by simp) h1
  | cancellable_sleep n =>
    obtain ⟨cur, hc, hst⟩ := hst
    obtain ⟨thr, -, ⟨-, rfl, rfl⟩ | ⟨-, h1, rfl⟩⟩ := sched_cancellable_sleep_on_cases hst
    · exact h
    · exact h.sleepOn hk (by simp) h1
  | yield =>
    obtain ⟨cur, hc, k₁, h1, rfl, rfl⟩ := hst
    exact ((h.setResume (t := cur)).make_runnable (by simp [Kernel.setResume]) h1).congr rfl rfl rfl

/-- While a process waits for a given child, let only that child exit: then every wait is right. -/
theorem own_exits_right {tr : List (Event × Outcome)} (h : Run (step MAX) OwnExits Kernel.boot k tr)
    (hown : OwnExits k e) (hst : step MAX k e = some (k', w)) : WaitsRight k tr e w := by
  obtain ⟨⟨-, hf⟩, hW⟩ : (Queues k ∧ Fates k (tr.map change)) ∧ Waiting (Over k) k := by
    refine h.inv_trace (fun k tr => (Queues k ∧ Fates k (tr.map change)) ∧ Waiting (Over k) k) ?_ ?_
    · exact ⟨⟨boot_queues, boot_fates⟩, ⟨fun _ _ _ h => (nomatch h), fun _ _ _ h => (nomatch h)⟩⟩
    · intro k tr e k' w ⟨⟨hq, hf⟩, hw⟩ hok hst
      obtain ⟨hq', he⟩ := step_effect hq hst
      exact ⟨⟨hq', by rw [List.map_append]; exact hf.effect he⟩, step_waiting hq hf hw hok hst⟩
  refine right_of_inTime hf hst fun c hw => ?_
  cases e with
  | do_waitpid pid => simp [hown.1 c ⟨pid, rfl⟩ hw]
  | dispatch =>
    obtain ⟨child, hchild, -⟩ := caller_returns hw hst
    obtain ⟨t, ht, hr⟩ := hw
    obtain h1 | ⟨-, -, hover⟩ := hW.place _ t c (List.mem_of_getLast? ht) hr
    · cases h1
    · have hdead : child.p_state = .dead := by
        cases hs : child.p_state with
        | dead => rfl
        | running => exact absurd (by simp [ends, hchild, hs]) (hover child.p_status)
      exact iff_of_true ⟨child, hchild, hdead⟩ rfl
  | _ => exact hw.elim

end Weenix.Proc.ProcsSubmit
