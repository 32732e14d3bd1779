import Weenix.Basic
import Weenix.Lib.Runs
import Mathlib.Logic.Function.Basic
/-!
# Processes, threads and queues (`proc/proc.h`, `proc/kthread.h`, `proc/sched.c`)

Processes are numbered by a counter; their one thread has the same number. A
thread that called `sched_switch` goes on later at the place `resume` names. No
thread is current while `sched_switch` waits for a thread to run.

Queues are lists with the head first: threads are inserted at the head and taken
from the tail.
-/

namespace Weenix.Proc

inductive ThreadState
  | no_state | run | sleep | sleep_cancellable | exited
  deriving DecidableEq

/-- `kt_runq`, the `p_wait` queue of a process, or a queue of another kind. -/
inductive Queue
  | runq
  | wait (p : Nat)
  | other (n : Nat)
  deriving DecidableEq

structure Kthread where
  kt_state : ThreadState
  kt_wchan : Option Queue := none
  kt_retval : Int := 0
  kt_cancelled : Bool := false
  deriving DecidableEq

inductive ProcState
  | running | dead
  deriving DecidableEq

structure Kproc where
  p_pid : Int
  p_pproc : Nat
  p_children : List Nat := []
  p_status : Int := 0
  p_state : ProcState := .running
  deriving DecidableEq

/-- Where a thread goes on after `sched_switch`: in `do_waitpid(-1)`, in
`do_waitpid` for the given child, or anywhere else. -/
inductive Resume
  | elsewhere
  | waitAny
  | waitFor (child : Nat)
  deriving DecidableEq

structure Kernel where
  procs : Nat → Option Kproc
  nprocs : Nat
  proc_list : List Nat
  next_pid : Nat
  proc_initproc : Option Nat
  threads : Nat → Option Kthread
  resume : Nat → Resume
  tq_list : Queue → List Nat
  tq_size : Queue → Int
  curthr : Option Nat

def PID_IDLE : Int := 0
def PID_INIT : Int := 1

/-- The idle process runs, alone. -/
def Kernel.boot : Kernel where
  procs p := if p = 0 then some ⟨PID_IDLE, 0, [], 0, .running⟩ else none
  nprocs := 1
  proc_list := [0]
  next_pid := 1
  proc_initproc := none
  threads t := if t = 0 then some ⟨.run, none, 0, false⟩ else none
  resume _ := .elsewhere
  tq_list _ := []
  tq_size _ := 0
  curthr := some 0

namespace Kernel

variable (k : Kernel)

def setProc (p : Nat) (pr : Option Kproc) : Kernel := { k with procs := Function.update k.procs p pr }

def setThread (t : Nat) (th : Option Kthread) : Kernel := { k with threads := Function.update k.threads t th }

def setQueue (q : Queue) (l : List Nat) (size : Int) : Kernel :=
  { k with tq_list := Function.update k.tq_list q l, tq_size := Function.update k.tq_size q size }

def setResume (t : Nat) (r : Resume) : Kernel := { k with resume := Function.update k.resume t r }

def setCur (t : Option Nat) : Kernel := { k with curthr := t }

def setList (l : List Nat) : Kernel := { k with proc_list := l }

/-- A new process, without a thread. -/
def addProc (pr : Kproc) (next_pid : Nat) : Kernel :=
  { k with procs := Function.update k.procs k.nprocs (some pr), nprocs := k.nprocs + 1,
           proc_list := k.proc_list ++ [k.nprocs], next_pid := next_pid }

def setInit (p : Nat) : Kernel := { k with proc_initproc := some p }

/-- Append to `p_children`. -/
def addChildren (p : Nat) (cs : List Nat) : Kernel :=
  k.setProc p ((k.procs p).map fun pr => { pr with p_children := pr.p_children ++ cs })

end Kernel

/-! ## Queues -/

def ktqueue_enqueue (k : Kernel) (q : Queue) (t : Nat) : Option Kernel := do
  let th ← k.threads t
  KASSERT (th.kt_wchan = none)
  some ((k.setQueue q (t :: k.tq_list q) (k.tq_size q + 1)).setThread t (some { th with kt_wchan := some q }))

/-- Take thread `t` off the queue `q`. -/
def takeOff (k : Kernel) (q : Queue) (t : Nat) : Option Kernel := do
  let th ← k.threads t
  some ((k.setQueue q ((k.tq_list q).erase t) (k.tq_size q - 1)).setThread t (some { th with kt_wchan := none }))

/-- The thread at the tail, if any. -/
def ktqueue_dequeue (k : Kernel) (q : Queue) : Option (Kernel × Option Nat) :=
  match (k.tq_list q).getLast? with
  | none => some (k, none)
  | some t => (takeOff k q t).map (·, some t)

def sched_make_runnable (k : Kernel) (t : Nat) : Option Kernel := do
  let th ← k.threads t
  KASSERT (th.kt_wchan ≠ some .runq)
  ktqueue_enqueue (k.setThread t (some { th with kt_state := .run })) .runq t

/-- The checks `sched_wakeup_on` makes on the thread it takes off. -/
def asleep (k : Kernel) (t : Nat) : Prop :=
  ∃ th, k.threads t = some th ∧ (th.kt_state = .sleep ∨ th.kt_state = .sleep_cancellable)

instance (k : Kernel) (t : Nat) : Decidable (asleep k t) :=
  match h : k.threads t with
  | none => .isFalse fun ⟨_, h', _⟩ => by rw [h] at h'; cases h'
  | some th => decidable_of_iff (th.kt_state = .sleep ∨ th.kt_state = .sleep_cancellable)
      ⟨fun hs => ⟨th, h, hs⟩, fun ⟨_, h', hs⟩ => by rw [h] at h'; cases h'; exact hs⟩

def sched_wakeup_on (k : Kernel) (q : Queue) : Option Kernel := do
  match ← ktqueue_dequeue k q with
  | (k, none) => some k
  | (k, some t) => do
    KASSERT (asleep k t)
    sched_make_runnable k t

/-- The loop of `sched_broadcast_on`: wake the tail once for each thread the queue has. -/
def broadcast_from (wake : Kernel → Option Kernel) : Kernel → List Nat → Option Kernel
  | k, [] => some k
  | k, _ :: ts => do
    let k ← wake k
    broadcast_from wake k ts

/-- The current thread `t` goes to sleep on `q`, and goes on at `r`. -/
def sleepOn (k : Kernel) (t : Nat) (q : Queue) (st : ThreadState) (r : Resume) : Option Kernel := do
  let th ← k.threads t
  let k ← ktqueue_enqueue (k.setThread t (some { th with kt_state := st })) q t
  some ((k.setResume t r).setCur none)

/-- `sched_switch` finds a thread to run. -/
def sched_switch_to (k : Kernel) : Option (Kernel × Nat) := do
  KASSERT (k.curthr = none)
  match ← ktqueue_dequeue k .runq with
  | (_, none) => none
  | (k, some t) => some (k.setCur (some t), t)

/-! ## Creating processes and threads -/

/-- The loops of `_proc_getid`, from `pid` on; `none` for -1. -/
def getid_from (MAX next_pid : Nat) (used : List Int) : Nat → Nat → Option Nat
  | 0, _ => none
  | n + 1, pid =>
    if (pid : Int) ∈ used then
      if (pid + 1) % MAX = next_pid then none else getid_from MAX next_pid used n ((pid + 1) % MAX)
    else some pid

/-- The pids of `_proc_list`. -/
def Kernel.pids (k : Kernel) : List Int := k.proc_list.filterMap fun p => (k.procs p).map (·.p_pid)

/-- `_proc_getid`: the pid and the new `next_pid`. -/
def proc_getid (MAX : Nat) (k : Kernel) : Int × Nat :=
  match getid_from MAX k.next_pid k.pids (MAX + 1) k.next_pid with
  | some pid => (pid, (pid + 1) % MAX)
  | none => (-1, k.next_pid)

/-- The new process has no thread yet. `MAX` is `PROC_MAX_COUNT`. -/
def proc_create (MAX : Nat) (k : Kernel) (cur : Nat) : Option (Kernel × Nat) := do
  let curproc ← k.procs cur
  let (pid, next_pid) := proc_getid MAX k
  KASSERT (PID_IDLE ≠ pid ∨ k.proc_list = [])
  KASSERT (PID_INIT ≠ pid ∨ PID_IDLE = curproc.p_pid)
  let c := k.nprocs
  let k := k.addProc { p_pid := pid, p_pproc := cur } next_pid
  let k := if pid = PID_INIT then k.setInit c else k
  some (k.addChildren cur [c], c)

/-- The thread of `p`, which has none yet, in state `st`; it starts at its function. -/
def kthread_create_as (st : ThreadState) (k : Kernel) (p : Nat) : Option Kernel := do
  let _ ← k.procs p
  KASSERT (k.threads p = none)
  some ((k.setThread p (some { kt_state := st })).setResume p .elsewhere)

/-! ## What queue operations leave alone -/

/-- The processes: everything but the threads and the queues. -/
structure Table where
  procs : Nat → Option Kproc
  nprocs : Nat
  proc_list : List Nat
  next_pid : Nat
  proc_initproc : Option Nat

def Kernel.table (k : Kernel) : Table := ⟨k.procs, k.nprocs, k.proc_list, k.next_pid, k.proc_initproc⟩

namespace Kernel
variable (k : Kernel)

@[simp] theorem setThread_self (t : Nat) (th : Option Kthread) : (k.setThread t th).threads t = th :=
  Function.update_self ..
@[simp] theorem setThread_table (t : Nat) (th : Option Kthread) : (k.setThread t th).table = k.table := rfl
@[simp] theorem setQueue_table (q : Queue) (l : List Nat) (n : Int) : (k.setQueue q l n).table = k.table := rfl
@[simp] theorem setResume_table (t : Nat) (r : Resume) : (k.setResume t r).table = k.table := rfl
@[simp] theorem setCur_table (t : Option Nat) : (k.setCur t).table = k.table := rfl

end Kernel

variable {k k' : Kernel} {q : Queue} {t : Nat}

theorem ktqueue_enqueue_table (h : ktqueue_enqueue k q t = some k') : k'.table = k.table := by
  simp only [ktqueue_enqueue, bind, Option.bind_eq_some_iff, Option.some.injEq] at h
  obtain ⟨th, -, -, -, rfl⟩ := h
  rfl

theorem takeOff_table (h : takeOff k q t = some k') : k'.table = k.table := by
  simp only [takeOff, bind, Option.bind_eq_some_iff, Option.some.injEq] at h
  obtain ⟨th, -, rfl⟩ := h
  rfl

theorem ktqueue_dequeue_table {r : Option Nat} (h : ktqueue_dequeue k q = some (k', r)) : k'.table = k.table := by
  simp only [ktqueue_dequeue] at h
  split at h
  · cases h; rfl
  · simp only [Option.map_eq_some_iff, Prod.mk.injEq] at h
    obtain ⟨k₁, h1, rfl, -⟩ := h
    exact takeOff_table h1

theorem sched_make_runnable_table (h : sched_make_runnable k t = some k') : k'.table = k.table := by
  simp only [sched_make_runnable, bind, Option.bind_eq_some_iff] at h
  obtain ⟨th, -, -, -, h⟩ := h
  exact (ktqueue_enqueue_table h :)

theorem sched_wakeup_on_table (h : sched_wakeup_on k q = some k') : k'.table = k.table := by
  simp only [sched_wakeup_on, bind, Option.bind_eq_some_iff, Prod.exists] at h
  obtain ⟨k₁, r, h1, h⟩ := h
  have e1 := ktqueue_dequeue_table h1
  cases r with
  | none => cases h; exact e1
  | some t =>
    simp only [Option.bind_eq_some_iff] at h
    obtain ⟨-, -, h⟩ := h
    exact (sched_make_runnable_table h).trans e1

theorem broadcast_from_table {wake : Kernel → Option Kernel} (hw : ∀ {k k'}, wake k = some k' → k'.table = k.table)
    {ts : List Nat} : ∀ {k k' : Kernel}, broadcast_from wake k ts = some k' → k'.table = k.table := by
  induction ts with
  | nil => intro k k' h; cases h; rfl
  | cons t ts ih =>
    intro k k' h
    simp only [broadcast_from, bind, Option.bind_eq_some_iff] at h
    obtain ⟨k₁, h1, h2⟩ := h
    exact (ih h2).trans (hw h1)

theorem sleepOn_table {st : ThreadState} {r : Resume} (h : sleepOn k t q st r = some k') : k'.table = k.table := by
  simp only [sleepOn, bind, Option.bind_eq_some_iff, Option.some.injEq] at h
  obtain ⟨th, -, k₁, h1, rfl⟩ := h
  exact (ktqueue_enqueue_table h1 :)

theorem sched_switch_to_table (h : sched_switch_to k = some (k', t)) : k'.table = k.table := by
  simp only [sched_switch_to, bind, Option.bind_eq_some_iff, Prod.exists] at h
  obtain ⟨-, -, k₁, r, h1, h⟩ := h
  cases r with
  | none => cases h
  | some t' => cases h; exact (ktqueue_dequeue_table h1 :)

end Weenix.Proc
