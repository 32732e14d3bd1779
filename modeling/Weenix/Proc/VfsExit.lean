import Weenix.Proc.Release
import Weenix.Proc.ProcsSubmit
/-!
# Exits of vfs-submit that release files

`sched.c` and `kthread.c` of vfs-submit are those of procs-submit, and so is
`proc.c`, but `proc_cleanup` goes on after it has marked the process `PROC_DEAD`
and has woken up the parent: it puts the working directory and closes the files.
The rest of the kernel, the new lines of `proc_create` too, may change files and
pages at any time.
-/

namespace Weenix.Proc.VfsExit
open Lib ProcsSubmit

abbrev Event := ExitEvent ProcsSubmit.Event

abbrev Outcome := ExitOutcome ProcsSubmit.Outcome

/-- Interrupts come also while a thread exits. -/
def interrupts : ProcsSubmit.Event → Bool
  | .wakeup _ | .broadcast _ => true
  | _ => false

variable (F : Fs) (MAX : Nat)

def step (s : ExitState) : Event → Option (ExitState × Outcome)
  | .proc e => do
    KASSERT (interrupts e = true ∨ s.pending = none)
    match ← ProcsSubmit.step MAX s.k e with
    | (k, .ended c) => some ({ s with k := k.setCur (some c) }.setTodo c (some (vfsTasks s.w c)), .done)
    | (k, w) => some ({ s with k := k }, .proc w)
  | .store w => some ({ s with w := w }, .done)
  | .release => do
    match ← s.pending with
    | (_, []) => none
    | (t, x :: ts) => s.release F sched_broadcast_on sched_sleep_on t x ts
  | .finish => do
    match ← s.pending with
    -- `kthread_exit` has only its `sched_switch` left
    | (t, []) => some ({ s with k := s.k.setCur none }.setTodo t none, .ended t)
    | (_, _ :: _) => none

variable {F MAX} {k k' : Kernel} {q : Queue} {t : Nat} {s s' : ExitState} {e : Event} {w : Outcome}

/-! ## Wakeups do not look at the current thread -/

theorem dequeue_setCur (c : Option Nat) : ktqueue_dequeue (k.setCur c) q = (ktqueue_dequeue k q).map fun x => (x.1.setCur c, x.2) := by
  simp only [ktqueue_dequeue]
  have hl : (k.setCur c).tq_list q = k.tq_list q := rfl
  rw [hl]
  split
  · rfl
  next t _ =>
    simp only [takeOff]
    have ht : (k.setCur c).threads t = k.threads t := rfl
    rw [ht]
    cases k.threads t <;> rfl

theorem make_runnable_setCur (c : Option Nat) : sched_make_runnable (k.setCur c) t = (sched_make_runnable k t).map (·.setCur c) := by
  have ht : (k.setCur c).threads t = k.threads t := rfl
  simp only [sched_make_runnable, ht, bind]
  cases k.threads t with
  | none => rfl
  | some th =>
    simp only [Option.bind_some, KASSERT, ktqueue_enqueue, Kernel.setCur, Kernel.setThread, Function.update_self, bind]
    by_cases h1 : th.kt_wchan = some .runq <;> by_cases h2 : th.kt_wchan = none <;> simp [h1, h2, Kernel.setQueue]

theorem wakeup_setCur (c : Option Nat) : sched_wakeup_on (k.setCur c) q = (sched_wakeup_on k q).map (·.setCur c) := by
  simp only [sched_wakeup_on, dequeue_setCur, bind]
  rcases Option.eq_none_or_eq_some (ktqueue_dequeue k q) with h | ⟨⟨k₁, r⟩, h⟩
  · simp [h]
  · cases r with
    | none => simp [h]
    | some t =>
      have ha : asleep (k₁.setCur c) t ↔ asleep k₁ t := .rfl
      simp only [h, Option.map_some, Option.bind_some, KASSERT, ha, make_runnable_setCur]
      by_cases hs : asleep k₁ t <;> simp [hs]

theorem broadcast_setCur (c : Option Nat) {ts : List Nat} : ∀ {k : Kernel},
    broadcast_from (sched_wakeup_on · q) (k.setCur c) ts = (broadcast_from (sched_wakeup_on · q) k ts).map (·.setCur c) := by
  induction ts with
  | nil => intro k; rfl
  | cons _ ts ih =>
    intro k
    simp only [broadcast_from, wakeup_setCur, bind]
    cases sched_wakeup_on k q with
    | none => rfl
    | some k₁ => exact ih

/-! ## Exits that meet no busy page -/

/-- A thread that still releases is the current one, and its process is dead
already. When it has given up the processor it is over. -/
structure Ok (s : ExitState) : Prop where
  queues : Queues (s.k.setCur none)
  alive : ∀ t, s.k.curthr = some t → s.todo t = none → ¬ Dead s.k t
  exiting : ∀ t ts, s.todo t = some ts → s.k.curthr = some t ∧ Dead s.k t
  numbered : ∀ p, ends s.k p ≠ none → p < s.k.nprocs

/-- The exiting thread meets no busy page. -/
def Steady (F : Fs) (s : ExitState) (e : Event) : Prop := e matches .release → s.waitsFor F = none

theorem Ok.boot (w : Store) : Ok (.boot w) := by
  refine ⟨boot_queues.setCur (by simp), fun t _ _ => boot_alive t, by rintro t ts ⟨⟩, fun p hp => ?_⟩
  change ends Kernel.boot p ≠ none at hp
  rw [boot_ends] at hp
  split at hp
  next e => exact e ▸ Nat.one_pos
  next => exact absurd rfl hp

theorem Effect.numbered {ch : Change} (he : Effect k k' ch) (h : ∀ p, ends k p ≠ none → p < k.nprocs) :
    ∀ p, ends k' p ≠ none → p < k'.nprocs := by
  intro p hp
  cases he with
  | quiet h1 h2 => exact h2 ▸ h p (h1 ▸ hp)
  | created h1 h2 =>
    rw [h2]
    rw [h1, Function.update_apply] at hp
    split at hp
    next e => omega
    next => exact Nat.lt_succ_of_lt (h p hp)
  | ended h1 _ h3 h4 =>
    rw [h4]
    rw [h3, Function.update_apply] at hp
    split at hp
    next e => exact h p (by rw [e, h1]; simp)
    next => exact h p hp
  | reaped _ h2 h3 =>
    rw [h3]
    rw [h2, Function.update_apply] at hp
    split at hp
    · exact absurd rfl hp
    · exact h p hp

theorem Ok.not_pending (h : Ok s) (hp : s.pending = none) (t : Nat) : s.todo t = none := by
  cases ht : s.todo t with
  | none => rfl
  | some ts => simp [ExitState.pending, (h.exiting t ts ht).1, ht] at hp

theorem pending_todo {ts : List Task} (hp : s.pending = some (t, ts)) : s.todo t = some ts := by
  simp only [ExitState.pending, Option.bind_eq_some_iff, Option.map_eq_some_iff, Prod.mk.injEq] at hp
  obtain ⟨t', -, ts', ht, rfl, rfl⟩ := hp
  exact ht

/-- While no thread releases, the kernel is as that of procs-submit. -/
theorem Ok.idle (h : Ok s) (hp : s.pending = none) : Queues s.k :=
  ⟨h.queues.nodup, h.queues.linked, h.queues.dead, fun t ht => h.alive t ht (h.not_pending hp t)⟩

theorem Ok.of_queues {ch : Change} (h : Ok s) (hp : s.pending = none) (hk : Queues k ∧ Effect s.k k ch) :
    Ok { s with k := k } := by
  refine ⟨hk.1.setCur (by simp), fun t ht _ => hk.1.cur t ht, fun t ts ht => ?_, Effect.numbered hk.2 h.numbered⟩
  rw [h.not_pending hp t] at ht
  cases ht

/-- An interrupt. -/
theorem Ok.kernel (h : Ok s) (hq : Queues (k.setCur none)) (hc : k.curthr = s.k.curthr) (ht : k.table = s.k.table) :
    Ok { s with k := k } :=
  ⟨hq, fun t h1 h2 => by rw [dead_table ht]; exact h.alive t (hc ▸ h1) h2,
    fun t ts h1 => ⟨hc.trans (h.exiting t ts h1).1, (dead_table ht).2 (h.exiting t ts h1).2⟩,
    Effect.numbered (.of_table ht) h.numbered⟩

theorem wakeup_curthr (h : sched_wakeup_on k q = some k') : k'.curthr = k.curthr := by
  have := wakeup_setCur (k := k) (q := q) k.curthr
  rw [show k.setCur k.curthr = k from rfl, h, Option.map_some, Option.some.injEq] at this
  rw [this]
  rfl

theorem Ok.wakeup (h : Ok s) (hw : sched_wakeup_on s.k q = some k) : Ok { s with k := k } := by
  have := wakeup_setCur (k := s.k) (q := q) none
  rw [hw, Option.map_some] at this
  exact h.kernel (h.queues.wakeup this) (wakeup_curthr hw) (sched_wakeup_on_table hw)

theorem broadcast_curthr {ts : List Nat} (h : broadcast_from (sched_wakeup_on · q) k ts = some k') :
    k'.curthr = k.curthr := by
  have : broadcast_from (sched_wakeup_on · q) k ts = _ := broadcast_setCur k.curthr
  rw [h, Option.map_some, Option.some.injEq] at this
  rw [this]
  rfl

theorem Ok.broadcast (h : Ok s) (hw : sched_broadcast_on s.k q = some k) : Ok { s with k := k } := by
  have : sched_broadcast_on (s.k.setCur none) q = (sched_broadcast_on s.k q).map (·.setCur none) := broadcast_setCur none
  rw [hw, Option.map_some] at this
  exact h.kernel (sched_broadcast_on_queues h.queues this).1 (broadcast_curthr hw)
    (broadcast_from_table (fun h => sched_wakeup_on_table h) hw)

theorem Ok.setTodo {ts ts' : List Task} {w' : Store} (h : Ok s) (ht : s.todo t = some ts) :
    Ok ({ s with w := w' }.setTodo t (some ts')) := by
  refine ⟨h.queues, fun u hu hn => ?_, fun u us hu => ?_, h.numbered⟩
  · by_cases e : u = t
    · simp [ExitState.setTodo, e] at hn
    · exact h.alive u hu (by simpa [ExitState.setTodo, e] using hn)
  · by_cases e : u = t
    · subst e
      exact h.exiting u ts ht
    · exact h.exiting u us (by simpa [ExitState.setTodo, e] using hu)

theorem Ok.exit {c : Nat} {ts : List Task} {ch : Change} (h : Ok s) (hp : s.pending = none) (hk : Queues k ∧ Effect s.k k ch)
    (hd : Dead k c) : Ok ({ s with k := k.setCur (some c) }.setTodo c (some ts)) := by
  refine ⟨hk.1.setCur (by simp), fun t ht hn => ?_, fun t us ht => ?_, fun p hn => Effect.numbered hk.2 h.numbered p hn⟩
  · cases ht
    simp [ExitState.setTodo] at hn
  · by_cases e : t = c
    · subst e
      exact ⟨rfl, hd⟩
    · simp [ExitState.setTodo, e, h.not_pending hp t] at ht

theorem Ok.release {x : Task} {ts : List Task} (h : Ok s) (hp : s.pending = some (t, x :: ts)) (hn : s.waitsFor F = none)
    (hx : s.release F sched_broadcast_on sched_sleep_on t x ts = some (s', w)) : Ok s' := by
  have ht := pending_todo hp
  simp only [ExitState.release, bind, Option.bind_eq_some_iff] at hx
  obtain ⟨turn, h1, hx⟩ := hx
  cases turn with
  | next w' new =>
    cases hx
    exact h.setTodo ht
  | broadcast n w' =>
    simp only [Option.bind_eq_some_iff, Option.some.injEq, Prod.mk.injEq] at hx
    obtain ⟨k₁, h2, rfl, -⟩ := hx
    exact (h.broadcast h2).setTodo (s := { s with k := k₁ }) ht
  | wait pf => simp [ExitState.waitsFor, hp, h1] at hn

theorem Ok.finish {ts : List Task} (h : Ok s) (hp : s.todo t = some ts) :
    Ok ({ s with k := s.k.setCur none }.setTodo t none) := by
  refine ⟨h.queues, by rintro u ⟨⟩, fun u us hu => ?_, h.numbered⟩
  by_cases e : u = t
  · simp [ExitState.setTodo, e] at hu
  · have hu' : s.todo u = some us := by simpa [ExitState.setTodo, e] using hu
    exact absurd (Option.some.inj ((h.exiting u us hu').1.symm.trans (h.exiting t ts hp).1)) e

/-- A process that ends was running, and is dead. -/
theorem ended_dead {c : Nat} {x : Int} (he : Effect k k' (.ended c x)) : (∃ st, ends k c = some (st, .running)) ∧ Dead k' c := by
  cases he with
  | ended h1 _ h3 => exact ⟨⟨_, h1⟩, dead_iff_ends.2 ⟨_, by rw [h3, Function.update_self]⟩⟩

theorem Ok.step (h : Ok s) (hok : Steady F s e) (hx : step F MAX s e = some (s', w)) : Ok s' := by
  cases e with simp only [VfsExit.step, bind, Option.bind_eq_some_iff, KASSERT_eq_some] at hx
  | proc e =>
    obtain ⟨-, hp, ⟨k₁, w₁⟩, h1, hx⟩ := hx
    by_cases hn : s.pending = none
    · have hk := h.idle hn
      cases w₁ with
      | ended c =>
        cases hx
        exact h.exit hn (step_effect hk h1) (ended_dead (step_effect hk h1).2).2
      | _ =>
        cases hx
        exact h.of_queues hn (step_effect hk h1)
    · cases e with simp only [ProcsSubmit.step, bind, Option.bind_eq_some_iff, Option.some.injEq, Prod.mk.injEq] at h1
      | wakeup n =>
        obtain ⟨k₂, h2, rfl, rfl⟩ := h1
        cases hx
        exact h.wakeup h2
      | broadcast n =>
        obtain ⟨k₂, h2, rfl, rfl⟩ := h1
        cases hx
        exact h.broadcast h2
      | _ => exact absurd (hp.resolve_left (by simp [interrupts])) hn
  | store w' =>
    cases hx
    exact ⟨h.queues, h.alive, h.exiting, h.numbered⟩
  | release =>
    obtain ⟨⟨t, ts⟩, hp, hx⟩ := hx
    cases ts with
    | nil => cases hx
    | cons x ts => exact h.release hp (hok rfl) hx
  | finish =>
    obtain ⟨⟨t, ts⟩, hp, hx⟩ := hx
    cases ts with
    | nil =>
      cases hx
      exact h.finish (pending_todo hp)
    | cons => cases hx

/-! ## A thread that never runs again -/

/-- Thread `u` has exited, if it is there; it is on no queue and is not the current one. -/
structure Idle (k : Kernel) (u : Nat) : Prop where
  exited : ∀ th, k.threads u = some th → th.kt_state = .exited
  queues : ∀ q, u ∉ k.tq_list q
  cur : k.curthr ≠ some u

variable {u : Nat}

theorem Idle.untouched (hi : Idle k u) (h : Untouched k k' u) : Idle k' u :=
  ⟨by rw [h.thread]; exact hi.exited, fun q hm => hi.queues q (h.lists q hm), by rw [h.cur]; exact hi.cur⟩

/-- Another thread changes in place. -/
theorem setThread_untouched {th : Option Kthread} (h : u ≠ t) : Untouched k (k.setThread t th) u :=
  ⟨by simp [Kernel.setThread, h], fun _ hm => hm, rfl⟩

theorem Idle.setCur {c : Option Nat} (h : Idle k u) (hc : c ≠ some u) : Idle (k.setCur c) u := ⟨h.exited, h.queues, hc⟩

theorem Idle.setProc (h : Idle k u) (p : Nat) (pr : Option Kproc) : Idle (k.setProc p pr) u := ⟨h.exited, h.queues, h.cur⟩

theorem Idle.sleepOn {st : ThreadState} {r : Resume} (h : Idle k u) (hu : u ≠ t) (hs : sleepOn k t q st r = some k') :
    Idle k' u := by
  simp only [Proc.sleepOn, ktqueue_enqueue, bind, Option.bind_eq_some_iff, Option.some.injEq] at hs
  obtain ⟨th, -, -, ⟨th', -, -, -, rfl⟩, rfl⟩ := hs
  refine ⟨by simpa [Kernel.setThread, Kernel.setQueue, Kernel.setResume, Kernel.setCur, hu] using h.exited,
    fun q' hm => ?_, by simp [Kernel.setCur]⟩
  simp only [Kernel.setThread, Kernel.setQueue, Kernel.setResume, Kernel.setCur, Function.update_apply] at hm
  split at hm
  next e => exact h.queues q ((List.mem_cons.1 hm).resolve_left hu)
  next => exact h.queues q' hm

theorem Idle.takeAway {cur z : Nat} {w : ProcsSubmit.Outcome} (h : Idle k u) (hx : takeAway k cur z = some (k', w)) :
    Idle k' u := by
  simp only [ProcsSubmit.takeAway, bind, Option.bind_eq_some_iff, Option.some.injEq, Prod.mk.injEq] at hx
  obtain ⟨child, -, -, -, par, -, rfl, -⟩ := hx
  refine ⟨fun th hth => ?_, h.queues, h.cur⟩
  simp only [Kernel.setList, Kernel.setProc, Kernel.setThread, Function.update_apply] at hth
  split at hth
  · cases hth
  · exact h.exited th hth

theorem Idle.waitAny {cur : Nat} {w : ProcsSubmit.Outcome} (h : Idle k u) (hu : u ≠ cur) (hx : waitAny k cur = some (k', w)) :
    Idle k' u := by
  simp only [ProcsSubmit.waitAny, bind, Option.bind_eq_some_iff] at hx
  obtain ⟨pr, -, hx⟩ := hx
  split at hx
  · exact h.takeAway hx
  · simp only [Option.bind_eq_some_iff, Option.some.injEq, Prod.mk.injEq] at hx
    obtain ⟨k₁, h1, rfl, -⟩ := hx
    exact h.sleepOn hu h1

theorem Idle.dispatch {w : ProcsSubmit.Outcome} (h : Idle k u) (hx : dispatch k = some (k', w)) : Idle k' u := by
  simp only [ProcsSubmit.dispatch, sched_switch_to, bind, Option.bind_eq_some_iff, Prod.exists] at hx
  obtain ⟨k₁, t, ⟨-, -, k₂, r, h1, h2⟩, hx⟩ := hx
  rcases dequeue_cases h1 with ⟨-, -, rfl⟩ | ⟨t', ht, rfl, ho⟩
  · cases h2
  · cases h2
    have hne : u ≠ t := fun e => h.queues .runq (e ▸ List.mem_of_getLast? ht)
    have h' : Idle (k₂.setCur (some t)) u := (h.untouched (takeOff_untouched ho hne)).setCur (by simpa using Ne.symm hne)
    split at hx
    · cases hx
      exact h'
    · exact h'.waitAny hne hx
    · exact h'.takeAway hx

theorem reparent_untouched (ini : Nat) (cs : List Nat) (k : Kernel) : Untouched k (reparent ini k cs) u := by
  obtain ⟨-, -, h1, h2, -, h3⟩ : SameEnds k (reparent ini k cs) := reparent_ends
  exact ⟨by rw [h1], fun q hm => h2 ▸ hm, h3⟩

theorem Idle.kthread_exit {cur : Nat} {retval : Int} (h : Idle k u) (hu : u ≠ cur)
    (hx : kthread_exit k cur retval = some k') : Idle k' u := by
  simp only [ProcsSubmit.kthread_exit, proc_cleanup, bind, Option.bind_eq_some_iff] at hx
  obtain ⟨thr, -, -, -, ini, -, pr, -, -, -, -, -, hb⟩ := hx
  have h1 : Idle (k.setThread cur (some { thr with kt_retval := retval, kt_state := .exited })) u :=
    h.untouched (setThread_untouched hu)
  have h2 := (h1.setCur (c := none) (by simp)).setProc cur (some { pr with p_status := retval, p_state := .dead })
  have h3 := h2.untouched (reparent_untouched ini pr.p_children _)
  exact h3.untouched (broadcast_untouched (fun h hm => wakeup_untouched h hm) hb (h3.queues _))

/-- A thread that is idle stays so, when no thread can be started for its process. -/
theorem Idle.step {e : ProcsSubmit.Event} {w : ProcsSubmit.Outcome} (h : Idle k u)
    (hn : k.threads u = none → k.procs u = none) (hx : ProcsSubmit.step MAX k e = some (k', w)) : Idle k' u := by
  have hcur : ∀ {cur}, k.curthr = some cur → u ≠ cur := fun hc e => h.cur (e ▸ hc)
  cases e with simp only [ProcsSubmit.step, bind, Option.bind_eq_some_iff, Option.some.injEq, Prod.mk.injEq, Prod.exists] at hx
  | wakeup n =>
    obtain ⟨k₁, h1, rfl, -⟩ := hx
    exact h.untouched (wakeup_untouched h1 (h.queues _))
  | broadcast n =>
    obtain ⟨k₁, h1, rfl, -⟩ := hx
    exact h.untouched (broadcast_untouched (fun h hm => wakeup_untouched h hm) h1 (h.queues _))
  | dispatch => exact h.dispatch hx
  | proc_create =>
    obtain ⟨cur, -, k₁, c, h1, rfl, -⟩ := hx
    obtain ⟨-, pr, n, -, -, hs⟩ := proc_create_effect h1
    exact ⟨by rw [hs.threads]; exact h.exited, fun q => by rw [hs.tq_list]; exact h.queues q, by rw [hs.curthr]; exact h.cur⟩
  | start p =>
    obtain ⟨cur, -, k₁, h1, k₂, h2, rfl, -⟩ := hx
    simp only [kthread_create, kthread_create_as, bind, Option.bind_eq_some_iff, KASSERT_eq_some, Option.some.injEq] at h1
    obtain ⟨pr, hpr, -, hth, rfl⟩ := h1
    have hne : u ≠ p := by
      rintro rfl
      rw [hn hth] at hpr
      cases hpr
    have h' : Idle ((k.setThread p (some { kt_state := .run })).setResume p .elsewhere) u :=
      ⟨(h.untouched (setThread_untouched hne)).exited, h.queues, h.cur⟩
    exact h'.untouched (make_runnable_untouched h2 hne)
  | do_exit st =>
    obtain ⟨cur, hc, k₁, h0, rfl, -⟩ := hx
    have h1 := do_exit_exits h0
    exact h.kthread_exit (hcur hc) h1
  | kthread_exit r =>
    obtain ⟨cur, hc, k₁, h1, rfl, -⟩ := hx
    exact h.kthread_exit (hcur hc) h1
  | kthread_cancel t r =>
    obtain ⟨cur, hc, k₁, ex, h0, rfl, -⟩ := hx
    obtain ⟨-, h1, -⟩ | ⟨-, kthr, ht, h1, -⟩ := kthread_cancel_cases h0
    · exact h.kthread_exit (hcur hc) h1
    · simp only [sched_cancel, bind, Kernel.setThread_self, Option.bind_some] at h1
      by_cases e : u = t
      · -- a thread that has exited is only marked
        subst e
        have hst := h.exited kthr ht
        simp [hst, KASSERT] at h1
        subst h1
        exact ⟨by simp [Kernel.setThread], h.queues, h.cur⟩
      · have h' : Idle (k.setThread t (some { kthr with kt_retval := r })) u := h.untouched (setThread_untouched e)
        split at h1
        · simp only [Option.bind_eq_some_iff] at h1
          obtain ⟨q, -, k₃, h2, h3⟩ := h1
          exact h'.untouched ((setThread_untouched e).trans ((takeOff_untouched h2 e).trans (make_runnable_untouched h3 e)))
        · simp only [Option.bind_eq_some_iff, Option.some.injEq] at h1
          obtain ⟨-, -, rfl⟩ := h1
          exact h'.untouched (setThread_untouched e)
  | do_waitpid pid =>
    obtain ⟨cur, hc, hx⟩ := hx
    simp only [do_waitpid, bind, Option.bind_eq_some_iff] at hx
    obtain ⟨-, -, pr, -, hx⟩ := hx
    split at hx
    · cases hx
      exact h
    · split at hx
      · exact h.waitAny (hcur hc) hx
      · split at hx
        · cases hx
          exact h
        · simp only [Option.bind_eq_some_iff, Option.some.injEq, Prod.mk.injEq] at hx
          obtain ⟨k₁, h1, rfl, -⟩ := hx
          exact h.sleepOn (hcur hc) h1
  | sleep n =>
    obtain ⟨cur, hc, k₁, h1, rfl, -⟩ := hx
    exact h.sleepOn (hcur hc) h1
  | cancellable_sleep n =>
    obtain ⟨cur, hc, hx⟩ := hx
    obtain ⟨thr, -, ⟨-, rfl, -⟩ | ⟨-, h1, -⟩⟩ := sched_cancellable_sleep_on_cases hx
    · exact h
    · exact h.sleepOn (hcur hc) h1
  | yield =>
    obtain ⟨cur, hc, k₁, h1, rfl, -⟩ := hx
    have h' : Idle (k.setResume cur .elsewhere) u := ⟨h.exited, h.queues, h.cur⟩
    exact (h'.untouched (make_runnable_untouched h1 (hcur hc))).setCur (by simp)

/-! ## Reaping -/

/-- The first child that is dead. -/
def firstDead (k : Kernel) (cur : Nat) : Option Nat := (k.procs cur).bind fun curproc => curproc.p_children.find? (isDead k)

/-- In the event `e`, `do_waitpid` destroys the thread of its child `c`. -/
def Destroys (s : ExitState) (c : Nat) : Event → Prop
  | .proc (.do_waitpid pid) => pid = -1 ∧ s.pending = none ∧ ∃ cur, s.k.curthr = some cur ∧ firstDead s.k cur = some c
  | .proc .dispatch => s.k.curthr = none ∧ ∃ t, (s.k.tq_list .runq).getLast? = some t ∧
      (s.k.resume t = .waitFor c ∨ (s.k.resume t = .waitAny ∧ firstDead s.k t = some c))
  | _ => False

/-- A caller of `do_waitpid` that named a child goes on after the child has ended. -/
def ChildEnded (k : Kernel) : Event → Prop
  | .proc .dispatch => ∀ t ∈ (k.tq_list .runq).getLast?, ∀ c, k.resume t = .waitFor c → k.threads c ≠ none → Dead k c
  | _ => True

/-- The thread of `p` runs no more: it has nothing left to release, and is idle. -/
def Rests (s : ExitState) (p : Nat) : Prop := s.todo p = none ∧ Idle s.k p

theorem firstDead_dead {cur c : Nat} (h : firstDead k cur = some c) : Dead k c := by
  obtain ⟨pr, -, h⟩ := Option.bind_eq_some_iff.1 h
  exact dead_of_isDead (List.find?_some h)

theorem Ok.rests {p : Nat} (h : Ok s) (hd : Dead s.k p) (hc : s.k.curthr ≠ some p) : Rests s p := by
  obtain ⟨th, h1, h2, h3⟩ := h.queues.dead p hd
  refine ⟨?_, fun th' h4 => ?_, fun q => ?_, hc⟩
  · cases ht : s.todo p with
    | none => rfl
    | some ts => exact absurd (h.exiting p ts ht).1 hc
  · cases h1.symm.trans h4
    exact h2
  · exact h.queues.not_mem h1 (by simp [h3])

/-- Who is destroyed is dead, or has no thread. -/
theorem Ok.destroyed {c : Nat} (h : Ok s) (hd : Destroys s c e) (he : ChildEnded s.k e) :
    (Dead s.k c ∨ s.k.threads c = none) ∧ s.k.curthr ≠ some c := by
  match e with
  | .proc (.do_waitpid pid) =>
    obtain ⟨-, hp, cur, hc, hf⟩ := hd
    have hdead := firstDead_dead hf
    exact ⟨.inl hdead, fun hcc => (h.idle hp).cur c hcc hdead⟩
  | .proc .dispatch =>
    obtain ⟨hc, t, ht, hr | ⟨-, hf⟩⟩ := hd
    · by_cases hn : s.k.threads c = none
      · exact ⟨.inr hn, by simp [hc]⟩
      · exact ⟨.inl (he t ht c hr hn), by simp [hc]⟩
    · exact ⟨.inl (firstDead_dead hf), by simp [hc]⟩

theorem Ok.over {p : Nat} (h : Ok s) (hd : Dead s.k p) : Over s.k p := by
  obtain ⟨st, he⟩ := dead_iff_ends.1 hd
  exact ⟨h.numbered p (by simp [he]), fun st' => by simp [he]⟩

/-- No thread can be started for a process that is over. -/
theorem Ok.no_thread {p : Nat} (h : Ok s) (ho : Over s.k p) (ht : s.k.threads p = none) : s.k.procs p = none := by
  cases hp : s.k.procs p with
  | none => rfl
  | some pr =>
    have hdead : Dead s.k p := by
      refine ⟨pr, hp, ?_⟩
      cases hs : pr.p_state with
      | dead => rfl
      | running => exact absurd (by simp [ends, hp, hs]) (ho.2 pr.p_status)
    obtain ⟨th, h1, -⟩ := h.queues.dead p hdead
    exact absurd (ht.symm.trans h1) (by simp)

theorem Rests.proc {p : Nat} {e : ProcsSubmit.Event} {w : ProcsSubmit.Outcome} {ch : Change} (hk : Ok s) (h : Rests s p)
    (ho : Over s.k p) (he : Effect s.k k ch) (hx : ProcsSubmit.step MAX s.k e = some (k, w)) :
    Rests { s with k := k } p ∧ Over k p :=
  ⟨⟨h.1, h.2.step (hk.no_thread ho) hx⟩, Over.effect he ho⟩

/-- A thread that rests, of a process that is over, rests in every later state. -/
theorem Rests.step {p : Nat} (hk : Ok s) (h : Rests s p) (ho : Over s.k p) (hok : Steady F s e)
    (hx : step F MAX s e = some (s', w)) : Rests s' p ∧ Over s'.k p := by
  cases e with simp only [VfsExit.step, bind, Option.bind_eq_some_iff, KASSERT_eq_some] at hx
  | proc e =>
    obtain ⟨-, hp, ⟨k₁, w₁⟩, h1, hx⟩ := hx
    by_cases hn : s.pending = none
    · have he := (step_effect (hk.idle hn) h1).2
      obtain ⟨h2, h3⟩ := Rests.proc hk h ho he h1
      cases w₁ with
      | ended c =>
        cases hx
        obtain ⟨⟨st, hrun⟩, -⟩ := ended_dead he
        have hne : p ≠ c := by
          rintro rfl
          exact ho.2 st hrun
        exact ⟨⟨by simpa [ExitState.setTodo, hne] using h2.1, h2.2.setCur (by simpa using Ne.symm hne)⟩, h3⟩
      | _ =>
        cases hx
        exact ⟨h2, h3⟩
    · have h1' := h1
      cases e with simp only [ProcsSubmit.step, bind, Option.bind_eq_some_iff, Option.some.injEq, Prod.mk.injEq] at h1
      | wakeup n =>
        obtain ⟨k₂, h2, rfl, rfl⟩ := h1
        cases hx
        exact Rests.proc hk h ho (.of_table (sched_wakeup_on_table h2)) h1'
      | broadcast n =>
        obtain ⟨k₂, h2, rfl, rfl⟩ := h1
        cases hx
        exact Rests.proc hk h ho (.of_table (broadcast_from_table (fun h => sched_wakeup_on_table h) h2)) h1'
      | _ => exact absurd (hp.resolve_left (by simp [interrupts])) hn
  | store w' =>
    cases hx
    exact ⟨h, ho⟩
  | release =>
    obtain ⟨⟨t, ts⟩, hp, hx⟩ := hx
    have hne : p ≠ t := by
      rintro rfl
      exact absurd (h.1.symm.trans (pending_todo hp)) (by simp)
    cases ts with
    | nil => cases hx
    | cons x ts =>
      simp only [ExitState.release, bind, Option.bind_eq_some_iff] at hx
      obtain ⟨turn, h1, hx⟩ := hx
      cases turn with
      | next w' new =>
        cases hx
        exact ⟨⟨by simpa [ExitState.setTodo, hne] using h.1, h.2⟩, ho⟩
      | broadcast n w' =>
        simp only [Option.bind_eq_some_iff, Option.some.injEq, Prod.mk.injEq] at hx
        obtain ⟨k₁, h2, rfl, -⟩ := hx
        have hb := broadcast_untouched (fun h hm => wakeup_untouched h hm) h2 (h.2.queues _)
        refine ⟨⟨by simpa [ExitState.setTodo, hne] using h.1, h.2.untouched hb⟩, ?_⟩
        exact Over.effect (.of_table (broadcast_from_table (fun h => sched_wakeup_on_table h) h2)) ho
      | wait pf =>
        have hw := hok rfl
        simp [ExitState.waitsFor, hp, h1] at hw
  | finish =>
    obtain ⟨⟨t, ts⟩, hp, hx⟩ := hx
    have hne : p ≠ t := by
      rintro rfl
      exact absurd (h.1.symm.trans (pending_todo hp)) (by simp)
    cases ts with
    | nil =>
      cases hx
      exact ⟨⟨by simpa [ExitState.setTodo, hne] using h.1, h.2.setCur (by simp)⟩, ho⟩
    | cons => cases hx

theorem run_ok {b : Store} {tr : List (Event × Outcome)} (h : Run (step F MAX) (Steady F) (.boot b) s tr) : Ok s :=
  h.inv Ok (Ok.boot b) fun _ _ _ _ hi hok hs => hi.step hok hs

theorem run_rests {p : Nat} {tr : List (Event × Outcome)} (hk : Ok s) (h : Rests s p) (ho : Over s.k p)
    (hr : Run (step F MAX) (Steady F) s s' tr) : Rests s' p :=
  (hr.inv (fun s => Ok s ∧ Rests s p ∧ Over s.k p) ⟨hk, h, ho⟩ fun _ _ _ _ hi hok hs =>
    ⟨hi.1.step hok hs, Rests.step hi.1 hi.2.1 hi.2.2 hok hs⟩).2.1

/-- While no exit meets a busy page, a process that is dead and not current never
runs again; and a thread that is destroyed has exited and never runs again,
when the child was not named by a caller that goes on too early. -/
theorem reaped_rests {b : Store} {tr : List (Event × Outcome)} (h : Run (step F MAX) (Steady F) (.boot b) s tr) :
    (∀ p, Dead s.k p → s.k.curthr ≠ some p → ∀ s' tr', Run (step F MAX) (Steady F) s s' tr' → Rests s' p) ∧
    ∀ e c th, ChildEnded s.k e → Destroys s c e → s.k.threads c = some th →
      th.kt_state = .exited ∧ ∀ s' tr', Run (step F MAX) (Steady F) s s' tr' → Rests s' c := by
  have hk := run_ok h
  have hforever : ∀ p, Dead s.k p → s.k.curthr ≠ some p → ∀ s' tr', Run (step F MAX) (Steady F) s s' tr' → Rests s' p :=
    fun p hd hc s' tr' hr => run_rests hk (hk.rests hd hc) (hk.over hd) hr
  refine ⟨hforever, fun e c th he hd ht => ?_⟩
  obtain ⟨hdead | hn, hc⟩ := hk.destroyed hd he
  · exact ⟨(hk.rests hdead hc).2.exited th ht, hforever c hdead hc⟩
  · rw [hn] at ht
    cases ht

/-- The idle process waits for process 1, which exits and does the first three tasks of its exit. -/
def exitOfChild : List Event :=
  [.proc .proc_create, .proc (.start 1), .proc (.do_waitpid (-1)), .proc .dispatch, .proc (.do_exit 0), .release, .release,
    .release]

/-- The idle process is to go on in `do_waitpid`, where it finds process 1 dead. -/
def AboutToReap (s : ExitState) : Prop :=
  s.k.curthr = none ∧ (s.k.tq_list .runq).getLast? = some 0 ∧ s.k.resume 0 = .waitAny ∧ firstDead s.k 0 = some 1 ∧
    ((s.k.procs 1).map (·.p_state)) = some .dead

instance (s : ExitState) : Decidable (AboutToReap s) := by
  unfold AboutToReap; infer_instance

theorem AboutToReap.destroys (h : AboutToReap s) : Destroys s 1 (.proc .dispatch) ∧ Dead s.k 1 ∧
    ChildEnded s.k (.proc .dispatch) := by
  obtain ⟨h1, h2, h3, h4, h5⟩ := h
  refine ⟨⟨h1, 0, h2, .inr ⟨h3, h4⟩⟩, Option.map_eq_some_iff.1 h5, fun t ht c hc => ?_⟩
  cases h2.symm.trans ht
  rw [h3] at hc
  cases hc

/-- The page is not busy: the thread that is destroyed has exited, and rests. -/
theorem free_page_reaped : ∃ s tr, Run (step Fs.simple 256) (Steady Fs.simple) (.boot (oneDir false)) s tr ∧
    Destroys s 1 (.proc .dispatch) ∧ Rests s 1 ∧ ∃ th, s.k.threads 1 = some th ∧ th.kt_state = .exited := by
  have h : (exec (step Fs.simple 256) (fun s e => !(e matches .release) || (s.waitsFor Fs.simple).isNone)
      (.boot (oneDir false)) (exitOfChild ++ List.replicate 7 .release ++ [.finish])).map
        (fun x => (decide (AboutToReap x.1), (x.1.k.threads 1).isSome)) = some (true, true) := by decide +kernel
  simp only [Option.map_eq_some_iff, Prod.exists, Prod.mk.injEq, decide_eq_true_eq] at h
  obtain ⟨s, tr, hex, ha, ht⟩ := h
  obtain ⟨th, hth⟩ := Option.isSome_iff_exists.1 ht
  have hr : Run (step Fs.simple 256) (Steady Fs.simple) (.boot (oneDir false)) s tr :=
    Run.of_exec (fun s e hs he => by simpa [he] using hs) hex
  obtain ⟨hd, hdead, he⟩ := ha.destroys
  obtain ⟨h1, h2⟩ := reaped_rests hr
  obtain ⟨h3, h4⟩ := h2 _ 1 th he hd hth
  exact ⟨s, tr, hr, hd, h4 s [] .nil, th, hth, h3⟩

/-- The page is busy: process 1 is dead and its thread, which is about to be
destroyed, sleeps on the queue of the page. -/
theorem busy_page_reaped : ∃ s tr, Run (step Fs.simple 256) (fun _ _ => True) (.boot (oneDir true)) s tr ∧
    Dead s.k 1 ∧ s.k.curthr ≠ some 1 ∧ 1 ∈ s.k.tq_list (.other (pf_waitq 5)) ∧ Destroys s 1 (.proc .dispatch) ∧ ¬ Rests s 1 := by
  have h : (exec (step Fs.simple 256) (fun _ _ => true) (.boot (oneDir true)) (exitOfChild ++ [.release])).map
      (fun x => (decide (AboutToReap x.1), decide (1 ∈ x.1.k.tq_list (.other (pf_waitq 5))))) = some (true, true) := by
    decide +kernel
  simp only [Option.map_eq_some_iff, Prod.exists, Prod.mk.injEq, decide_eq_true_eq] at h
  obtain ⟨s, tr, hex, ha, hm⟩ := h
  obtain ⟨hd, hdead, -⟩ := ha.destroys
  exact ⟨s, tr, Run.of_exec (fun _ _ _ => trivial) hex, hdead, by simp [ha.1], hm, hd, fun hr => hr.2.queues _ hm⟩

end Weenix.Proc.VfsExit
