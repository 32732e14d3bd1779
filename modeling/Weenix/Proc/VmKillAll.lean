import Weenix.Proc.VmWait
/-!
# `proc_kill_all` in vm-submit (`proc/proc.c`)

The loop of `proc_kill_all` cancels the thread of every process but the idle
one, its children and the caller. `sched_cancel` takes no thread that has exited
or was not started, so the loop gets through when no such process has one:
neither a zombie nor a process whose thread is still `KT_NO_STATE`.
-/

namespace Weenix.Proc.VmSubmit
open Lib

variable {MAX : Nat} {k k' : Kernel} {cur t p : Nat} {addr : Int} {th th' th'' : Kthread} {w : Outcome}

/-- The one thread of the process, if it has been created, is cancelled. For the
caller this is `do_exit`; `addr` is where that keeps its argument. -/
def proc_kill (k : Kernel) (cur p : Nat) (addr status : Int) : Option Kernel :=
  if cur = p then do_exit k cur addr status
  else
    match k.threads p with
    | none => some k
    | some _ => (kthread_cancel k cur p status).map (·.1)

/-- The loop of `proc_kill_all` over the process list. -/
def proc_kill_from (cur : Nat) (addr : Int) : Kernel → List Nat → Option Kernel
  | k, [] => some k
  | k, p :: ps =>
    if cur = p then proc_kill_from cur addr k ps
    else do
      let iterator ← k.procs p
      let p_pproc ← k.procs iterator.p_pproc
      if PID_IDLE ≠ p_pproc.p_pid ∧ PID_IDLE ≠ iterator.p_pid then do
        let k ← proc_kill k cur p addr iterator.p_status
        proc_kill_from cur addr k ps
      else proc_kill_from cur addr k ps

/-- What happens in the kernel: the events of `step`, threads that are created and
started apart from each other, and `proc_kill_all`. The calls of `do_waitpid` and
`do_exit` that `proc_kill_all` ends with are events of their own. -/
inductive KillEvent
  | event (e : Event)
  | kthread_create (p : Nat)
  | sched_make_runnable (t : Nat)
  | proc_kill_all (addr : Int)
  deriving DecidableEq

def killStep (MAX : Nat) (k : Kernel) : KillEvent → Option (Kernel × Outcome)
  | .event e => step MAX k e
  | .kthread_create p => do
    let _ ← k.curthr
    let k ← kthread_create k p
    some (k, .done)
  | .sched_make_runnable t => do
    let _ ← k.curthr
    let k ← sched_make_runnable k t
    some (k, .done)
  | .proc_kill_all addr => do
    let cur ← k.curthr
    let k ← proc_kill_from cur addr k k.proc_list
    some (k, .done)

/-! ## What the loop is for -/

/-- Process `p` is not the caller, not the idle one and no child of it. -/
def Aimed (k : Kernel) (cur p : Nat) : Prop :=
  cur ≠ p ∧ ∃ iterator ∈ k.procs p, ∃ p_pproc ∈ k.procs iterator.p_pproc,
    PID_IDLE ≠ p_pproc.p_pid ∧ PID_IDLE ≠ iterator.p_pid

instance (k : Kernel) (cur p : Nat) : Decidable (Aimed k cur p) := by
  unfold Aimed; infer_instance

/-- The thread is marked, and has been woken from a cancellable sleep. Its `kt_retval` may be another. -/
structure Cancelled (th th' : Kthread) : Prop where
  flag : th'.kt_cancelled = true
  woken : th.kt_state = .sleep_cancellable → th'.kt_state = .run ∧ th'.kt_wchan = some .runq
  kept : th.kt_state ≠ .sleep_cancellable → th'.kt_state = th.kt_state ∧ th'.kt_wchan = th.kt_wchan

/-- The threads of the processes `T` are cancelled, and nothing else has changed. -/
structure Killed (k k' : Kernel) (T : Nat → Prop) : Prop where
  cancelled : ∀ p, T p → ∀ th, k.threads p = some th → ∃ th', k'.threads p = some th' ∧ Cancelled th th'
  absent : ∀ p, k.threads p = none → k'.threads p = none
  others : ∀ p, ¬ T p → k'.threads p = k.threads p
  queues : QueuesOk k' fun _ => False
  table : k'.table = k.table
  curthr : k'.curthr = k.curthr

/-- The thread is started and has not exited. -/
def Active (th : Kthread) : Prop := th.kt_state ≠ .no_state ∧ th.kt_state ≠ .exited

/-- Process `p` and its parent are there, and if it is to be killed its thread, if any, is started and has not exited. -/
def Killable (k : Kernel) (p : Nat) : Prop :=
  ∃ iterator ∈ k.procs p, ∃ p_pproc ∈ k.procs iterator.p_pproc,
    PID_IDLE ≠ p_pproc.p_pid ∧ PID_IDLE ≠ iterator.p_pid → ∀ th ∈ k.threads p, Active th

instance (th : Kthread) : Decidable (Active th) := inferInstanceAs (Decidable (_ ∧ _))

instance (k : Kernel) (p : Nat) : Decidable (Killable k p) := by
  unfold Killable; infer_instance

/-! ## One thread -/

theorem Cancelled.again (h : Cancelled th th') (h' : Cancelled th' th'') : Cancelled th th'' := by
  refine ⟨h'.flag, fun hs => ?_, fun hs => ?_⟩
  · obtain ⟨h1, h2⟩ := h.woken hs
    obtain ⟨h3, h4⟩ := h'.kept (by simp [h1])
    exact ⟨h3.trans h1, h4.trans h2⟩
  · obtain ⟨h1, h2⟩ := h.kept hs
    obtain ⟨h3, h4⟩ := h'.kept (by rwa [h1])
    exact ⟨h3.trans h1, h4.trans h2⟩

/-- A thread that is started, has not exited and does not run is on a queue. -/
theorem QueuesOk.on_queue (h : QueuesOk k fun _ => False) (hth : k.threads t = some th) (hc : k.curthr ≠ some t)
    (hs : Active th) : ∃ q, th.kt_wchan = some q := by
  have hf := h.fits hth
  apply Option.ne_none_iff_exists'.1
  cases hst : th.kt_state with
  | no_state => exact absurd hst hs.1
  | exited => exact absurd hst hs.2
  | run =>
    rcases hf.ready hst with hw | hw | hw
    · simp [hw]
    · exact absurd hw hc
    · exact hw.elim
  | sleep => exact hf.queued (.inl hst)
  | sleep_cancellable => exact hf.queued (.inr hst)

/-- `sched_cancel` takes every thread that is started, has not exited and does not run. -/
theorem sched_cancel_total (hw : ∃ q, th.kt_wchan = some q) (hs : Active th) (hth : k.threads t = some th) :
    ∃ k', sched_cancel k t = some k' := by
  obtain ⟨q, hq⟩ := hw
  have hk : KASSERT (th.kt_state ≠ .no_state ∧ th.kt_state ≠ .exited) = some () := if_pos hs
  simp only [sched_cancel, hth, hk, hq, bind, Option.bind_some]
  split
  · simp [takeOff, sched_make_runnable, ktqueue_enqueue, KASSERT, Kernel.setThread, Kernel.setQueue]
  · exact ⟨_, rfl⟩

theorem sched_cancel_active (hth : k.threads t = some th) (h : sched_cancel k t = some k') : Active th := by
  simp only [sched_cancel, hth, bind, Option.bind_some, Option.bind_eq_some_iff, KASSERT_eq_some] at h
  obtain ⟨-, hs, -⟩ := h
  exact hs

theorem Cancelled.active (h : Cancelled th th') : Active th' ↔ Active th := by
  unfold Active
  by_cases hs : th.kt_state = .sleep_cancellable
  · simp [h.woken hs, hs]
  · rw [(h.kept hs).1]

/-! ## One turn -/

theorem Killed.refl (h : QueuesOk k fun _ => False) : Killed k k fun _ => False :=
  ⟨fun _ hp => hp.elim, fun _ hp => hp, fun _ _ => rfl, h, rfl, rfl⟩

theorem Killed.trans {k₁ : Kernel} {T T' : Nat → Prop} (h : Killed k k₁ T) (h' : Killed k₁ k' T') :
    Killed k k' fun p => T p ∨ T' p := by
  refine ⟨fun p hp th hth => ?_, fun p hp => h'.absent p (h.absent p hp), fun p hp => ?_, h'.queues,
    h'.table.trans h.table, h'.curthr.trans h.curthr⟩
  · by_cases h1 : T p
    · obtain ⟨th₁, hth₁, hc⟩ := h.cancelled p h1 th hth
      by_cases h2 : T' p
      · obtain ⟨th', hth', hc'⟩ := h'.cancelled p h2 th₁ hth₁
        exact ⟨th', hth', hc.again hc'⟩
      · exact ⟨th₁, (h'.others p h2).trans hth₁, hc⟩
    · exact h'.cancelled p (hp.resolve_left h1) th ((h.others p h1).trans hth)
  · rw [h'.others p fun e => hp (.inr e), h.others p fun e => hp (.inl e)]

theorem Killed.congr {T T' : Nat → Prop} (h : Killed k k' T) (hT : ∀ p, T' p ↔ T p) : Killed k k' T' := by
  have : T' = T := funext fun p => propext (hT p)
  rwa [this]

/-- Threads stay active, and others do not become so. -/
theorem Killed.active {T : Nat → Prop} (h : Killed k k' T) (p : Nat) :
    (∀ th ∈ k'.threads p, Active th) ↔ ∀ th ∈ k.threads p, Active th := by
  cases hp : k.threads p with
  | none => simp [h.absent p hp]
  | some th =>
    by_cases hT : T p
    · obtain ⟨th', hth', hc⟩ := h.cancelled p hT th hp
      simpa [hth'] using hc.active
    · simp [h.others p hT, hp]

theorem Killed.killable {T : Nat → Prop} (h : Killed k k' T) (p : Nat) : Killable k' p ↔ Killable k p := by
  have hp : k'.procs = k.procs := congrArg Table.procs h.table
  unfold Killable
  rw [hp]
  simp only [h.active p]

theorem Killed.aimed {T : Nat → Prop} (h : Killed k k' T) (p : Nat) : Aimed k' cur p ↔ Aimed k cur p := by
  have hp : k'.procs = k.procs := congrArg Table.procs h.table
  unfold Aimed
  rw [hp]

theorem CancelEffect.killed {retval : Int} (h : CancelEffect k t retval k') (hq : QueuesOk k fun _ => False)
    (ht : k'.table = k.table) : Killed k k' fun p => p = t := by
  have hk := (h.keeps hq).queues
  cases h with
  | @marked th hth hs =>
    refine ⟨?_, fun p hp => ?_, fun p hp => ?_, hk, ht, rfl⟩
    · rintro p rfl th₁ hth₁
      rw [hth] at hth₁
      cases hth₁
      exact ⟨_, Kernel.setThread_self .., rfl, fun e => absurd e hs, fun _ => ⟨rfl, rfl⟩⟩
    · have hne : p ≠ t := by
        rintro rfl
        rw [hth] at hp
        cases hp
      simpa [Kernel.setThread, hne] using hp
    · simp [Kernel.setThread, hp]
  | @woke _ th q hth hs hm hrq hr hc =>
    refine ⟨?_, fun p hp => ?_, fun p hp => ?_, hk, ht, hc⟩
    · rintro p rfl th₁ hth₁
      rw [hth] at hth₁
      cases hth₁
      exact ⟨_, by rw [hr.threads, Function.update_self], rfl, fun _ => ⟨rfl, rfl⟩, fun e => absurd hs e⟩
    · have hne : p ≠ t := by
        rintro rfl
        rw [hth] at hp
        cases hp
      rw [hr.threads, Function.update_of_ne hne, hp]
    · rw [hr.threads, Function.update_of_ne hp]

/-- Cancelling another process's thread, if it has one, succeeds when the thread is active. -/
theorem proc_kill_iff (addr status : Int) (h : QueuesOk k fun _ => False) (hc : k.curthr = some cur) (hne : cur ≠ p) :
    (∃ k', proc_kill k cur p addr status = some k') ↔ ∀ th ∈ k.threads p, Active th := by
  rw [proc_kill, if_neg hne]
  cases hth : k.threads p with
  | none => simp
  | some th =>
    have hin : QueuesOk (k.setThread p (some { th with kt_retval := status })) fun _ => False := h.inPlace hth rfl rfl
    have hself : (k.setThread p (some { th with kt_retval := status })).threads p = some { th with kt_retval := status } :=
      Kernel.setThread_self ..
    simp only [kthread_cancel, if_neg hne, hth, bind, Option.bind_some, Option.mem_def, Option.some.injEq, forall_eq']
    constructor
    · rintro ⟨k', hk⟩
      simp only [Option.map_eq_some_iff, Option.bind_eq_some_iff] at hk
      obtain ⟨_, ⟨k₁, h1, -⟩, -⟩ := hk
      exact (sched_cancel_active hself h1 :)
    · intro ha
      have ha' : Active { th with kt_retval := status } := ha
      have hcur : (k.setThread p (some { th with kt_retval := status })).curthr ≠ some p := fun e =>
        hne (Option.some.inj (hc.symm.trans e))
      obtain ⟨k₁, h1⟩ := sched_cancel_total (QueuesOk.on_queue hin hself hcur ha') ha' hself
      exact ⟨k₁, by rw [h1]; rfl⟩

theorem proc_kill_killed {status : Int} (h : QueuesOk k fun _ => False) (hne : cur ≠ p)
    (hx : proc_kill k cur p addr status = some k') : Killed k k' fun t => t = p := by
  rw [proc_kill, if_neg hne] at hx
  cases hth : k.threads p with
  | none =>
    rw [hth] at hx
    cases hx
    refine ⟨?_, fun _ hp => hp, fun _ _ => rfl, h, rfl, rfl⟩
    rintro q rfl th e
    rw [hth] at e
    cases e
  | some th =>
    rw [hth] at hx
    simp only [kthread_cancel, if_neg hne, hth, bind, Option.bind_some, Option.map_eq_some_iff, Option.bind_eq_some_iff,
      Option.some.injEq] at hx
    obtain ⟨_, ⟨k₁, h1, rfl⟩, rfl⟩ := hx
    exact CancelEffect.killed (sched_cancel_cases h hth h1) h (sched_cancel_table h1 :)

/-! ## The loop -/

/-- The loop gets through when everything it comes to is killable. -/
theorem proc_kill_from_iff (addr : Int) {ps : List Nat} : ∀ {k : Kernel}, QueuesOk k (fun _ => False) → k.curthr = some cur →
    ((∃ k', proc_kill_from cur addr k ps = some k') ↔ ∀ p ∈ ps, cur ≠ p → Killable k p) := by
  induction ps with
  | nil => intro k _ _; simp [proc_kill_from]
  | cons p ps ih =>
    intro k h hc
    rw [List.forall_mem_cons, proc_kill_from]
    by_cases hne : cur = p
    · rw [if_pos hne, ih h hc]
      exact ⟨fun hps => ⟨fun e => absurd hne e, hps⟩, fun hps => hps.2⟩
    rw [if_neg hne, forall_prop_of_true hne]
    cases hp : k.procs p with
    | none => simp [Killable, hp]
    | some iterator =>
      cases hpar : k.procs iterator.p_pproc with
      | none => simp [Killable, hp, hpar]
      | some p_pproc =>
        simp only [bind, Option.bind_some, hpar]
        by_cases haim : PID_IDLE ≠ p_pproc.p_pid ∧ PID_IDLE ≠ iterator.p_pid
        · have hkill : Killable k p ↔ ∀ th ∈ k.threads p, Active th := by
            simp [Killable, hp, hpar, haim]
          rw [if_pos haim, hkill, ← proc_kill_iff addr iterator.p_status h hc hne]
          constructor
          · rintro ⟨k', hk⟩
            obtain ⟨k₁, h1, h2⟩ := Option.bind_eq_some_iff.1 hk
            have hK := proc_kill_killed h hne h1
            refine ⟨⟨k₁, h1⟩, fun q hq hne' => (hK.killable q).1 ?_⟩
            exact (ih hK.queues (hK.curthr.trans hc)).1 ⟨k', h2⟩ q hq hne'
          · rintro ⟨⟨k₁, h1⟩, hrest⟩
            have hK := proc_kill_killed h hne h1
            rw [h1]
            exact (ih hK.queues (hK.curthr.trans hc)).2 fun q hq hne' => (hK.killable q).2 (hrest q hq hne')
        · have hkill : Killable k p := ⟨iterator, hp, p_pproc, hpar, fun e => absurd e haim⟩
          rw [if_neg haim, ih h hc]
          exact ⟨fun hps => ⟨hkill, hps⟩, fun hps => hps.2⟩

/-- What the loop does when it gets through. -/
theorem proc_kill_from_killed {ps : List Nat} : ∀ {k k' : Kernel}, QueuesOk k (fun _ => False) →
    proc_kill_from cur addr k ps = some k' → Killed k k' fun p => p ∈ ps ∧ Aimed k cur p := by
  induction ps with
  | nil =>
    intro k k' h hx
    cases hx
    exact (Killed.refl h).congr (by simp)
  | cons p ps ih =>
    intro k k' h hx
    rw [proc_kill_from] at hx
    have hskip : ¬ Aimed k cur p → proc_kill_from cur addr k ps = some k' →
        Killed k k' fun q => q ∈ p :: ps ∧ Aimed k cur q := fun hn hx => by
      refine (ih h hx).congr fun q => ?_
      rw [List.mem_cons]
      constructor
      · rintro ⟨rfl | hq, ha⟩
        · exact absurd ha hn
        · exact ⟨hq, ha⟩
      · exact fun ⟨hq, ha⟩ => ⟨.inr hq, ha⟩
    split at hx
    next hne => exact hskip (fun ha => ha.1 hne) hx
    next hne =>
      simp only [bind, Option.bind_eq_some_iff] at hx
      obtain ⟨iterator, hp, p_pproc, hpar, hx⟩ := hx
      split at hx
      next haim =>
        obtain ⟨k₁, h1, h2⟩ := Option.bind_eq_some_iff.1 hx
        have hK := proc_kill_killed h hne h1
        have hp' : Aimed k cur p := ⟨hne, iterator, hp, p_pproc, hpar, haim⟩
        refine (hK.trans (ih hK.queues h2)).congr fun q => ?_
        rw [List.mem_cons, hK.aimed]
        constructor
        · rintro ⟨rfl | hq, ha⟩
          · exact .inl rfl
          · exact .inr ⟨hq, ha⟩
        · rintro (rfl | ⟨hq, ha⟩)
          · exact ⟨.inl rfl, hp'⟩
          · exact ⟨.inr hq, ha⟩
      next haim =>
        apply hskip _ hx
        rintro ⟨-, it, hit, par, hpar', ha⟩
        cases hp.symm.trans hit
        cases hpar.symm.trans hpar'
        exact haim ha

/-! ## Every run -/

theorem sched_sleep_on_queued {q : Queue} {r : Resume} (h : QueuesOk k fun _ => False) (hc : k.curthr = some cur)
    (hq : q ≠ .runq) (hs : sched_sleep_on k cur q r = some k') : QueuesOk k' fun _ => False := by
  exact (sleepOn_keeps h hq (.inl rfl) hc (sched_sleep_on_sleeps hs)).queues

theorem reap_queued {z : Nat} (h : QueuesOk k fun _ => False) (hx : reap k cur z = some (k', w)) :
    QueuesOk k' fun _ => False := by
  simp only [reap, disposeZombie, bind, Option.bind_eq_some_iff, KASSERT_eq_some, Option.some.injEq,
    Prod.mk.injEq] at hx
  obtain ⟨zom, -, _, ⟨t, ht, -, hex, par, -, rfl⟩, rfl, -⟩ := hx
  exact bury_queues h (h.exited_out ht hex) rfl rfl rfl rfl

theorem waitAny_queued (h : QueuesOk k fun _ => False) (hc : k.curthr = some cur) (hx : waitAny k cur = some (k', w)) :
    QueuesOk k' fun _ => False := by
  rcases waitAny_family hx with ⟨z, -, -, hr⟩ | ⟨-, -, hs⟩
  · exact reap_queued h hr
  · exact sched_sleep_on_queued h hc (by simp) hs

theorem waitFor_queued {c : Nat} (h : QueuesOk k fun _ => False) (hc : k.curthr = some cur)
    (hx : waitFor k cur c = some (k', w)) : QueuesOk k' fun _ => False := by
  rcases waitFor_family hx with ⟨-, hr⟩ | ⟨-, -, hs⟩
  · exact reap_queued h hr
  · exact sched_sleep_on_queued h hc (by simp) hs

theorem do_waitpid_queued {pid : Int} (h : QueuesOk k fun _ => False) (hc : k.curthr = some cur)
    (hx : do_waitpid k cur pid = some (k', w)) : QueuesOk k' fun _ => False := by
  obtain ⟨pr, -, ⟨rfl, -⟩ | ⟨-, hx⟩ | ⟨c, -, -, hx⟩⟩ := do_waitpid_cases hx
  · exact h
  · exact waitAny_queued h hc hx
  · exact waitFor_queued h hc hx

theorem dispatch_queued (h : QueuesOk k fun _ => False) (hx : dispatch k = some (k', w)) : QueuesOk k' fun _ => False := by
  simp only [dispatch, bind, Option.bind_eq_some_iff, Prod.exists] at hx
  obtain ⟨k₁, t, h1, hx⟩ := hx
  have hk₁ := (found_keeps h h1).queues
  have hc := sched_switch_to_curthr h1
  split at hx
  · cases hx
    exact hk₁
  · exact waitAny_queued hk₁ hc hx
  · exact waitFor_queued hk₁ hc hx

/-- A thread that has just been made runnable need not be waited for. -/
theorem make_runnable_queued {P : Nat → Prop} (h : QueuesOk k P) (hP : ∀ u, P u → u = t) (hm : sched_make_runnable k t = some k') :
    QueuesOk k' fun _ => False :=
  (make_runnable_keeps h hm).queues.congr rfl rfl rfl fun u hu => hu.imp_right fun ⟨h1, h2⟩ => h2 (hP u h1)

theorem do_fork_queued {c : Nat} (h : QueuesOk k fun _ => False) (hx : do_fork MAX k cur = some (k', c)) :
    QueuesOk k' fun _ => False := by
  simp only [do_fork, bind, Option.bind_eq_some_iff, Option.some.injEq, Prod.mk.injEq, Prod.exists] at hx
  obtain ⟨k₁, c', hcr, k₂, hcl, k₃, hm, rfl, rfl⟩ := hx
  obtain ⟨-, -, hth, hl, hsz, hcur⟩ := proc_create_rest hcr
  have h1 : QueuesOk k₁ fun _ => False := h.congr hth hl hsz fun _ hu => by rwa [hcur]
  exact make_runnable_queued (clone_keeps h1 hcl).queues (fun u hu => hu.resolve_left id) hm

theorem yield_queued {k₁ : Kernel} (h : QueuesOk k fun _ => False) (hc : k.curthr = some cur)
    (hm : sched_make_runnable (k.setResume cur .elsewhere) cur = some k₁) : QueuesOk (k₁.setCur none) fun _ => False := by
  have h0 : QueuesOk (k.setResume cur .elsewhere) fun _ => False := h.congr rfl rfl rfl fun _ hu => hu
  obtain ⟨th, -, -, hr⟩ := make_runnable_rehang h0 hm
  refine dropCur (make_runnable_queued h0 (fun u hu => hu.elim) hm) fun t tht ht htht _ => .inl ?_
  have hcur : k₁.curthr = some cur := (make_runnable_curthr hm).trans hc
  cases hcur.symm.trans ht
  rw [hr.threads, Function.update_self] at htht
  cases htht
  rfl

theorem step_queued {e : Event} (h : QueuesOk k fun _ => False) (hx : step MAX k e = some (k', w)) :
    QueuesOk k' fun _ => False := by
  cases e with simp only [step, bind, Option.bind_eq_some_iff, Option.some.injEq, Prod.mk.injEq, Prod.exists] at hx
  | wakeup n =>
    obtain ⟨k₁, h1, rfl, -⟩ := hx
    obtain ⟨r, he⟩ := wakeup_effect h h1
    exact (he.keeps h).queues
  | broadcast n =>
    obtain ⟨k₁, h1, rfl, -⟩ := hx
    exact (sched_broadcast_on_keeps h (by simp) h1).queues
  | dispatch => exact dispatch_queued h hx
  | proc_create =>
    obtain ⟨cur, -, k₁, c, h1, rfl, -⟩ := hx
    obtain ⟨-, -, hth, hl, hsz, hcur⟩ := proc_create_rest h1
    exact h.congr hth hl hsz fun _ hu => by rwa [hcur]
  | start p =>
    obtain ⟨cur, -, k₁, h1, k₂, h2, rfl, -⟩ := hx
    exact make_runnable_queued (create_keeps h (.inl rfl) h1).queues (fun u hu => hu.elim) h2
  | fork =>
    obtain ⟨cur, -, k₁, c, h1, rfl, -⟩ := hx
    exact do_fork_queued h h1
  | do_exit addr status =>
    obtain ⟨cur, hc, k₁, h0, rfl, -⟩ := hx
    have h1 := do_exit_exits h0
    exact (exit_keeps h hc h1).queues
  | fault addr =>
    simp only [fault, bind, Option.bind_eq_some_iff] at hx
    obtain ⟨cur, hc, k₁, ⟨pr, -, h1⟩, rfl, -⟩ := hx
    have h0 : QueuesOk (k.setProc cur (some { pr with p_status := EFAULT })) fun _ => False :=
      h.congr rfl rfl rfl fun _ hu => hu
    have hc0 : (k.setProc cur (some { pr with p_status := EFAULT })).curthr = some cur := hc
    exact (exit_keeps h0 hc0 h1).queues
  | kthread_exit retval =>
    obtain ⟨cur, hc, k₁, h1, rfl, -⟩ := hx
    exact (exit_keeps h hc h1).queues
  | kthread_cancel t retval =>
    obtain ⟨cur, hc, k₁, ex, h0, rfl, -⟩ := hx
    obtain ⟨-, h1, -⟩ | ⟨-, kthr, ht, h1, -⟩ := kthread_cancel_cases h0
    · exact (exit_keeps h hc h1).queues
    · exact ((sched_cancel_cases h ht h1).keeps h).queues
  | do_waitpid pid =>
    obtain ⟨cur, hc, hx⟩ := hx
    exact do_waitpid_queued h hc hx
  | sleep n =>
    obtain ⟨cur, hc, k₁, h1, rfl, -⟩ := hx
    exact sched_sleep_on_queued h hc (by simp) h1
  | cancellable_sleep n =>
    obtain ⟨cur, hc, hx⟩ := hx
    obtain ⟨thr, -, ⟨-, rfl, -⟩ | ⟨-, h1, -⟩⟩ := sched_cancellable_sleep_on_cases hx
    · exact h
    · exact (sleepOn_keeps h (by simp) (.inr rfl) hc h1).queues
  | yield =>
    obtain ⟨cur, hc, k₁, h1, rfl, -⟩ := hx
    exact yield_queued h hc h1

theorem killStep_queued {e : KillEvent} (h : QueuesOk k fun _ => False) (hx : killStep MAX k e = some (k', w)) :
    QueuesOk k' fun _ => False := by
  cases e with
    simp only [killStep, bind, Option.bind_eq_some_iff, Option.some.injEq, Prod.mk.injEq] at hx
  | event e => exact step_queued h hx
  | kthread_create p =>
    obtain ⟨-, -, k₁, h1, rfl, -⟩ := hx
    exact (create_keeps h (.inl rfl) h1).queues
  | sched_make_runnable t =>
    obtain ⟨-, -, k₁, h1, rfl, -⟩ := hx
    exact make_runnable_queued h (fun u hu => hu.elim) h1
  | proc_kill_all addr =>
    obtain ⟨cur, -, k₁, h1, rfl, -⟩ := hx
    exact (proc_kill_from_killed h h1).queues

/-- In every state reached, when `proc_kill_all` is called, its loop cancels the
threads of all processes it is for, and no assertion fails, if and only if all of
these threads are active. -/
theorem proc_kill_all_iff {tr : List (KillEvent × Outcome)} (h : Run (killStep MAX) (fun _ _ => True) Kernel.boot k tr)
    (hc : k.curthr = some cur) (addr : Int) :
    (∃ k', killStep MAX k (.proc_kill_all addr) = some (k', .done) ∧ Killed k k' fun p => p ∈ k.proc_list ∧ Aimed k cur p) ↔
      ∀ p ∈ k.proc_list, cur ≠ p → Killable k p := by
  have hq : QueuesOk k fun _ => False :=
    h.inv (fun k => QueuesOk k fun _ => False) boot_started.queues fun _ _ _ _ hi _ hx => killStep_queued hi hx
  rw [← proc_kill_from_iff addr hq hc]
  simp only [killStep, hc, bind, Option.bind_some, Option.bind_eq_some_iff, Option.some.injEq, Prod.mk.injEq, and_true,
    exists_eq_right]
  exact ⟨fun ⟨k', h1, _⟩ => ⟨k', h1⟩, fun ⟨k', h1⟩ => ⟨k', h1, proc_kill_from_killed hq h1⟩⟩

/-- The init process has the child 2, which sleeps and can be cancelled. -/
def oneSleeper : List KillEvent :=
  [.event .proc_create, .event (.start 1), .event (.do_waitpid (-1)), .event .dispatch, .event .proc_create,
    .event (.start 2), .event .yield, .event .dispatch, .event (.cancellable_sleep 5), .event .dispatch]

/-- The init process cancels it, and it runs. -/
theorem sleeper_cancelled : ∃ k tr k' th, Run (killStep 256) (fun _ _ => True) Kernel.boot k tr ∧
    killStep 256 k (.proc_kill_all 0) = some (k', .done) ∧ k'.threads 2 = some th ∧ th.kt_cancelled = true ∧ th.kt_state = .run := by
  have h : (exec (killStep 256) (fun _ _ => true) Kernel.boot oneSleeper).map (fun x => (x.1.curthr,
      decide (∀ p ∈ x.1.proc_list, 1 ≠ p → Killable x.1 p), decide (2 ∈ x.1.proc_list ∧ Aimed x.1 1 2),
        (x.1.threads 2).map (·.kt_state))) = some (some 1, true, true, some .sleep_cancellable) := by decide +kernel
  simp only [Option.map_eq_some_iff, Prod.exists, Prod.mk.injEq, decide_eq_true_eq] at h
  obtain ⟨k, tr, hex, hc, hall, haim, th, hth, hs⟩ := h
  have hrun := Run.of_exec (fun _ _ _ => trivial) hex
  obtain ⟨k', hk', hkill⟩ := (proc_kill_all_iff hrun hc 0).2 hall
  obtain ⟨th', hth', hcan⟩ := hkill.cancelled 2 haim th hth
  exact ⟨k, tr, k', th', hrun, hk', hth', hcan.flag, (hcan.woken hs).1⟩

/-- The child 2 of the init process exits, and nobody has waited for it. -/
def oneZombie : List KillEvent :=
  [.event .proc_create, .event (.start 1), .event (.do_waitpid (-1)), .event .dispatch, .event .proc_create,
    .event (.start 2), .event .yield, .event .dispatch, .event (.do_exit 100 0), .event .dispatch]

/-- The assertion of `sched_cancel` fails on the thread of a zombie. -/
theorem zombie_fails : ∃ k tr, Run (killStep 256) (fun _ _ => True) Kernel.boot k tr ∧ k.curthr = some 1 ∧ Dead k 2 ∧
    killStep 256 k (.proc_kill_all 0) = none := by
  have h : (exec (killStep 256) (fun _ _ => true) Kernel.boot oneZombie).map (fun x => (x.1.curthr,
      (x.1.procs 2).map (·.p_state), (killStep 256 x.1 (.proc_kill_all 0)).isNone)) = some (some 1, some .dead, true) := by
    decide +kernel
  simp only [Option.map_eq_some_iff, Prod.exists, Prod.mk.injEq, Option.isNone_iff_eq_none] at h
  obtain ⟨k, tr, hex, hc, ⟨pr, hpr, hd⟩, hk⟩ := h
  exact ⟨k, tr, Run.of_exec (fun _ _ _ => trivial) hex, hc, ⟨pr, hpr, hd⟩, hk⟩

end Weenix.Proc.VmSubmit
