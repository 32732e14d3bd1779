import Weenix.Proc.Kmutex
import Weenix.Proc.ProcsSubmit
/-!
# The mutex of procs-submit (`proc/kmutex.c`)

Here `sched_cancellable_sleep_on` returns `-EINTR` when the thread has been
cancelled by the time it goes on, whoever took it off the queue.
-/

namespace Weenix.Proc.ProcsSubmit
open Lib

/-! ## The scheduler's calls -/

inductive SchedCall
  | sched_sleep_on (q : Queue)
  | sched_cancellable_sleep_on (q : Queue)
  | sched_wakeup_on (q : Queue)
  | sched_broadcast_on (q : Queue)
  | sched_make_runnable (t : Nat)
  /-- `sched_make_runnable` on itself, and `sched_switch`. -/
  | yield
  | kthread_create (p : Nat)
  | kthread_exit (retval : Int)
  deriving DecidableEq

def schedStep (k : Kernel) : SchedCall → Option Kernel
  | .sched_sleep_on q => do
    let cur ← k.curthr
    sched_sleep_on k cur q .elsewhere
  | .sched_cancellable_sleep_on q => do
    let cur ← k.curthr
    let (k, _) ← sched_cancellable_sleep_on k cur q
    some k
  | .sched_wakeup_on q => sched_wakeup_on k q
  | .sched_broadcast_on q => sched_broadcast_on k q
  | .sched_make_runnable t => do
    KASSERT (k.curthr ≠ some t)
    sched_make_runnable k t
  | .yield => do
    let cur ← k.curthr
    let k ← sched_make_runnable k cur
    some (k.setCur none)
  | .kthread_create p => kthread_create k p
  | .kthread_exit retval => do
    let cur ← k.curthr
    kthread_exit k cur retval

variable {k k' : Kernel} {q : Queue} {t cur : Nat} {P : Nat → Prop}

theorem sched_broadcast_on_keeps (h : QueuesOk k P) (hb : sched_broadcast_on k q = some k') :
    Keeps k k' P (· = q) (fun _ => False) none := by
  have hwake : ∀ {k k'}, QueuesOk k P → k.tq_list q ≠ [] → sched_wakeup_on k q = some k' →
      ∃ t, WakeupEffect k q k' (some t) := fun h hne hw => by
    obtain ⟨r, he⟩ := wakeup_effect h hw
    cases r with
    | none =>
      cases he with
      | empty e => exact absurd e hne
    | some t => exact ⟨t, he⟩
  refine broadcast_keeps hwake h (fun hq => ?_) hb
  by_contra hne
  unfold sched_broadcast_on at hb
  cases hl : k.tq_list q with
  | nil => exact hne hl
  | cons t ts =>
    rw [hl] at hb
    simp only [broadcast_from, bind, Option.bind_eq_some_iff] at hb
    obtain ⟨k₁, h1, -⟩ := hb
    obtain ⟨u, he⟩ := hwake h hne h1
    cases he with
    | woke _ hrq => exact hrq hq

/-- `sched_cancel` marks the thread in place, or wakes it from a cancellable sleep. -/
theorem sched_cancel_cases {th : Kthread} {retval : Int} (h : QueuesOk k P) (hth : k.threads t = some th)
    (hs : sched_cancel (k.setThread t (some { th with kt_retval := retval })) t = some k') :
    CancelEffect k t retval k' := by
  simp only [sched_cancel, bind, Kernel.setThread_self, Option.bind_some] at hs
  have e : (k.setThread t (some { th with kt_retval := retval })).setThread t
      (some { th with kt_retval := retval, kt_cancelled := true }) =
      k.setThread t (some { th with kt_retval := retval, kt_cancelled := true }) := by
    simp [Kernel.setThread]
  split at hs
  next hc =>
    simp only [Option.bind_eq_some_iff] at hs
    obtain ⟨q, hq, k₁, ho, hr⟩ := hs
    exact .of_wake h hth hc hq (e ▸ ho) hr
  next hc =>
    simp only [Option.bind_eq_some_iff, KASSERT_eq_some, Option.some.injEq] at hs
    obtain ⟨-, -, rfl⟩ := hs
    rw [e]
    exact .marked hth hc

theorem exit_keeps {retval : Int} (h : QueuesOk k P) (hcur : k.curthr = some cur)
    (hx : kthread_exit k cur retval = some k') :
    Keeps k k' P (fun q => ∃ p, q = .wait p) (· = cur) none ∧ k'.curthr = none := by
  simp only [kthread_exit, proc_cleanup, bind, Option.bind_eq_some_iff, KASSERT_eq_some] at hx
  obtain ⟨th, hth, -, hw, ini, -, pr, -, -, -, -, -, hx⟩ := hx
  have hout : ∀ q, cur ∉ k.tq_list q := fun q => h.not_mem hth (by rw [hw]; simp)
  have hr : Rehang k (k.setThread cur (some { th with kt_retval := retval, kt_state := .exited })) cur
      { th with kt_retval := retval, kt_state := .exited } :=
    ⟨rfl, fun q => by simp [Kernel.setThread, hw, List.erase_of_not_mem (hout q)],
      fun q => by simp [Kernel.setThread, hw, hout q]⟩
  have h1 : QueuesOk _ P := h.rehang hr (by constructor <;> simp [hw]) fun u _ hu => hu
  have h2 := dropCur h1 fun t tht ht htht hrun => by
    cases hcur.symm.trans ht
    rw [Kernel.setThread_self] at htht
    cases htht
    cases hrun
  generalize hk₁ : ((k.setThread cur (some { th with kt_retval := retval, kt_state := .exited })).setCur none).setProc
    cur (some { pr with p_status := retval, p_state := .dead }) = k₁ at hx
  have hs : SameEnds k₁ (reparent ini k₁ pr.p_children) := reparent_ends
  subst hk₁
  have h3 : QueuesOk _ P := h2.congr hs.threads hs.tq_list hs.tq_size fun u hu => by rwa [hs.curthr]
  have hb := sched_broadcast_on_keeps h3 hx
  have hne : ∀ u, k'.curthr ≠ some u := fun u hu => by
    have := hb.stays (by simp) u hu
    rw [hs.curthr] at this
    cases this
  have hall := hb.after (k := k) (t := cur) (fun u hu => by rw [hs.threads]; simp [Kernel.setThread, Kernel.setProc, Kernel.setCur, hu])
    (by rw [hs.tq_list]; rfl) (by rw [hs.threads]; simp [Kernel.setThread, Kernel.setProc, Kernel.setCur])
    (by unfold cancelled; rw [hs.threads]; simp [Kernel.setThread, Kernel.setProc, Kernel.setCur, hth])
    fun u hu => by rw [hs.curthr] at hu; cases hu
  refine ⟨hall.mono (fun _ e => ⟨_, e⟩) fun u hu => hu.elim False.elim id, ?_⟩
  cases hc : k'.curthr with
  | none => rfl
  | some u => exact absurd hc (hne u)

/-- The queues a call names. -/
def touched : SchedCall → Queue → Prop
  | .sched_sleep_on q', q | .sched_cancellable_sleep_on q', q | .sched_wakeup_on q', q | .sched_broadcast_on q', q =>
    q = q'
  | .kthread_exit _, q => ∃ p, q = .wait p
  | _, _ => False

/-- The threads a call names or is made by. -/
def subject (k : Kernel) : SchedCall → Nat → Prop
  | .sched_sleep_on _, u | .sched_cancellable_sleep_on _, u | .yield, u | .kthread_exit _, u => k.curthr = some u
  | .sched_make_runnable t, u | .kthread_create t, u => u = t
  | _, _ => False

/-- What a call keeps. A thread the call is about is on no queue, and the thread
that runs afterwards is still on none. -/
theorem schedStep_keeps {c : SchedCall} (h : QueuesOk k fun _ => True) (hq : ∀ q, touched c q → q ≠ .runq)
    (hidle : ∀ t, k.curthr = some t → ∀ q, t ∉ k.tq_list q) (hs : schedStep k c = some k') :
    Keeps k k' (fun _ => True) (touched c) (subject k c) none ∧ (∀ u, subject k c u → ∀ q, u ∉ k.tq_list q) ∧
      ∀ t, k'.curthr = some t → ∀ q, t ∉ k'.tq_list q := by
  cases c with simp only [schedStep, bind, Option.bind_eq_some_iff, KASSERT_eq_some, Option.some.injEq, Prod.exists] at hs
  | sched_sleep_on q =>
    obtain ⟨cur, hcur, hs⟩ := hs
    have hkeep := sleepOn_keeps h (hq q rfl) (.inl rfl) hcur hs
    have hnone := (sleepOn_rehang h hs).choose_spec.2.2.2
    exact ⟨hkeep.mono (fun _ e => e) fun _ e => e ▸ hcur, hidle, fun t ht => by rw [hnone] at ht; cases ht⟩
  | sched_cancellable_sleep_on q =>
    obtain ⟨cur, hcur, k₁, w, h1, rfl⟩ := hs
    obtain ⟨th, -, ⟨-, rfl, -⟩ | ⟨-, h2, -⟩⟩ := sched_cancellable_sleep_on_cases h1
    · exact ⟨.refl h, hidle, hidle⟩
    · have hkeep := sleepOn_keeps h (hq q rfl) (.inr rfl) hcur h2
      have hnone := (sleepOn_rehang h h2).choose_spec.2.2.2
      exact ⟨hkeep.mono (fun _ e => e) fun _ e => e ▸ hcur, hidle, fun t ht => by rw [hnone] at ht; cases ht⟩
  | sched_wakeup_on q =>
    obtain ⟨r, hw⟩ := wakeup_effect h hs
    have hkeep := hw.keeps h
    exact ⟨hkeep, fun _ => False.elim, hkeep.idle h (fun e => hq q rfl e.symm) hidle fun _ _ => id⟩
  | sched_broadcast_on q =>
    have hkeep := sched_broadcast_on_keeps h hs
    exact ⟨hkeep, fun _ => False.elim, hkeep.idle h (fun e => hq q rfl e.symm) hidle fun _ _ => id⟩
  | sched_make_runnable t =>
    obtain ⟨-, hne, hs⟩ := hs
    obtain ⟨th, hth, hw, -⟩ := make_runnable_rehang h hs
    have hkeep := make_runnable_keeps h hs
    refine ⟨hkeep.before (hkeep.queues.congr rfl rfl rfl fun _ _ => .inr trivial) rfl rfl (.inl rfl), ?_, ?_⟩
    · rintro u rfl q
      exact h.not_mem hth (by rw [hw]; simp)
    · refine hkeep.idle h id hidle ?_
      rintro u hu rfl
      exact hne (make_runnable_curthr hs ▸ hu)
  | yield =>
    obtain ⟨cur, hcur, k₁, h1, rfl⟩ := hs
    have hkeep := make_runnable_keeps h h1
    have hk₁ := hkeep.queues.loosen
    refine ⟨?_, hidle, fun t ht => (by cases ht)⟩
    exact (hkeep.before (dropCur hk₁ fun _ _ _ _ _ => .inr trivial) rfl rfl (.inr rfl)).mono (fun _ => id)
      fun _ e => e ▸ hcur
  | kthread_create p =>
    have hkeep := create_keeps h (.inr ⟨rfl, trivial⟩) hs
    simp only [kthread_create, kthread_create_as, bind, Option.bind_eq_some_iff, KASSERT_eq_some, Option.some.injEq] at hs
    obtain ⟨-, -, -, hn, rfl⟩ := hs
    exact ⟨hkeep, fun u hu => hu ▸ h.absent hn, hidle⟩
  | kthread_exit retval =>
    obtain ⟨cur, hcur, hs⟩ := hs
    obtain ⟨hkeep, hnone⟩ := exit_keeps h hcur hs
    exact ⟨hkeep.mono (fun _ e => e) fun _ e => e ▸ hcur, hidle, fun t ht => by rw [hnone] at ht; cases ht⟩

/-! ## The mutex -/

def kmutex_lock (m : Nat) (s : Kmutex) : Option (Kmutex × LockOutcome) := do
  let cur ← s.k.curthr
  KASSERT (s.km_holder ≠ some cur)
  if s.km_holder = none then some (s.acquire cur false)
  else do
    let k ← sched_sleep_on s.k cur (km_waitq m) .elsewhere
    some ((s.setKernel k).goes cur (.locking false), .blocked cur)

def kmutex_lock_cancellable (m : Nat) (s : Kmutex) : Option (Kmutex × LockOutcome) := do
  let cur ← s.k.curthr
  KASSERT (s.km_holder ≠ some cur)
  if s.km_holder = none then some (s.acquire cur true)
  else do
    match ← sched_cancellable_sleep_on s.k cur (km_waitq m) with
    | (k, .error e) => some (s.setKernel k, .result cur (some e))
    | (k, _) => some ((s.setKernel k).goes cur (.locking true), .blocked cur)

def kmutex_unlock (m : Nat) (s : Kmutex) : Option (Kmutex × LockOutcome) := do
  let cur ← s.k.curthr
  KASSERT (s.km_holder = some cur)
  let k ← sched_wakeup_on s.k (km_waitq m)
  let r := woken s.k (km_waitq m)
  KASSERT (r ≠ some cur)
  some (((s.setKernel k).give r).goes cur .outside, .of r)

/-- What `sched_cancellable_sleep_on` returns after `sched_switch`. -/
def err (k : Kernel) (t : Nat) : Option Errno := if cancelled k t then some .EINTR else none

def lockStep (m : Nat) (s : Kmutex) : LockEvent SchedCall → Option (Kmutex × LockOutcome)
  | .kmutex_lock => kmutex_lock m s
  | .kmutex_lock_cancellable => kmutex_lock_cancellable m s
  | .kmutex_unlock => kmutex_unlock m s
  | .kthread_cancel t retval => do
    let cur ← s.k.curthr
    let (k, _) ← kthread_cancel s.k cur t retval
    some (s.setKernel k, .done)
  | .found => goOn err s
  | .call c => do
    let k ← schedStep s.k c
    some (s.setKernel k, .done)

/-- Only `kmutex.c` uses `km_waitq`, and other calls are not about `kt_runq`. -/
def Aside (m : Nat) : LockEvent SchedCall → Prop
  | .call c => ∀ q, touched c q → q ≠ km_waitq m ∧ q ≠ .runq
  | _ => True

/-- No thread is cancelled that was given the mutex in `kmutex_lock_cancellable` and has not run since. -/
def Careful (m : Nat) (s : Kmutex) (e : LockEvent SchedCall) : Prop :=
  Aside m e ∧ ∀ t retval, e = .kthread_cancel t retval → ¬ (s.km_holder = some t ∧ s.place t = .locking true)

variable {m : Nat} {s s' : Kmutex} {b : Bool} {w : LockOutcome} {e : LockEvent SchedCall}

/-- A call that uses other queues, or the cancelling of another thread. -/
inductive Elsewhere (m : Nat) (s : Kmutex) (k' : Kernel) : Prop
  | call {touch : Queue → Prop} {subj : Nat → Prop} : Keeps s.k k' (fun _ => True) touch subj none →
      (∀ q, touch q → q ≠ km_waitq m ∧ q ≠ .runq) → (∀ t, subj t → ∀ q, t ∉ s.k.tq_list q) →
      (∀ t, k'.curthr = some t → ∀ q, t ∉ k'.tq_list q) → Elsewhere m s k'
  | cancel {t : Nat} {retval : Int} : CancelEffect s.k t retval k' → s.k.curthr ≠ some t →
      ¬ (s.km_holder = some t ∧ s.place t = .locking true) → Elsewhere m s k'

/-- A thread in a lock call waits; or it has been given the mutex, and not been
cancelled if that could refuse it; or it has been cancelled, does not have the
mutex and will be told so. -/
def Standing (m : Nat) (s : Kmutex) (t : Nat) (b : Bool) : Prop :=
  (t ∈ s.k.tq_list (km_waitq m) ∧ (b = true → cancelled s.k t = false)) ∨
    (t ∈ s.k.tq_list .runq ∧ s.km_holder = some t ∧ (b = true → cancelled s.k t = false)) ∨
    (t ∈ s.k.tq_list .runq ∧ b = true ∧ s.km_holder ≠ some t ∧ cancelled s.k t = true)

/-- A step that does not concern the thread. -/
theorem Standing.keep (h : Standing m s t b) (hw : t ∈ s.k.tq_list (km_waitq m) → t ∈ s'.k.tq_list (km_waitq m))
    (hr : t ∈ s.k.tq_list .runq → t ∈ s'.k.tq_list .runq) (hh : s'.km_holder = some t ↔ s.km_holder = some t)
    (hf : cancelled s'.k t = cancelled s.k t) : Standing m s' t b := by
  unfold Standing
  rw [hf]
  rcases h with ⟨h1, h2⟩ | ⟨h1, h2, h3⟩ | ⟨h1, h2, h3, h4⟩
  · exact .inl ⟨hw h1, h2⟩
  · exact .inr (.inl ⟨hr h1, hh.2 h2, h3⟩)
  · exact .inr (.inr ⟨hr h1, h2, fun e => h3 (hh.1 e), h4⟩)

structure Told (m : Nat) (s : Kmutex) : Prop where
  waits : Waits m s
  idle : ∀ t, s.k.curthr = some t → ∀ q, t ∉ s.k.tq_list q
  sleeps : ∀ t ∈ s.k.tq_list (km_waitq m), ∀ b, s.place t = .locking b →
    ∃ th, s.k.threads t = some th ∧ th.kt_state = if b then .sleep_cancellable else .sleep
  turn : ∀ t b, s.place t = .locking b → Standing m s t b

/-- A thread of the queue exists. -/
theorem Told.flag (h : Told m s) {touch : Queue → Prop} {subj : Nat → Prop}
    (hk : Keeps s.k k' (fun _ => True) touch subj none) {u : Nat} (hp : s.place u = .locking b) :
    cancelled k' u = cancelled s.k u := by
  have hq : ∃ q, u ∈ s.k.tq_list q := by
    rcases h.turn u b hp with ⟨h1, -⟩ | ⟨h1, -⟩ | ⟨h1, -⟩ <;> exact ⟨_, h1⟩
  obtain ⟨q, hq⟩ := hq
  obtain ⟨th, h1, -⟩ := (h.waits.queues.wchan q u).1 hq
  exact (hk.flags u (by rw [h1]; simp)).resolve_left (by simp)

theorem Told.acquire (h : Told m s) (hc : s.k.curthr = some t) (hn : s.km_holder = none) (b : Bool) :
    Told m (s.acquire t b).1 := by
  refine ⟨h.waits.acquire hc hn b, h.idle, fun u hu b' hp => ?_, fun u b' hp => ?_⟩
  · change u ∈ s.k.tq_list (km_waitq m) at hu
    rw [h.waits.free hn] at hu
    cases hu
  · rcases Kmutex.goes_place hp with ⟨-, hp⟩ | ⟨hne, hp⟩
    · cases hp
    · refine (h.turn u b' hp).keep id id ⟨fun e => ?_, fun e => ?_⟩ rfl
      · exact absurd (Option.some.inj e).symm hne
      · rw [hn] at e
        cases e

theorem Told.block {st : ThreadState} (h : Told m s) (hc : s.k.curthr = some t) (hn : s.km_holder ≠ none)
    (ht : s.km_holder ≠ some t) (hf : b = true → cancelled s.k t = false)
    (hst : st = if b then .sleep_cancellable else .sleep)
    (hs : sleepOn s.k t (km_waitq m) st .elsewhere = some k') :
    Told m ((s.setKernel k').goes t (.locking b)) := by
  have hst' : st = .sleep ∨ st = .sleep_cancellable := by cases b <;> simp [hst]
  obtain ⟨hw, hl⟩ := h.waits.block hc hn ht hst' hs b
  have hk := sleepOn_keeps h.waits.queues km_waitq_ne hst' hc hs
  obtain ⟨th, hth, -, hr, hcur⟩ := sleepOn_rehang h.waits.queues hs
  refine ⟨hw, fun u hu => ?_, fun u hu b' hp => ?_, fun u b' hp => ?_⟩
  · change k'.curthr = some u at hu
    rw [hcur] at hu
    cases hu
  · change ∃ th, k'.threads u = some th ∧ _
    rw [hr.threads]
    rcases Kmutex.goes_place hp with ⟨rfl, e⟩ | ⟨hne, hp⟩
    · cases e
      exact ⟨_, Function.update_self .., hst⟩
    · change u ∈ k'.tq_list (km_waitq m) at hu
      rw [hl, List.mem_cons] at hu
      rw [Function.update_of_ne hne]
      exact h.sleeps u (hu.resolve_left hne) b' hp
  · rcases Kmutex.goes_place hp with ⟨rfl, e⟩ | ⟨-, hp⟩
    · cases e
      refine .inl ⟨?_, fun e => ?_⟩
      · change u ∈ k'.tq_list (km_waitq m)
        rw [hl]
        exact List.mem_cons_self
      · have := (hk.flags u (by rw [hth]; simp)).resolve_left (by simp)
        exact this.trans (hf e)
    · refine (h.turn u b' hp).keep (fun hm => ?_) (hk.grows (fun e => km_waitq_ne e.symm) u) Iff.rfl (h.flag hk hp)
      change u ∈ k'.tq_list (km_waitq m)
      rw [hl]
      exact List.mem_cons_of_mem _ hm

theorem Told.pass {r : Option Nat} (h : Told m s) (hc : s.k.curthr = some t) (hh : s.km_holder = some t)
    (hw : WakeupEffect s.k (km_waitq m) k' r) : Told m (((s.setKernel k').give r).goes t .outside) := by
  have hk := hw.keeps h.waits.queues
  refine ⟨h.waits.pass hc hw,
    hk.idle h.waits.queues (fun e => km_waitq_ne e.symm) h.idle (fun _ _ => id), fun u hu b hp => ?_, fun u b hp => ?_⟩
  · rcases Kmutex.goes_place hp with ⟨-, hp⟩ | ⟨-, hp⟩
    · cases hp
    · change u ∈ k'.tq_list (km_waitq m) at hu
      cases hw with
      | empty => exact h.sleeps u hu b hp
      | @woke _ v th hl hq hth hr _ =>
        rw [hr.lists, if_neg (by simpa using Ne.symm hq), List.nil_append, (h.waits.queues.once _).mem_erase_iff] at hu
        obtain ⟨tu, h3, h4⟩ := h.sleeps u hu.2 b hp
        exact ⟨tu, by change k'.threads u = _; rw [hr.threads, Function.update_of_ne hu.1]; exact h3, h4⟩
  · rcases Kmutex.goes_place hp with ⟨-, hp⟩ | ⟨hne, hp⟩
    · cases hp
    have hf : cancelled k' u = cancelled s.k u := h.flag hk hp
    by_cases e : r = some u
    · -- it was waiting, and is the holder now
      have hm := List.mem_of_getLast? (hw.returns.trans e)
      subst e
      obtain ⟨th, -, -, hr, -⟩ := hw.wakes
      refine .inr (.inl ⟨?_, rfl, fun e => ?_⟩)
      · change u ∈ k'.tq_list .runq
        rw [hr.lists, if_pos rfl]
        simp
      · rcases h.turn u b hp with ⟨-, h1⟩ | ⟨h1, -⟩ | ⟨h1, -⟩
        · exact hf.trans (h1 e)
        · exact absurd (h.waits.queues.one _ _ u hm h1) km_waitq_ne
        · exact absurd (h.waits.queues.one _ _ u hm h1) km_waitq_ne
    · refine (h.turn u b hp).keep (fun hm => ?_) (hk.grows (fun e => km_waitq_ne e.symm) u) ⟨fun e' => absurd e' e, fun e' => ?_⟩ hf
      · change u ∈ k'.tq_list (km_waitq m)
        cases hw with
        | empty => exact hm
        | @woke _ v th hl hq hth hr _ =>
          rw [hr.lists, if_neg (by simpa using Ne.symm hq), List.nil_append, (h.waits.queues.once _).mem_erase_iff]
          exact ⟨fun e' => e (by rw [e']), hm⟩
      · rw [hh] at e'
        exact absurd (Option.some.inj e').symm hne

theorem Told.call {touch : Queue → Prop} {subj : Nat → Prop} (h : Told m s)
    (hk : Keeps s.k k' (fun _ => True) touch subj none) (ht : ∀ q, touch q → q ≠ km_waitq m ∧ q ≠ .runq)
    (hsub : ∀ t, subj t → ∀ q, t ∉ s.k.tq_list q) (hidle : ∀ t, k'.curthr = some t → ∀ q, t ∉ k'.tq_list q) :
    Told m (s.setKernel k') := by
  have hl : k'.tq_list (km_waitq m) = s.k.tq_list (km_waitq m) :=
    hk.frame _ (fun hq => (ht _ hq).1 rfl) km_waitq_ne
  refine ⟨h.waits.aside hk ht, hidle, fun u hu b hp => ?_, fun u b hp => ?_⟩
  · change u ∈ k'.tq_list (km_waitq m) at hu
    rw [hl] at hu
    obtain ⟨th, h1, h2⟩ := h.sleeps u hu b hp
    refine ⟨th, (hk.still u (fun q hq hm => ?_) fun e => hsub u e _ hu).trans h1, h2⟩
    exact (ht q hq).1 (h.waits.queues.one _ _ u hm hu)
  · exact (h.turn u b hp).keep (fun hm => hl.symm ▸ hm) (hk.grows (fun hq => (ht _ hq).2 rfl) u) Iff.rfl (h.flag hk hp)

/-- A thread that is cancelled in its sleep on the wait queue is refused later. -/
theorem Told.cancel {retval : Int} (h : Told m s) (hc : CancelEffect s.k t retval k') (hcur : s.k.curthr ≠ some t)
    (hn : ¬ (s.km_holder = some t ∧ s.place t = .locking true)) : Told m (s.setKernel k') := by
  have hk := hc.keeps h.waits.queues
  have hflag : ∀ u, u ≠ t → cancelled k' u = cancelled s.k u := fun u hu => by
    cases hc with
    | marked => simp [cancelled, Kernel.setThread, hu]
    | woke _ _ _ _ hr _ => simp [cancelled, hr.threads, hu]
  have hcan : cancelled k' t = true := by
    cases hc with
    | marked => simp [cancelled]
    | woke _ _ _ _ hr _ => simp [cancelled, hr.threads]
  cases hc with
  | @marked th hth hst =>
    refine ⟨h.waits.leave hk.queues (fun _ => id) rfl, h.idle, fun u hu b hp => ?_, fun u b hp => ?_⟩
    · obtain ⟨tu, h1, h2⟩ := h.sleeps u hu b hp
      by_cases e : u = t
      · subst e
        cases hth.symm.trans h1
        exact ⟨_, Kernel.setThread_self .., h2⟩
      · exact ⟨tu, by simpa [Kernel.setThread, e] using h1, h2⟩
    · by_cases e : u = t
      · subst e
        -- it is not in a cancellable call, or will be refused anyway
        have hb : u ∈ s.k.tq_list (km_waitq m) ∨ s.km_holder = some u → b = true → False := by
          rintro (hm | hh) rfl
          · obtain ⟨tu, h1, h2⟩ := h.sleeps u hm true hp
            cases hth.symm.trans h1
            exact hst h2
          · exact hn ⟨hh, hp⟩
        rcases h.turn u b hp with ⟨h1, -⟩ | ⟨h1, h2, -⟩ | ⟨h1, h2, h3, -⟩
        · exact .inl ⟨h1, fun e => (hb (.inl h1) e).elim⟩
        · exact .inr (.inl ⟨h1, h2, fun e => (hb (.inr h2) e).elim⟩)
        · exact .inr (.inr ⟨h1, h2, h3, hcan⟩)
      · exact (h.turn u b hp).keep id id Iff.rfl (hflag u e)
  | @woke _ th q hth hst hm hq hr hc' =>
    have hl : ∀ q' u, u ∈ k'.tq_list q' ↔ (u = t ∧ q' = .runq) ∨ (u ≠ t ∧ u ∈ s.k.tq_list q') := fun q' u => by
      rw [hr.lists, List.mem_append, (h.waits.queues.once q').mem_erase_iff]
      by_cases e : q' = .runq
      · simp [e]
      · simp [e, Ne.symm e]
    refine ⟨h.waits.leave hk.queues (fun u hu => ?_) hc', fun u hu q' hm' => ?_, fun u hu b hp => ?_, fun u b hp => ?_⟩
    · exact (((hl _ u).1 hu).resolve_left fun e => km_waitq_ne e.2).2
    · change k'.curthr = some u at hu
      rw [hc'] at hu
      rcases (hl _ u).1 hm' with ⟨rfl, -⟩ | ⟨-, hm'⟩
      · exact hcur hu
      · exact h.idle u hu q' hm'
    · obtain ⟨hne, hu⟩ := ((hl _ u).1 hu).resolve_left fun e => km_waitq_ne e.2
      obtain ⟨tu, h1, h2⟩ := h.sleeps u hu b hp
      exact ⟨tu, by change k'.threads u = _; rw [hr.threads, Function.update_of_ne hne]; exact h1, h2⟩
    · by_cases e : u = t
      · subst e
        -- it slept, so it waited for the mutex, in a cancellable call
        have hw : u ∈ s.k.tq_list (km_waitq m) := by
          rcases h.turn u b hp with ⟨h1, -⟩ | ⟨h1, -⟩ | ⟨h1, -⟩
          · exact h1
          · exact absurd (h.waits.queues.one _ _ u hm h1) hq
          · exact absurd (h.waits.queues.one _ _ u hm h1) hq
        obtain ⟨tu, h1, h2⟩ := h.sleeps u hw b hp
        cases hth.symm.trans h1
        refine .inr (.inr ⟨(hl _ u).2 (.inl ⟨rfl, rfl⟩), ?_, fun e => h.waits.apart u e hw, hcan⟩)
        cases b with
        | true => rfl
        | false =>
          rw [hst] at h2
          cases h2
      · exact (h.turn u b hp).keep (fun hm => (hl _ u).2 (.inr ⟨e, hm⟩)) (fun hm => (hl _ u).2 (.inr ⟨e, hm⟩)) Iff.rfl
          (hflag u e)

/-- Who is refused in the end does not have the mutex. -/
theorem Told.resume (h : Told m s) (hs : sched_switch_to s.k = some (k', t)) :
    (∀ q, t ∉ k'.tq_list q) ∧ (∀ e, s.place t = .locking true → err k' t = some e → s.km_holder ≠ some t) ∧
      ∀ p, (∀ b, p ≠ .locking b) → Told m ((s.setKernel k').goes t p) := by
  obtain ⟨-, hlast, hcur, th, hth, -, hr⟩ := switch_to_rehang h.waits.queues hs
  have hm := List.mem_of_getLast? hlast
  have hk := found_keeps h.waits.queues hs
  have hl : ∀ q u, u ∈ k'.tq_list q ↔ u ≠ t ∧ u ∈ s.k.tq_list q := fun q u => by
    rw [hr.lists, if_neg (by simp), List.nil_append, (h.waits.queues.once q).mem_erase_iff]
  refine ⟨fun q hq => ((hl q t).1 hq).1 rfl, fun e hp he => ?_, fun p hp => ?_⟩
  · have hcan : cancelled s.k t = true := by
      rw [← h.flag hk hp]
      unfold err at he
      split at he
      next e => exact e
      next => cases he
    rcases h.turn t true hp with ⟨h1, -⟩ | ⟨-, -, h1⟩ | ⟨-, -, h1, -⟩
    · exact absurd (h.waits.queues.one _ _ t h1 hm) km_waitq_ne
    · rw [h1 rfl] at hcan
      cases hcan
    · exact h1
  · refine ⟨(h.waits.resume hs hp).1, fun u hu q hq => ?_, fun u hu b hpl => ?_, fun u b hpl => ?_⟩
    · change k'.curthr = some u at hu
      rw [hcur] at hu
      exact ((hl q u).1 hq).1 (Option.some.inj hu).symm
    · rcases Kmutex.goes_place hpl with ⟨-, e⟩ | ⟨hne, hpl⟩
      · exact absurd e (hp b)
      · obtain ⟨tu, h1, h2⟩ := h.sleeps u ((hl _ u).1 hu).2 b hpl
        exact ⟨tu, by change k'.threads u = _; rw [hr.threads, Function.update_of_ne hne]; exact h1, h2⟩
    · rcases Kmutex.goes_place hpl with ⟨-, e⟩ | ⟨hne, hpl⟩
      · exact absurd e (hp b)
      · exact (h.turn u b hpl).keep (fun hm => (hl _ u).2 ⟨hne, hm⟩) (fun hm => (hl _ u).2 ⟨hne, hm⟩) Iff.rfl
          (h.flag hk hpl)

/-! ## Every step -/

theorem kmutex_lock_effect (he : e ≠ .found) (h : kmutex_lock m s = some (s', w)) :
    LockEffect m err (Elsewhere m) s e s' w := by
  simp only [kmutex_lock, bind, Option.bind_eq_some_iff, KASSERT_eq_some] at h
  obtain ⟨cur, hc, -, hne, h⟩ := h
  split at h
  next hn =>
    cases h
    exact .acquire false he hc hn
  next hn =>
    simp only [sched_sleep_on, Option.bind_eq_some_iff, Option.some.injEq, Prod.mk.injEq] at h
    obtain ⟨k₁, hs, rfl, rfl⟩ := h
    exact .block false hc hn hne (by simp) hs

theorem kmutex_lock_cancellable_effect (he : e ≠ .found) (h : kmutex_lock_cancellable m s = some (s', w)) :
    LockEffect m err (Elsewhere m) s e s' w := by
  simp only [kmutex_lock_cancellable, bind, Option.bind_eq_some_iff, KASSERT_eq_some] at h
  obtain ⟨cur, hc, -, hne, h⟩ := h
  split at h
  next hn =>
    cases h
    exact .acquire true he hc hn
  next hn =>
    simp only [Option.bind_eq_some_iff, Prod.exists] at h
    obtain ⟨k₁, w₁, h1, h⟩ := h
    obtain ⟨thr, hthr, ⟨-, rfl, rfl⟩ | ⟨hf, hs, rfl⟩⟩ := sched_cancellable_sleep_on_cases h1
    · cases h
      exact .refuse hc hne
    · cases h
      exact .block true hc hn hne (fun _ => by simp [cancelled, hthr, hf]) hs

theorem kmutex_unlock_effect (hk : Waits m s) (h : kmutex_unlock m s = some (s', w)) :
    LockEffect m err (Elsewhere m) s e s' w := by
  simp only [kmutex_unlock, bind, Option.bind_eq_some_iff, KASSERT_eq_some, Option.some.injEq, Prod.mk.injEq] at h
  obtain ⟨cur, hc, -, hh, k₁, hw, -, -, rfl, rfl⟩ := h
  obtain ⟨r, he⟩ := wakeup_effect hk.queues hw
  have hr : woken s.k (km_waitq m) = r := he.returns
  exact hr ▸ .pass hc hh he

theorem lockStep_effect (hk : Told m s) (he : Careful m s e) (h : lockStep m s e = some (s', w)) :
    LockEffect m err (Elsewhere m) s e s' w := by
  cases e with
  | kmutex_lock => exact kmutex_lock_effect (by simp) h
  | kmutex_lock_cancellable => exact kmutex_lock_cancellable_effect (by simp) h
  | kmutex_unlock => exact kmutex_unlock_effect hk.waits h
  | kthread_cancel t retval =>
    simp only [lockStep, bind, Option.bind_eq_some_iff, Option.some.injEq, Prod.mk.injEq, Prod.exists] at h
    obtain ⟨cur, hc, k₁, x, h0, rfl, rfl⟩ := h
    obtain ⟨-, h2, -⟩ | ⟨hne, kthr, hth, h2, -⟩ := kthread_cancel_cases h0
    · obtain ⟨hkeep, hnone⟩ := exit_keeps hk.waits.queues hc h2
      refine .aside (.call hkeep ?_ ?_ fun u hu => by rw [hnone] at hu; cases hu)
      · rintro q ⟨p, rfl⟩
        exact ⟨by simp [km_waitq], by simp⟩
      · rintro u rfl
        exact hk.idle u hc
    · refine .aside (.cancel (sched_cancel_cases hk.waits.queues hth h2) (fun e => ?_) (he.2 t retval rfl))
      rw [hc] at e
      exact hne (Option.some.inj e).symm
  | found =>
    simp only [lockStep, goOn, bind, Option.bind_eq_some_iff, Option.some.injEq, Prod.mk.injEq, Prod.exists] at h
    obtain ⟨k₁, t, h1, rfl, rfl⟩ := h
    exact .resume h1
  | call c =>
    simp only [lockStep, bind, Option.bind_eq_some_iff, Option.some.injEq, Prod.mk.injEq] at h
    obtain ⟨k₁, h1, rfl, rfl⟩ := h
    obtain ⟨h2, h3, h4⟩ := schedStep_keeps hk.waits.queues (fun q hq => (he.1 q hq).2) hk.idle h1
    exact .aside (.call h2 he.1 h3 h4)

theorem comeBack_place (s : Kmutex) (t : Nat) (r : Option Errno) (b : Bool) : (s.comeBack t r).1 ≠ .locking b := by
  unfold Kmutex.comeBack
  split
  next => simp
  next => split <;> simp
  next p h1 h2 =>
    cases b
    · exact h1
    · exact h2

theorem effect_told (hk : Told m s) (h : LockEffect m err (Elsewhere m) s e s' w) : Told m s' := by
  cases h with
  | acquire b _ hc hn => exact hk.acquire hc hn b
  | block b hc hn ht hf hs => exact hk.block hc hn ht hf rfl hs
  | refuse => exact hk
  | pass hc hh hw => exact hk.pass hc hh hw
  | aside ho =>
    cases ho with
    | call h1 h2 h3 h4 => exact hk.call h1 h2 h3 h4
    | cancel h1 h2 h3 => exact hk.cancel h1 h2 h3
  | resume hs => exact (hk.resume hs).2.2 _ (comeBack_place s _ _)

theorem told {k₀ : Kernel} {tr : List (LockEvent SchedCall × LockOutcome)} (h0 : Started k₀)
    (h : Run (lockStep m) (Careful m) (.init k₀) s tr) : Told m s := by
  refine h.inv (Told m) ⟨.init h0.queues (h0.lists _), fun t _ q hq => ?_, fun t ht => ?_, fun t b ht => (by cases ht)⟩
    fun s e s' w hi hc hs => effect_told hi (lockStep_effect hi hc hs)
  · rw [Kmutex.init, h0.lists] at hq
    cases hq
  · rw [Kmutex.init, h0.lists] at ht
    cases ht

/-! ## The results -/

/-- A caller of `kmutex_lock_cancellable` that is told `-EINTR` does not have the
mutex and is on no queue, as long as no thread is cancelled between being given
the mutex there and running again. -/
theorem refused_is_free {k₀ : Kernel} {tr : List (LockEvent SchedCall × LockOutcome)} (h0 : Started k₀)
    (h : Run (lockStep m) (Careful m) (.init k₀) s tr) (hc : Careful m s e)
    (hs : lockStep m s e = some (s', .result t (some .EINTR))) :
    s'.km_holder ≠ some t ∧ ∀ q, t ∉ s'.k.tq_list q := by
  have hk := told h0 h
  have he := lockStep_effect hk hc hs
  generalize hw : LockOutcome.result t (some .EINTR) = w at he
  cases he with
  | @acquire _ u b =>
    cases b with
    | false => cases hw
    | true => cases hw
  | block => cases hw
  | refuse hcur hne =>
    cases hw
    exact ⟨hne, hk.idle t hcur⟩
  | @pass _ _ r => cases r <;> cases hw
  | aside => cases hw
  | @resume u k' hsw =>
    obtain ⟨h1, h2, -⟩ := hk.resume hsw
    unfold Kmutex.comeBack at hw
    split at hw
    next => cases hw
    next e =>
      simp only [LockOutcome.result.injEq] at hw
      obtain ⟨rfl, hr⟩ := hw
      exact ⟨h2 _ e hr.symm, h1⟩
    next => cases hw

/-- Two processes, of which the second has no thread yet. -/
def twoProcs : Kernel := Kernel.boot.addProc { p_pid := 1, p_pproc := 0 } 2

theorem twoProcs_started : Started twoProcs := ⟨boot_started.lists, boot_started.sizes, boot_started.threads⟩

def allowed (_ : Kmutex) : LockEvent SchedCall → Bool
  | .call .yield | .call (.sched_make_runnable _) | .call (.kthread_create _) => true
  | .call _ => false
  | _ => true

theorem aside_of_allowed (h : allowed s e = true) : Aside m e := by
  cases e with
  | call c =>
    cases c with
    | yield | sched_make_runnable | kthread_create => exact fun q hq => False.elim hq
    | _ => cases h
  | _ => trivial

/-- Thread 1 waits in `kmutex_lock_cancellable`. -/
def waiter : List (LockEvent SchedCall) :=
  [.call (.kthread_create 1), .call (.sched_make_runnable 1), .kmutex_lock, .call .yield, .found,
    .kmutex_lock_cancellable, .found]

/-- No thread in `s` has been given the mutex without knowing it. -/
def allowedCareful (s : Kmutex) (e : LockEvent SchedCall) : Bool :=
  allowed s e && decide (s.owed = [])

theorem careful_of_allowed (h : allowedCareful s e = true) : Careful m s e := by
  simp only [allowedCareful, Bool.and_eq_true, decide_eq_true_eq] at h
  refine ⟨aside_of_allowed h.1, fun t _ _ ⟨hh, hp⟩ => ?_⟩
  have := h.2
  simp [Kmutex.owed, hh, hp] at this

/-- It is cancelled while it waits, and told so. -/
theorem waiter_refused : ∃ s s' tr, Run (lockStep 7) (Careful 7) (.init twoProcs) s tr ∧
    lockStep 7 s .found = some (s', .result 1 (some .EINTR)) ∧ s'.km_holder ≠ some 1 ∧ ∀ q, 1 ∉ s'.k.tq_list q := by
  have hex : (exec (lockStep 7) allowedCareful (.init twoProcs) (waiter ++ [.kthread_cancel 1 5, .call .yield])).map
      (fun r => (lockStep 7 r.1 .found).map (·.2)) = some (some (.result 1 (some .EINTR))) := by decide +kernel
  simp only [Option.map_eq_some_iff, Prod.exists] at hex
  obtain ⟨s, tr, he, s', w, hs, rfl⟩ := hex
  have hr : Run (lockStep 7) (Careful 7) (.init twoProcs) s tr := Run.of_exec (fun _ _ => careful_of_allowed) he
  have hc : Careful 7 s .found := ⟨trivial, by simp⟩
  exact ⟨s, s', tr, hr, hs, refused_is_free twoProcs_started hr hc hs⟩

/-- It is cancelled after it was given the mutex: it is told `-EINTR`, and has the mutex. -/
theorem refused_holder : ∃ s s' tr, Run (lockStep 7) (fun _ => Aside 7) (.init twoProcs) s tr ∧
    lockStep 7 s .found = some (s', .result 1 (some .EINTR)) ∧ s'.km_holder = some 1 := by
  have hex : (exec (lockStep 7) allowed (.init twoProcs) (waiter ++ [.kmutex_unlock, .kthread_cancel 1 5, .call .yield])).map
      (fun r => (lockStep 7 r.1 .found).map fun x => (x.1.km_holder, x.2)) =
      some (some (some 1, .result 1 (some .EINTR))) := by decide +kernel
  simp only [Option.map_eq_some_iff, Prod.exists, Prod.mk.injEq] at hex
  obtain ⟨s, tr, he, s', w, hs, h1, rfl⟩ := hex
  exact ⟨s, s', tr, Run.of_exec (fun _ _ => aside_of_allowed) he, hs, h1⟩

end Weenix.Proc.ProcsSubmit
