import Weenix.Proc.Sched
import Weenix.Proc.VmSubmit
/-!
# The scheduler of vm-submit (`proc/sched.c`, `proc/kthread.c`)

A run is any sequence of calls of the scheduler's functions whose assertions
hold. The thread that runs makes them; `found` is the end of `sched_switch`,
which finds a thread to go on in. Two calls need care: a thread must not sleep
on `kt_runq`, and one that is still running must put itself on `kt_runq` before
it calls `sched_switch`.
-/

namespace Weenix.Proc.VmSubmit
open Lib

inductive SchedCall
  | sched_sleep_on (q : Queue)
  | sched_cancellable_sleep_on (q : Queue)
  | sched_wakeup_on (q : Queue)
  | sched_broadcast_on (q : Queue)
  | sched_cancel (t : Nat)
  | sched_make_runnable (t : Nat)
  | sched_switch
  | kthread_create (p : Nat)
  /-- `c` is the new thread. -/
  | kthread_clone (t c : Nat)
  | kthread_exit (retval : Int)
  | found
  deriving DecidableEq

/-- One call. -/
def schedStep (k : Kernel) : SchedCall → Option (Kernel × Unit)
  | .sched_sleep_on q => do
    let cur ← k.curthr
    let k ← sched_sleep_on k cur q .elsewhere
    some (k, ())
  | .sched_cancellable_sleep_on q => do
    let cur ← k.curthr
    let (k, _) ← sched_cancellable_sleep_on k cur q
    some (k, ())
  | .sched_wakeup_on q => do
    let k ← sched_wakeup_on k q
    some (k, ())
  | .sched_broadcast_on q => do
    -- on a run queue that is not empty the loop goes on for ever
    KASSERT (q = .runq → k.tq_list q = [])
    let k ← sched_broadcast_on k q
    some (k, ())
  | .sched_cancel t => do
    let k ← sched_cancel k t
    some (k, ())
  | .sched_make_runnable t => do
    let k ← sched_make_runnable k t
    some (k, ())
  | .sched_switch => do
    let _ ← k.curthr
    some (k.setCur none, ())
  | .kthread_create p => do
    let k ← kthread_create k p
    some (k, ())
  | .kthread_clone t c => do
    let k ← kthread_clone k t c
    some (k, ())
  | .kthread_exit retval => do
    let cur ← k.curthr
    let k ← kthread_exit k cur retval
    some (k, ())
  | .found => do
    let (k, _) ← sched_switch_to k
    some (k, ())

/-- The callers' part: `kt_runq` is not slept on, and a running thread that calls
`sched_switch` is on it. -/
def Proper (k : Kernel) : SchedCall → Prop
  | .sched_sleep_on q => q ≠ .runq
  | .sched_cancellable_sleep_on q => q ≠ .runq
  | .sched_switch => ∀ t th, k.curthr = some t → k.threads t = some th → th.kt_state = .run → th.kt_wchan = some .runq
  | _ => True

/-- `c` is the clone of a fork in progress: `do_fork` has not yet made it runnable. -/
def Forking (tr : List (SchedCall × Unit)) (c : Nat) : Prop :=
  ∃ pre t post, tr = pre ++ (.kthread_clone t c, ()) :: post ∧ (.sched_make_runnable c, ()) ∉ post

variable {k k' : Kernel} {q : Queue} {t c cur : Nat} {P : Nat → Prop}

theorem forking_snoc {tr : List (SchedCall × Unit)} {e : SchedCall × Unit} :
    Forking (tr ++ [e]) c ↔ (∃ t, e = (.kthread_clone t c, ())) ∨ (Forking tr c ∧ e ≠ (.sched_make_runnable c, ())) := by
  constructor
  · rintro ⟨pre, t, post, he, hn⟩
    rcases List.eq_nil_or_concat post with rfl | ⟨post', x, rfl⟩
    · have := (List.append_inj' he rfl).2
      exact .inl ⟨t, by simpa using this⟩
    · rw [List.concat_eq_append] at hn he
      rw [← List.cons_append, ← List.append_assoc] at he
      obtain ⟨h1, h2⟩ := List.append_inj' he rfl
      cases h2
      simp only [List.mem_append, List.mem_singleton, not_or] at hn
      exact .inr ⟨⟨pre, t, post', h1, hn.1⟩, Ne.symm hn.2⟩
  · rintro (⟨t, rfl⟩ | ⟨⟨pre, t, post, rfl, hn⟩, hne⟩)
    · exact ⟨tr, t, [], rfl, by simp⟩
    · exact ⟨pre, t, post ++ [e], by simp, by simp [hn, Ne.symm hne]⟩

/-! ## What each call keeps -/

theorem wakeTail_effect (h : QueuesOk k P) (hw : wakeTail q k = some k') : q = .runq ∨ ∃ t, WakeupEffect k q k' (some t) := by
  by_cases hq : q = .runq
  · exact .inl hq
  simp only [wakeTail, bind, Option.bind_eq_some_iff, Prod.exists] at hw
  obtain ⟨k₁, r, h1, h2⟩ := hw
  rcases dequeue_cases h1 with ⟨-, -, rfl⟩ | ⟨t, hl, rfl, ho⟩
  · cases h2
  · obtain ⟨th, hth, hr⟩ := wake_rehang h (List.mem_of_getLast? hl) ho h2
    exact .inr ⟨t, .woke hl hq hth hr ((make_runnable_curthr h2).trans (takeOff_curthr ho))⟩

theorem sched_broadcast_on_keeps (h : QueuesOk k P) (hq : q = .runq → k.tq_list q = [])
    (hb : sched_broadcast_on k q = some k') : Keeps k k' P (· = q) (fun _ => False) none := by
  unfold sched_broadcast_on at hb
  by_cases e : q = .runq
  · rw [hq e] at hb
    cases hb
    exact .refl h
  · exact broadcast_keeps (fun h _ hw => (wakeTail_effect h hw).resolve_left e) h hq hb

/-- `sched_cancel` marks the thread in place, or wakes it from a cancellable sleep. -/
theorem sched_cancel_cases {th : Kthread} {retval : Int} (h : QueuesOk k P) (hth : k.threads t = some th)
    (hs : sched_cancel (k.setThread t (some { th with kt_retval := retval })) t = some k') :
    CancelEffect k t retval k' := by
  simp only [sched_cancel, bind, Kernel.setThread_self, Option.bind_some, Option.bind_eq_some_iff] at hs
  obtain ⟨-, -, q, hq, hs⟩ := hs
  have e : (k.setThread t (some { th with kt_retval := retval })).setThread t
      (some { th with kt_retval := retval, kt_cancelled := true }) =
      k.setThread t (some { th with kt_retval := retval, kt_cancelled := true }) := by
    simp [Kernel.setThread]
  split at hs
  next hc =>
    simp only [Option.bind_eq_some_iff] at hs
    obtain ⟨k₁, ho, hr⟩ := hs
    exact .of_wake h hth hc.1 hq (e ▸ ho) hr
  next hc =>
    cases hs
    rw [e]
    refine .marked hth fun hst => hc ⟨hst, ?_⟩
    -- a thread on `kt_runq` is `KT_RUN`
    rintro rfl
    have := (h.fits hth).runq hq
    rw [hst] at this
    cases this

theorem cancel_keeps (h : QueuesOk k P) (hs : sched_cancel k t = some k') :
    Keeps k k' P (fun q => t ∈ k.tq_list q ∧ ∃ th, k.threads t = some th ∧ th.kt_state = .sleep_cancellable)
      (· = t) (some t) := by
  cases hth : k.threads t with
  | none => simp [sched_cancel, hth] at hs
  | some th =>
    have e : k.setThread t (some { th with kt_retval := th.kt_retval }) = k := by
      simp [Kernel.setThread, ← hth]
    have := (sched_cancel_cases h hth (by rw [e]; exact hs)).keeps h
    simpa only [hth] using this

/-- The clone joins the queue its original is on, which can only be `kt_runq`. -/
theorem clone_keeps (h : QueuesOk k P) (hc : kthread_clone k t c = some k') :
    Keeps k k' (fun u => P u ∨ u = c) (fun _ => False) (· = c) none := by
  simp only [kthread_clone, bind, Option.bind_eq_some_iff, KASSERT_eq_some] at hc
  obtain ⟨th, hth, -, hn, -, hrun, hc⟩ := hc
  have hout := h.absent hn
  have hr : Rehang k k' c th ∧ k'.curthr = k.curthr := by
    split at hc
    next hw =>
      cases hc
      refine ⟨⟨rfl, fun q => ?_, fun q => ?_⟩, rfl⟩
      · simp [Kernel.setThread, Kernel.setResume, hw, List.erase_of_not_mem (hout q)]
      · simp [Kernel.setThread, Kernel.setResume, hw, hout q]
    next q hw =>
      cases hc
      refine ⟨⟨rfl, fun q' => ?_, fun q' => ?_⟩, rfl⟩ <;>
        simp only [Kernel.setQueue, Kernel.setThread, Kernel.setResume, Function.update_apply, hw, Option.some.injEq]
      all_goals
        by_cases e : q' = q
        · subst e
          simp [hout q', List.erase_of_not_mem]
        · simp [e, Ne.symm e, hout q', List.erase_of_not_mem]
  have hf := h.fits hth
  refine hr.1.keeps h (h.rehang hr.1 ⟨hf.runq, hf.sleeper, hf.queued, fun _ => .inr (.inr (.inr rfl))⟩ fun u _ hu => ?_)
    (fun q hm => absurd hm (hout q)) (fun q hw => .inr ?_) (.inl rfl) (fun hne => absurd hn hne)
    fun _ u hu => hr.2 ▸ hu
  · rw [hr.2]
    exact hu.imp_right .inl
  · by_contra hq
    have := hf.sleeper q hw hq
    rw [hrun] at this
    simp at this

/-- An exiting thread is on no queue, and does not run any more; its parent may be woken. -/
theorem exit_keeps {retval : Int} (h : QueuesOk k P) (hcur : k.curthr = some cur)
    (hx : kthread_exit k cur retval = some k') : Keeps k k' P (fun q => ∃ p, q = .wait p) (· = cur) none := by
  simp only [kthread_exit, proc_cleanup, bind, Option.bind_eq_some_iff, KASSERT_eq_some, Option.some.injEq] at hx
  obtain ⟨th, hth, -, hw, _, ⟨ini, -, pr, -, -, -, k₂, h2, -, -, k₃, h3, pr', -, rfl⟩, rfl⟩ := hx
  have hout : ∀ q, cur ∉ k.tq_list q := fun q => h.not_mem hth (by rw [hw]; simp)
  have hr : Rehang k (k.setThread cur (some { th with kt_retval := retval, kt_state := .exited })) cur
      { th with kt_retval := retval, kt_state := .exited } :=
    ⟨rfl, fun q => by simp [Kernel.setThread, hw, List.erase_of_not_mem (hout q)],
      fun q => by simp [Kernel.setThread, hw, hout q]⟩
  have h1 : QueuesOk _ P := h.rehang hr (by constructor <;> simp [hw]) fun u _ hu => hu
  obtain ⟨r, hwake⟩ := wakeup_effect h1 h2
  have hkeep := hwake.keeps h1
  have hs := reparent_ends h3
  have hk₃ : QueuesOk k₃ P := hkeep.queues.congr hs.threads hs.tq_list hs.tq_size fun u hu => by rwa [hs.curthr]
  have hth₂ : k₂.threads cur = some { th with kt_retval := retval, kt_state := .exited } := by
    cases hwake with
    | empty => exact Kernel.setThread_self ..
    | @woke _ t' _ hl _ _ hre _ =>
      have hne : cur ≠ t' := by
        rintro rfl
        exact hout _ (List.mem_of_getLast? hl)
      rw [hre.threads, Function.update_of_ne hne]
      exact Kernel.setThread_self ..
  have hcur₂ : k₂.curthr = some cur := by
    cases hwake with
    | empty => exact hcur
    | woke _ _ _ _ hc => exact hc.trans hcur
  have hk₄ : QueuesOk (k₃.setCur none) P := dropCur hk₃ fun t tht ht htht hrun => by
    rw [hs.curthr, hcur₂] at ht
    cases ht
    rw [hs.threads, hth₂] at htht
    cases htht
    cases hrun
  have hall : Keeps _ _ P (fun q => ∃ p, q = .wait p) (· = cur) none := hkeep.mono (fun _ e => ⟨_, e⟩) fun _ => False.elim
  have hk₅ : QueuesOk ((k₃.setProc cur (some { pr' with p_state := .dead })).setCur none) P :=
    hk₄.congr rfl rfl rfl fun u hu => hu
  have hend := hall.before hk₅ hs.threads hs.tq_list (.inr rfl)
  have := hend.after (k := k) (t := cur) (fun u hu => by simp [Kernel.setThread, hu]) rfl (by simp)
    (by simp [cancelled, hth]) fun u hu => hu
  exact this.mono (fun _ e => e) fun u hu => hu.elim id id

/-! ## Every run -/

/-- The queues a call names. For `sched_cancel` it is the one the thread sleeps on, cancellably. -/
def touched (k : Kernel) : SchedCall → Queue → Prop
  | .sched_sleep_on q', q => q = q'
  | .sched_cancellable_sleep_on q', q => q = q'
  | .sched_wakeup_on q', q => q = q'
  | .sched_broadcast_on q', q => q = q'
  | .sched_cancel t, q => t ∈ k.tq_list q ∧ ∃ th, k.threads t = some th ∧ th.kt_state = .sleep_cancellable
  | .kthread_exit _, q => ∃ p, q = .wait p
  | .found, q => q = .runq
  | _, _ => False

/-- The threads a call names or is made by. -/
def subject (k : Kernel) : SchedCall → Nat → Prop
  | .sched_sleep_on _, u | .sched_cancellable_sleep_on _, u | .kthread_exit _, u => k.curthr = some u
  | .sched_cancel t, u | .sched_make_runnable t, u | .kthread_create t, u | .kthread_clone _ t, u => u = t
  | _, _ => False

def SchedCall.cancels : SchedCall → Option Nat
  | .sched_cancel t => some t
  | _ => none

/-- The threads that are pending after a call. -/
def SchedCall.pends (P : Nat → Prop) : SchedCall → Nat → Prop
  | .kthread_clone _ c => fun u => P u ∨ u = c
  | .sched_make_runnable t => fun u => P u ∧ u ≠ t
  | _ => P

theorem schedStep_keeps {e : SchedCall} {w : Unit} (h : QueuesOk k P) (he : Proper k e)
    (hs : schedStep k e = some (k', w)) : Keeps k k' (e.pends P) (touched k e) (subject k e) e.cancels := by
  cases e with
    simp only [schedStep, bind, Option.bind_eq_some_iff, KASSERT_eq_some, Option.some.injEq, Prod.mk.injEq,
      Prod.exists] at hs
  | sched_sleep_on q =>
    obtain ⟨cur, hcur, k₁, h1, rfl, -⟩ := hs
    exact (sleepOn_keeps h he (.inl rfl) hcur (sched_sleep_on_sleeps h1)).mono (fun _ e => e) fun _ e => e ▸ hcur
  | sched_cancellable_sleep_on q =>
    obtain ⟨cur, hcur, k₁, w', h1, rfl, -⟩ := hs
    obtain ⟨th, -, ⟨-, rfl, -⟩ | ⟨-, h2, -⟩⟩ := sched_cancellable_sleep_on_cases h1
    · exact .refl h
    · exact (sleepOn_keeps h he (.inr rfl) hcur h2).mono (fun _ e => e) fun _ e => e ▸ hcur
  | sched_wakeup_on q =>
    obtain ⟨k₁, h1, rfl, -⟩ := hs
    obtain ⟨r, hw⟩ := wakeup_effect h h1
    exact hw.keeps h
  | sched_broadcast_on q =>
    obtain ⟨-, hq, k₁, h1, rfl, -⟩ := hs
    exact sched_broadcast_on_keeps h hq h1
  | sched_cancel t =>
    obtain ⟨k₁, h1, rfl, -⟩ := hs
    exact cancel_keeps h h1
  | sched_make_runnable t =>
    obtain ⟨k₁, h1, rfl, -⟩ := hs
    exact make_runnable_keeps h h1
  | sched_switch =>
    obtain ⟨cur, hcur, rfl, -⟩ := hs
    exact (Keeps.refl h).before (dropCur h fun t th h1 h2 h3 => .inl (he t th h1 h2 h3)) rfl rfl (.inr rfl)
  | kthread_create p =>
    obtain ⟨k₁, h1, rfl, -⟩ := hs
    exact create_keeps h (.inl rfl) h1
  | kthread_clone t c =>
    obtain ⟨k₁, h1, rfl, -⟩ := hs
    exact clone_keeps h h1
  | kthread_exit retval =>
    obtain ⟨cur, hcur, k₁, h1, rfl, -⟩ := hs
    exact (exit_keeps h hcur h1).mono (fun _ e => e) fun _ e => e ▸ hcur
  | found =>
    obtain ⟨k₁, t, h1, rfl, -⟩ := hs
    exact found_keeps h h1

/-- Only `kthread_clone` and `sched_make_runnable` start and end a fork. -/
theorem pends_forking {tr : List (SchedCall × Unit)} {e : SchedCall} {u : Nat} (h : e.pends (Forking tr) u) :
    Forking (tr ++ [(e, ())]) u := by
  rw [forking_snoc]
  cases e with
  | kthread_clone t c =>
    rcases h with h | rfl
    · exact .inr ⟨h, by simp⟩
    · exact .inl ⟨t, rfl⟩
  | sched_make_runnable t => exact .inr ⟨h.1, by simpa using Ne.symm h.2⟩
  | _ => exact .inr ⟨h, by simp⟩

/-- After any sequence of calls the queues agree with the threads, and the next
call serves every queue in order. -/
theorem queues_ok {k₀ : Kernel} {tr : List (SchedCall × Unit)} (h0 : Started k₀) (h : Run schedStep Proper k₀ k tr) :
    QueuesOk k (Forking tr) ∧ ∀ e k', Proper k e → schedStep k e = some (k', ()) →
      ∀ q, ∃ c, (c = none ∨ c = e.cancels) ∧ InOrder (k.tq_list q) (k'.tq_list q) c := by
  have hq : QueuesOk k (Forking tr) :=
    h.inv_trace (fun k tr => QueuesOk k (Forking tr)) h0.queues fun _ _ _ _ _ hi he hst =>
      (schedStep_keeps hi he hst).queues.congr rfl rfl rfl fun _ hu => hu.imp_right pends_forking
  exact ⟨hq, fun e k' he hst => (schedStep_keeps hq he hst).order⟩

/-- Two threads sleep, and the first is cancelled while the second goes on. -/
def twoSleepers : List SchedCall :=
  [.kthread_clone 0 1, .sched_make_runnable 1, .kthread_clone 0 2, .sched_make_runnable 2,
    .sched_cancellable_sleep_on (.other 5), .found, .sched_sleep_on (.other 5), .found, .sched_cancel 0,
    .sched_make_runnable 2, .sched_switch, .found]

instance (k : Kernel) (e : SchedCall) : Decidable (Proper k e) :=
  match e with
  | .sched_sleep_on _ | .sched_cancellable_sleep_on _ => inferInstanceAs (Decidable (_ ≠ _))
  | .sched_switch =>
    match hc : k.curthr with
    | none => .isTrue fun t th h => by rw [hc] at h; cases h
    | some t =>
      match ht : k.threads t with
      | none => .isTrue fun t' th h h' => by rw [hc] at h; cases h; rw [ht] at h'; cases h'
      | some th => decidable_of_iff (th.kt_state = .run → th.kt_wchan = some .runq)
          ⟨fun h t' th' h1 h2 => by rw [hc] at h1; cases h1; rw [ht] at h2; cases h2; exact h, fun h => h t th hc ht⟩
  | .sched_wakeup_on _ | .sched_broadcast_on _ | .sched_cancel _ | .sched_make_runnable _ | .kthread_create _
  | .kthread_clone _ _ | .kthread_exit _ | .found => .isTrue trivial

/-- The queues of `twoSleepers` at its end. -/
theorem twoSleepers_ok : ∃ k tr, Run schedStep Proper Kernel.boot k tr ∧ k.tq_list .runq = [2] ∧
    k.tq_list (.other 5) = [1] ∧ QueuesOk k (Forking tr) := by
  have hex : (exec schedStep (fun k e => decide (Proper k e)) Kernel.boot twoSleepers).map
      (fun r => (r.1.tq_list .runq, r.1.tq_list (.other 5))) = some ([2], [1]) := by decide +kernel
  simp only [Option.map_eq_some_iff, Prod.mk.injEq, Prod.exists] at hex
  obtain ⟨k, tr, he, h1, h2⟩ := hex
  have hrun : Run schedStep Proper Kernel.boot k tr := Run.of_exec (fun _ _ => of_decide_eq_true) he
  exact ⟨k, tr, hrun, h1, h2, (queues_ok boot_started hrun).1⟩

/-- A thread that calls `sched_switch` while it runs is lost, and one that sleeps
on `kt_runq` is there without being `KT_RUN`. -/
theorem careless_calls :
    (∃ k tr, Run schedStep (fun _ _ => True) Kernel.boot k tr ∧ k.curthr = some 1 ∧ ¬ Forking tr 0 ∧
      (∃ th, k.threads 0 = some th ∧ th.kt_state = .run) ∧ 0 ∉ k.tq_list .runq) ∧
    ∃ k tr, Run schedStep (fun _ _ => True) Kernel.boot k tr ∧ 0 ∈ k.tq_list .runq ∧
      ∃ th, k.threads 0 = some th ∧ th.kt_state = .sleep := by
  constructor
  · have hex : (exec schedStep (fun _ _ => true) Kernel.boot
        [.kthread_clone 0 1, .sched_make_runnable 1, .sched_switch, .found]).map
          (fun r => (r.1.curthr, (r.1.threads 0).map (·.kt_state), r.1.tq_list .runq, r.2.map (·.1))) =
        some (some 1, some .run, [], [.kthread_clone 0 1, .sched_make_runnable 1, .sched_switch, .found]) := by
      decide +kernel
    simp only [Option.map_eq_some_iff, Prod.mk.injEq, Prod.exists] at hex
    obtain ⟨k, tr, he, h1, h2, h3, h4⟩ := hex
    refine ⟨k, tr, Run.of_exec (fun _ _ _ => trivial) he, h1, ?_, h2, by rw [h3]; simp⟩
    rintro ⟨pre, t, post, e, -⟩
    have hm : SchedCall.kthread_clone t 0 ∈ tr.map (·.1) := by rw [e]; simp
    rw [h4] at hm
    simp at hm
  · have hex : (exec schedStep (fun _ _ => true) Kernel.boot [.sched_sleep_on .runq]).map
        (fun r => (r.1.tq_list .runq, (r.1.threads 0).map (·.kt_state))) = some ([0], some .sleep) := by decide +kernel
    simp only [Option.map_eq_some_iff, Prod.mk.injEq, Prod.exists] at hex
    obtain ⟨k, tr, he, h1, h2⟩ := hex
    exact ⟨k, tr, Run.of_exec (fun _ _ _ => trivial) he, by rw [h1]; simp, h2⟩

end Weenix.Proc.VmSubmit
