import Weenix.Lib.Fifo
import Weenix.Proc.VmSched
/-!
# Turns on `kt_runq`

Only `sched_switch` takes a thread off `kt_runq`, the one that came first. So a
thread that is ready with `n` threads before it is the one that goes on after
the `n` next ones, whatever is slept on, woken, cancelled, cloned or ended in
between.
-/

namespace Weenix.Proc.VmSubmit
open Lib

variable {k k' : Kernel} {e : SchedCall} {t : Nat} {P : Nat → Prop}

/-- The calls in which a thread is chosen to run. -/
def SchedCall.dispatches : SchedCall → Bool
  | .found => true
  | _ => false

/-- A queue served in order that keeps all it had has only grown. -/
theorem order_grown {l l' : List Nat} {c : Option Nat} (h : InOrder l l' c) (hl : l.Nodup) (hin : ∀ u ∈ l, u ∈ l') :
    ∃ new, l' = new ++ l := by
  obtain ⟨new, stayed, served, rfl, rfl, hnew⟩ := h
  have hkept (u : Nat) (hu : u ∈ stayed ++ served) : u ∈ stayed ∧ some u ≠ c := by
    rcases List.mem_append.1 (hin u hu) with h | h
    · exact absurd hu (hnew u h)
    · simpa using h
  have hserved : served = [] := by
    refine List.eq_nil_iff_forall_not_mem.2 fun u hu => ?_
    exact (List.nodup_append.1 hl).2.2 u (hkept u (List.mem_append_right _ hu)).1 u hu rfl
  have hstayed : stayed.filter (fun u => decide (some u ≠ c)) = stayed :=
    List.filter_eq_self.2 fun u hu => decide_eq_true (hkept u (List.mem_append_left _ hu)).2
  exact ⟨new, by rw [hserved, hstayed, List.append_nil]⟩

/-- Apart from `found` no call takes a thread off `kt_runq`. -/
theorem runq_stays (h : QueuesOk k P) (he : Proper k e) (hs : schedStep k e = some (k', ())) (hd : e.dispatches = false) :
    ∀ u ∈ k.tq_list .runq, u ∈ k'.tq_list .runq := by
  have hkeep := schedStep_keeps h he hs
  by_cases ht : touched k e .runq
  · cases e with
    | sched_sleep_on q => exact absurd ht.symm he
    | sched_cancellable_sleep_on q => exact absurd ht.symm he
    | sched_wakeup_on q =>
      obtain rfl : .runq = q := ht
      simp only [schedStep, bind, Option.bind_eq_some_iff, Option.some.injEq, Prod.mk.injEq] at hs
      obtain ⟨k₁, h1, rfl, -⟩ := hs
      obtain ⟨r, hw⟩ := wakeup_effect h h1
      cases hw with
      | empty => exact fun u hu => hu
      | woke _ hne => exact absurd rfl hne
    | sched_broadcast_on q =>
      obtain rfl : .runq = q := ht
      simp only [schedStep, bind, Option.bind_eq_some_iff, KASSERT_eq_some] at hs
      obtain ⟨-, hnil, -⟩ := hs
      rw [hnil trivial]
      exact fun u hu => absurd hu List.not_mem_nil
    | sched_cancel t =>
      -- the threads of `kt_runq` are not asleep
      obtain ⟨hm, th, hth, hst⟩ := ht
      obtain ⟨th', hth', hrun⟩ := h.runq t hm
      rw [hth] at hth'
      cases hth'
      rw [hst] at hrun
      cases hrun
    | kthread_exit retval =>
      obtain ⟨p, hp⟩ := ht
      cases hp
    | found => cases hd
    | _ => exact ht.elim
  · exact hkeep.grows ht

/-- `sched_switch` takes the last of `kt_runq` and goes on in it. -/
theorem found_takes (h : QueuesOk k P) (hs : schedStep k .found = some (k', ())) :
    ∃ t, k.tq_list .runq = k'.tq_list .runq ++ [t] ∧ k'.curthr = some t := by
  simp only [schedStep, bind, Option.bind_eq_some_iff, Option.some.injEq, Prod.mk.injEq, Prod.exists] at hs
  obtain ⟨k₁, t, h1, rfl, -⟩ := hs
  obtain ⟨-, hl, hc, th, -, -, hr⟩ := switch_to_rehang h h1
  obtain ⟨init, e⟩ := List.getLast?_eq_some_iff.1 hl
  have hn := h.once .runq
  rw [e] at hn
  have hinit : t ∉ init := fun hm => (List.nodup_append.1 hn).2.2 t hm t (by simp) rfl
  refine ⟨t, ?_, hc⟩
  rw [hr.lists, e, List.erase_append_right _ hinit]
  simp

/-- It goes on when nothing runs and a thread is ready. -/
theorem found_of_ready (h : QueuesOk k P) (hc : k.curthr = none) (ht : t ∈ k.tq_list .runq) :
    ∃ k', schedStep k .found = some (k', ()) := by
  obtain ⟨u, hu⟩ : ∃ u, (k.tq_list .runq).getLast? = some u :=
    Option.isSome_iff_exists.1 (List.getLast?_isSome.2 (List.ne_nil_of_mem ht))
  obtain ⟨th, hth, -⟩ := h.runq u (List.mem_of_getLast? hu)
  simp [schedStep, sched_switch_to, ktqueue_dequeue, takeOff, KASSERT, hc, hu, hth]

theorem runq_turn (h : QueuesOk k P) (he : Proper k e) (hs : schedStep k e = some (k', ())) :
    InTurn e.dispatches (k.tq_list .runq) (k'.tq_list .runq) := by
  cases hd : e.dispatches with
  | false =>
    obtain ⟨c, -, ho⟩ := (schedStep_keeps h he hs).order .runq
    exact order_grown ho (h.once .runq) (runq_stays h he hs hd)
  | true =>
    obtain rfl : e = .found := by cases e <;> simp_all [SchedCall.dispatches]
    obtain ⟨t, hl, -⟩ := found_takes h hs
    exact ⟨[], by rw [hl]; simp⟩

/-- A thread on `kt_runq` with the threads `older` before it stays there until
they have been dispatched, and the next dispatch is its own. -/
theorem dispatched_in_turn {k₀ : Kernel} {tr tr' : List (SchedCall × Unit)} {newer older : List Nat} (h0 : Started k₀)
    (h : Run schedStep Proper k₀ k tr) (hq : k.tq_list .runq = newer ++ t :: older)
    (h' : Run schedStep Proper k k' tr') (hn : servings SchedCall.dispatches tr' ≤ older.length) :
    (∃ newer', k'.tq_list .runq = newer' ++ t :: older.take (older.length - servings SchedCall.dispatches tr')) ∧
      (servings SchedCall.dispatches tr' = older.length → k'.curthr = none →
        ∃ k'', schedStep k' .found = some (k'', ()) ∧ k''.curthr = some t) := by
  have hok : ∃ P, QueuesOk k P := ⟨_, (queues_ok h0 h).1⟩
  have hstep : ∀ k e k' w, (∃ P, QueuesOk k P) → Proper k e → schedStep k e = some (k', w) → ∃ P, QueuesOk k' P :=
    fun _ _ _ _ ⟨_, hi⟩ he hs => ⟨_, (schedStep_keeps hi he hs).queues⟩
  obtain ⟨newer', hq'⟩ := h'.turn (fun k => ∃ P, QueuesOk k P) (fun k => k.tq_list .runq) hok hstep
    (fun _ _ _ _ ⟨_, hi⟩ he hs => runq_turn hi he hs) hq hn
  refine ⟨⟨newer', hq'⟩, fun hall hidle => ?_⟩
  obtain ⟨P, hP⟩ := h'.inv (fun k => ∃ P, QueuesOk k P) hok hstep
  obtain ⟨k'', hs⟩ := found_of_ready (t := t) hP hidle (by rw [hq']; simp)
  obtain ⟨u, hl, hc⟩ := found_takes hP hs
  rw [hq', hall, Nat.sub_self, List.take_zero] at hl
  obtain ⟨-, hu⟩ := List.append_inj' hl rfl
  rw [← List.singleton_inj.1 hu] at hc
  exact ⟨k'', hs, hc⟩

/-- Thread 2 is ready behind thread 1, and goes on after it. -/
theorem dispatched_in_turn_two : ∃ k tr k' tr' k'', Run schedStep Proper Kernel.boot k tr ∧ k.tq_list .runq = [2, 1] ∧
    Run schedStep Proper k k' tr' ∧ schedStep k' .found = some (k'', ()) ∧ k''.curthr = some 2 := by
  have hex : ((exec schedStep (fun k e => decide (Proper k e)) Kernel.boot
      [.kthread_clone 0 1, .sched_make_runnable 1, .kthread_clone 0 2, .sched_make_runnable 2]).bind fun r =>
        (exec schedStep (fun k e => decide (Proper k e)) r.1
          [.sched_sleep_on (.other 5), .found, .sched_sleep_on (.other 5)]).map fun r' =>
            (r.1.tq_list .runq, r'.1.curthr, servings SchedCall.dispatches r'.2)) = some ([2, 1], none, 1) := by
    decide +kernel
  simp only [Option.bind_eq_some_iff, Option.map_eq_some_iff, Prod.mk.injEq, Prod.exists] at hex
  obtain ⟨k, tr, he, k', tr', he', hq, hc, hn⟩ := hex
  have h : Run schedStep Proper Kernel.boot k tr := Run.of_exec (fun _ _ => of_decide_eq_true) he
  have h' : Run schedStep Proper k k' tr' := Run.of_exec (fun _ _ => of_decide_eq_true) he'
  have hq' : k.tq_list .runq = [] ++ 2 :: [1] := hq
  obtain ⟨-, hnext⟩ := dispatched_in_turn boot_started h hq' h' hn.le
  obtain ⟨k'', hs, hcur⟩ := hnext hn hc
  exact ⟨k, tr, k', tr', k'', h, hq, h', hs, hcur⟩

end Weenix.Proc.VmSubmit
