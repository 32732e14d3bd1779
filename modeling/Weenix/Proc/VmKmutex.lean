import Weenix.Proc.Kmutex
import Weenix.Proc.VmSched
/-!
# The mutex of vm-submit (`proc/kmutex.c`)

Any number of threads lock and unlock one mutex, are cancelled, and make other
calls of the scheduler in between.
-/

namespace Weenix.Proc.VmSubmit
open Lib

def kmutex_lock (m : Nat) (s : Kmutex) : Option (Kmutex × LockOutcome) := do
  let cur ← s.k.curthr
  KASSERT (s.km_holder ≠ some cur)
  if s.km_holder ≠ none then do
    let k ← sched_sleep_on s.k cur (km_waitq m) .elsewhere
    some ((s.setKernel k).goes cur (.locking false), .blocked cur)
  else some (s.acquire cur false)

def kmutex_lock_cancellable (m : Nat) (s : Kmutex) : Option (Kmutex × LockOutcome) := do
  let cur ← s.k.curthr
  KASSERT (s.km_holder ≠ some cur)
  if s.km_holder ≠ none then do
    match ← sched_cancellable_sleep_on s.k cur (km_waitq m) with
    | (k, .error e) => some (s.setKernel k, .result cur (some e))
    | (k, _) => some ((s.setKernel k).goes cur (.locking true), .blocked cur)
  else some (s.acquire cur true)

def kmutex_unlock (m : Nat) (s : Kmutex) : Option (Kmutex × LockOutcome) := do
  let cur ← s.k.curthr
  KASSERT (s.km_holder = some cur)
  let s := (s.give none).goes cur .outside
  if s.k.tq_list (km_waitq m) ≠ [] then do
    let k ← sched_wakeup_on s.k (km_waitq m)
    some ((s.setKernel k).give (woken s.k (km_waitq m)), .of (woken s.k (km_waitq m)))
  else some (s, .done)

/-- `sched_cancellable_sleep_on` returns 0 after `sched_switch`. -/
def err : Kernel → Nat → Option Errno := fun _ _ => none

def lockStep (m : Nat) (s : Kmutex) : LockEvent SchedCall → Option (Kmutex × LockOutcome)
  | .kmutex_lock => kmutex_lock m s
  | .kmutex_lock_cancellable => kmutex_lock_cancellable m s
  | .kmutex_unlock => kmutex_unlock m s
  | .kthread_cancel t retval => do
    let cur ← s.k.curthr
    let (k, _) ← kthread_cancel s.k cur t retval
    some (s.setKernel k, .done)
  | .found => goOn err s
  | .call c => do
    let (k, _) ← schedStep s.k c
    some (s.setKernel k, .done)

/-- Only `kmutex.c` uses `km_waitq`, and other calls are not about `kt_runq`. -/
def Aside (m : Nat) (s : Kmutex) : LockEvent SchedCall → Prop
  | .call c => Proper s.k c ∧ ∀ q, touched s.k c q → q ≠ km_waitq m ∧ q ≠ .runq
  | _ => True

/-- No thread is cancelled that sleeps cancellably on `km_waitq`. -/
def Careful (m : Nat) (s : Kmutex) (e : LockEvent SchedCall) : Prop :=
  Aside m s e ∧ ∀ t retval, e = .kthread_cancel t retval → ¬ touched s.k (.sched_cancel t) (km_waitq m)

variable {m : Nat} {s s' : Kmutex} {k' : Kernel} {t : Nat} {b : Bool} {w : LockOutcome}
  {e : LockEvent SchedCall}

/-! ## Whose turn it is -/

/-- A thread in a lock call is in the queue, or is the holder and about to run. -/
structure Turn (m : Nat) (s : Kmutex) : Prop where
  waits : Waits m s
  turn : ∀ t b, s.place t = .locking b →
    t ∈ s.k.tq_list (km_waitq m) ∨ (s.km_holder = some t ∧ t ∈ s.k.tq_list .runq)
  owner : ∀ t, s.place t = .holding → s.km_holder = some t

theorem Turn.acquire (h : Turn m s) (hc : s.k.curthr = some t) (hn : s.km_holder = none) (b : Bool) :
    Turn m (s.acquire t b).1 := by
  refine ⟨h.waits.acquire hc hn b, fun u b hu => ?_, fun u hu => ?_⟩
  · rcases Kmutex.goes_place hu with ⟨-, hu⟩ | ⟨-, hu⟩
    · cases hu
    · refine (h.turn u b hu).imp_right fun ⟨h1, _⟩ => ?_
      rw [hn] at h1
      cases h1
  · by_cases e : u = t
    · rw [e]
      rfl
    · have := h.owner u (by simpa [Kmutex.acquire, Kmutex.goes, Kmutex.give, e] using hu)
      rw [hn] at this
      cases this

theorem Turn.block {st : ThreadState} (h : Turn m s) (hc : s.k.curthr = some t) (hn : s.km_holder ≠ none)
    (ht : s.km_holder ≠ some t) (hst : st = .sleep ∨ st = .sleep_cancellable)
    (hs : sleepOn s.k t (km_waitq m) st .elsewhere = some k') (b : Bool) :
    Turn m ((s.setKernel k').goes t (.locking b)) := by
  obtain ⟨hw, hl⟩ := h.waits.block hc hn ht hst hs b
  have hk := sleepOn_keeps h.waits.queues km_waitq_ne hst hc hs
  refine ⟨hw, fun u b' hu => ?_, fun u hu => ?_⟩
  · change u ∈ k'.tq_list (km_waitq m) ∨ (s.km_holder = some u ∧ u ∈ k'.tq_list .runq)
    rw [hl]
    rcases Kmutex.goes_place hu with ⟨rfl, -⟩ | ⟨-, hu⟩
    · exact .inl (by simp)
    · exact (h.turn u b' hu).imp (fun hm => by simp [hm]) fun ⟨h1, h2⟩ =>
        ⟨h1, hk.grows (fun e => km_waitq_ne e.symm) u h2⟩
  · by_cases e : u = t
    · subst e
      simp [Kmutex.goes] at hu
    · exact h.owner u (by simpa [Kmutex.goes, Kmutex.setKernel, e] using hu)

theorem Turn.pass {r : Option Nat} (h : Turn m s) (hc : s.k.curthr = some t) (hh : s.km_holder = some t)
    (hw : WakeupEffect s.k (km_waitq m) k' r) : Turn m (((s.setKernel k').give r).goes t .outside) := by
  refine ⟨h.waits.pass hc hw, fun u b hu => ?_, fun u hu => ?_⟩
  · rcases Kmutex.goes_place hu with ⟨-, hu⟩ | ⟨hne, hu⟩
    · cases hu
    · change u ∈ k'.tq_list (km_waitq m) ∨ (r = some u ∧ u ∈ k'.tq_list .runq)
      rcases h.turn u b hu with hm | ⟨h1, -⟩
      · cases hw with
        | empty e => exact .inl hm
        | @woke _ v _ hl hq _ hr _ =>
          by_cases e : u = v
          · refine .inr ⟨by rw [e], ?_⟩
            rw [hr.lists, if_pos rfl, e]
            simp
          · refine .inl ?_
            rw [hr.lists, if_neg (by simpa using Ne.symm hq), List.nil_append, (h.waits.queues.once _).mem_erase_iff]
            exact ⟨e, hm⟩
      · rw [hh] at h1
        exact absurd (Option.some.inj h1).symm hne
  · by_cases e : u = t
    · subst e
      simp [Kmutex.goes] at hu
    · have := h.owner u (by simpa [Kmutex.goes, Kmutex.setKernel, Kmutex.give, e] using hu)
      rw [hh] at this
      exact absurd (Option.some.inj this).symm e

theorem Turn.aside {touch : Queue → Prop} {subj : Nat → Prop} {who : Option Nat} {P : Nat → Prop} (h : Turn m s)
    (hk : Keeps s.k k' P touch subj who) (ht : ∀ q, touch q → q ≠ km_waitq m ∧ q ≠ .runq) :
    Turn m (s.setKernel k') := by
  refine ⟨h.waits.aside hk ht, fun t b hu => ?_, h.owner⟩
  refine (h.turn t b hu).imp (fun hm => ?_) fun ⟨h1, h2⟩ => ⟨h1, hk.grows (fun hq => (ht _ hq).2 rfl) t h2⟩
  change t ∈ k'.tq_list (km_waitq m)
  rw [hk.frame _ (fun hq => (ht _ hq).1 rfl) km_waitq_ne]
  exact hm

/-- A thread that waited goes on as the holder. -/
theorem Turn.resume (h : Turn m s) (hs : sched_switch_to s.k = some (k', t)) :
    (∀ b, s.place t = .locking b → s.km_holder = some t) ∧
      ∀ p, (∀ b, p ≠ .locking b) → (p = .holding → s.km_holder = some t) → Turn m ((s.setKernel k').goes t p) := by
  obtain ⟨-, hl, -, th, -, -, hr⟩ := switch_to_rehang h.waits.queues hs
  have hn : t ∉ s.k.tq_list (km_waitq m) := fun hm =>
    km_waitq_ne (h.waits.queues.one _ _ t hm (List.mem_of_getLast? hl))
  refine ⟨fun b hb => ((h.turn t b hb).resolve_left hn).1, fun p hp hph => ?_⟩
  obtain ⟨hw, e⟩ := h.waits.resume hs hp
  refine ⟨hw, fun u b hu => ?_, fun u hu => ?_⟩
  · rcases Kmutex.goes_place hu with ⟨-, hu⟩ | ⟨hne, hu⟩
    · exact absurd hu (hp b)
    · change u ∈ k'.tq_list (km_waitq m) ∨ (s.km_holder = some u ∧ u ∈ k'.tq_list .runq)
      rw [e]
      refine (h.turn u b hu).imp_right fun ⟨h1, h2⟩ => ⟨h1, ?_⟩
      rw [hr.lists, if_neg (by simp), List.nil_append, (h.waits.queues.once _).mem_erase_iff]
      exact ⟨hne, h2⟩
  · change s.km_holder = some u
    by_cases e : u = t
    · subst e
      exact hph (by simpa [Kmutex.goes] using hu)
    · exact h.owner u (by simpa [Kmutex.goes, Kmutex.setKernel, e] using hu)

/-! ## Every step -/

/-- A call that uses other queues. -/
def Elsewhere (m : Nat) (s : Kmutex) (k' : Kernel) : Prop :=
  ∃ P touch subj who, Keeps s.k k' P touch subj who ∧ ∀ q, touch q → q ≠ km_waitq m ∧ q ≠ .runq

theorem kmutex_lock_effect (he : e ≠ .found) (h : kmutex_lock m s = some (s', w)) : LockEffect m err (Elsewhere m) s e s' w := by
  simp only [kmutex_lock, bind, Option.bind_eq_some_iff, KASSERT_eq_some] at h
  obtain ⟨cur, hc, -, hne, h⟩ := h
  split at h
  next hn =>
    simp only [Option.bind_eq_some_iff, Option.some.injEq, Prod.mk.injEq] at h
    obtain ⟨k₁, hs, rfl, rfl⟩ := h
    exact .block false hc hn hne (by simp) (sched_sleep_on_sleeps hs)
  next hn =>
    cases h
    exact .acquire false he hc (not_not.1 hn)

theorem kmutex_lock_cancellable_effect (he : e ≠ .found) (h : kmutex_lock_cancellable m s = some (s', w)) : LockEffect m err (Elsewhere m) s e s' w := by
  simp only [kmutex_lock_cancellable, bind, Option.bind_eq_some_iff, KASSERT_eq_some] at h
  obtain ⟨cur, hc, -, hne, h⟩ := h
  split at h
  next hn =>
    simp only [Option.bind_eq_some_iff, Prod.exists] at h
    obtain ⟨k₁, w₁, h1, h⟩ := h
    obtain ⟨thr, hthr, ⟨-, rfl, rfl⟩ | ⟨hf, hs, rfl⟩⟩ := sched_cancellable_sleep_on_cases h1
    · cases h
      exact .refuse hc hne
    · cases h
      exact .block true hc hn hne (fun _ => by simp [cancelled, hthr, hf]) hs
  next hn =>
    cases h
    exact .acquire true he hc (not_not.1 hn)

theorem kmutex_unlock_effect (hk : Waits m s) (h : kmutex_unlock m s = some (s', w)) : LockEffect m err (Elsewhere m) s e s' w := by
  simp only [kmutex_unlock, bind, Option.bind_eq_some_iff, KASSERT_eq_some] at h
  obtain ⟨cur, hc, -, hh, h⟩ := h
  split at h
  next =>
    simp only [Option.bind_eq_some_iff, Option.some.injEq, Prod.mk.injEq] at h
    obtain ⟨k₁, hw, rfl, rfl⟩ := h
    obtain ⟨r, he⟩ := wakeup_effect hk.queues hw
    have hr : woken s.k (km_waitq m) = r := he.returns
    exact hr ▸ .pass hc hh he
  next hn =>
    cases h
    exact .pass hc hh (.empty (not_not.1 hn))

theorem kthread_cancel_keeps {cur t : Nat} {retval : Int} {k : Kernel} {x : Bool} {P : Nat → Prop} (h : QueuesOk k P)
    (hc : k.curthr = some cur) (hs : kthread_cancel k cur t retval = some (k', x)) :
    ∃ subj who, Keeps k k' P (fun q => (∃ p, q = .wait p) ∨ touched k (.sched_cancel t) q) subj who := by
  obtain ⟨-, h1, -⟩ | ⟨-, kthr, hth, h1, -⟩ := kthread_cancel_cases hs
  · exact ⟨_, _, (exit_keeps h hc h1).mono (fun _ e => .inl e) fun _ e => e⟩
  · exact ⟨_, _, ((sched_cancel_cases h hth h1).keeps h).mono (fun _ e => .inr e) fun _ e => e⟩

theorem lockStep_effect (hk : Waits m s) (he : Careful m s e)
    (h : lockStep m s e = some (s', w)) : LockEffect m err (Elsewhere m) s e s' w := by
  cases e with
  | kmutex_lock => exact kmutex_lock_effect (by simp) h
  | kmutex_lock_cancellable => exact kmutex_lock_cancellable_effect (by simp) h
  | kmutex_unlock => exact kmutex_unlock_effect hk h
  | kthread_cancel t retval =>
    simp only [lockStep, bind, Option.bind_eq_some_iff, Option.some.injEq, Prod.mk.injEq, Prod.exists] at h
    obtain ⟨cur, hc, k₁, _, h1, rfl, rfl⟩ := h
    obtain ⟨subj, who, hkeep⟩ := kthread_cancel_keeps hk.queues hc h1
    refine .aside ⟨_, _, _, _, hkeep, fun q hq => ?_⟩
    rcases hq with ⟨p, rfl⟩ | hq
    · simp [km_waitq]
    · refine ⟨?_, ?_⟩
      · rintro rfl
        exact he.2 t retval rfl hq
      · rintro rfl
        obtain ⟨hm, th, h2, h3⟩ := hq
        obtain ⟨th', h4, h5⟩ := hk.queues.runq t hm
        rw [h2] at h4
        cases h4
        rw [h3] at h5
        cases h5
  | found =>
    simp only [lockStep, goOn, bind, Option.bind_eq_some_iff, Option.some.injEq, Prod.mk.injEq, Prod.exists] at h
    obtain ⟨k₁, t, h1, rfl, rfl⟩ := h
    exact .resume h1
  | call c =>
    simp only [lockStep, bind, Option.bind_eq_some_iff, Option.some.injEq, Prod.mk.injEq, Prod.exists] at h
    obtain ⟨k₁, _, h1, rfl, rfl⟩ := h
    exact .aside ⟨_, _, _, _, schedStep_keeps hk.queues he.1.1 h1, he.1.2⟩

/-- When a sleeper returns as if it had the mutex, it has it. -/
theorem comeBack_holds (h : Turn m s) (hs : sched_switch_to s.k = some (k', t)) :
    (∀ b, (s.comeBack t none).1 ≠ .locking b) ∧ ((s.comeBack t none).1 = .holding → s.km_holder = some t) := by
  have hturn := (h.resume hs).1
  unfold Kmutex.comeBack
  split
  next e => exact ⟨by simp, fun _ => hturn _ e⟩
  next e => exact ⟨by simp, fun _ => hturn _ e⟩
  next p h1 h2 =>
    refine ⟨fun b => ?_, h.owner t⟩
    cases b
    · exact h1
    · exact h2

theorem effect_turn (hk : Turn m s) (h : LockEffect m err (Elsewhere m) s e s' w) : Turn m s' := by
  cases h with
  | acquire b _ hc hn => exact hk.acquire hc hn b
  | block b hc hn ht _ hs => exact hk.block hc hn ht (by cases b <;> simp) hs b
  | refuse => exact hk
  | pass hc hh hw => exact hk.pass hc hh hw
  | aside ho =>
    obtain ⟨P, touch, subj, who, hkeep, ht⟩ := ho
    exact hk.aside hkeep ht
  | resume hs =>
    obtain ⟨h1, h2⟩ := comeBack_holds hk hs
    exact (hk.resume hs).2 _ h1 h2

/-! ## The order of service -/

theorem owed_nil (h : ∀ t b, s.km_holder = some t → s.place t ≠ .locking b) : s.owed = [] := by
  unfold Kmutex.owed
  rw [List.filter_eq_nil_iff]
  intro t ht
  have hn := fun b => h t b (Option.mem_toList.1 ht)
  split
  next b e => exact absurd e (hn b)
  next => simp

theorem owed_holder (hh : s.km_holder = some t) (hp : s.place t = .locking b) : s.owed = [t] := by
  simp [Kmutex.owed, hh, hp]

/-- It depends only on the holder and its place. -/
theorem owed_congr (h1 : s'.km_holder = s.km_holder) (h2 : ∀ t, s.km_holder = some t → s'.place t = s.place t) :
    s'.owed = s.owed := by
  unfold Kmutex.owed
  rw [h1]
  exact List.filter_congr fun t ht => by rw [h2 t (Option.mem_toList.1 ht)]

/-- What a step adds to the lists of those that wait and those that are served. -/
theorem effect_order (hk : Turn m s) (h : LockEffect m err (Elsewhere m) s e s' w) :
    (s.k.tq_list (km_waitq m)).reverse ++ blocked [(e, w)] = given [(e, w)] ++ (s'.k.tq_list (km_waitq m)).reverse ∧
      s.owed ++ given [(e, w)] = served [(e, w)] ++ s'.owed := by
  cases h with
  | @acquire _ t b he hc hn =>
    have e1 : s.owed = [] := owed_nil fun u b hu => by rw [hn] at hu; cases hu
    have e2 : (s.acquire t b).1.owed = [] := owed_nil fun u b' hu => by
      cases hu
      simp [Kmutex.acquire, Kmutex.goes]
    rw [e1, e2]
    cases b <;> simp [Kmutex.acquire, Kmutex.goes, Kmutex.give, blocked, given, served, he]
  | @block _ t k' b hc hn ht _ hs =>
    have hl := (hk.waits.block hc hn ht (by cases b <;> simp) hs b).2
    refine ⟨by simp [blocked, given, hl], ?_⟩
    have e : ((s.setKernel k').goes t (.locking b)).owed = s.owed := by
      refine owed_congr (by rfl) fun u hu => ?_
      have : u ≠ t := fun e => ht (e ▸ hu)
      simp [Kmutex.goes, Kmutex.setKernel, this]
    rw [e]
    simp [given, served]
  | refuse => simp [blocked, given, served]
  | @pass _ t r k' hc hh hw =>
    have e1 : s.owed = [] := owed_nil fun u b hu => by
      rw [hh] at hu
      cases hu
      exact hk.waits.cur t b hc
    rw [e1]
    cases hw with
    | empty e =>
      rw [owed_nil (fun u b hu => by cases hu)]
      simp [blocked, given, served, LockOutcome.of]
    | @woke _ u th hl hq hth hr hc' =>
      obtain ⟨init, hi⟩ := List.getLast?_eq_some_iff.1 hl
      have hn := hk.waits.queues.once (km_waitq m)
      obtain ⟨b, hb⟩ := hk.waits.waiting u (List.mem_of_getLast? hl)
      have hut : u ≠ t := fun e => hk.waits.cur t b hc (e ▸ hb)
      have hinit : u ∉ init := fun hu => by
        rw [hi] at hn
        exact (List.nodup_append.1 hn).2.2 u hu u (by simp) rfl
      have hl' : k'.tq_list (km_waitq m) = init := by
        rw [hr.lists, if_neg (by simpa using Ne.symm hq), hi, List.nil_append, List.erase_append_right _ hinit]
        simp
      rw [owed_holder (t := u) (b := b) rfl (by simpa [Kmutex.goes, Kmutex.setKernel, Kmutex.give, hut] using hb)]
      simp [blocked, given, served, LockOutcome.of, hl', hi]
  | @aside _ k' ho =>
    obtain ⟨P, touch, subj, who, hkeep, ht⟩ := ho
    have el : k'.tq_list (km_waitq m) = s.k.tq_list (km_waitq m) :=
      hkeep.frame _ (fun hq => (ht _ hq).1 rfl) km_waitq_ne
    have e : (s.setKernel k').owed = s.owed := owed_congr (by rfl) fun _ _ => rfl
    rw [e]
    simp [blocked, given, served, el]
  | @resume t k' hs =>
    obtain ⟨h1, h2⟩ := comeBack_holds hk hs
    have el : k'.tq_list (km_waitq m) = s.k.tq_list (km_waitq m) := (hk.waits.resume hs h1).2
    have hturn := (hk.resume hs).1
    by_cases hp : ∃ b, s.place t = .locking b
    · obtain ⟨b, hb⟩ := hp
      have e2 : ((s.setKernel k').goes t .holding).owed = [] := owed_nil fun u b' hu => by
        change s.km_holder = some u at hu
        rw [hturn b hb] at hu
        cases hu
        simp [Kmutex.goes]
      rw [owed_holder (hturn b hb) hb]
      cases b <;> simp [Kmutex.comeBack, hb, err, e2, blocked, given, served, el]
    · have hc : s.comeBack t none = (s.place t, .done) := by
        unfold Kmutex.comeBack
        split
        next e => exact absurd ⟨_, e⟩ hp
        next e => exact absurd ⟨_, e⟩ hp
        next => rfl
      have e2 : ((s.setKernel k').goes t (s.place t)).owed = s.owed :=
        owed_congr rfl fun u _ => by simp [Kmutex.goes, Kmutex.setKernel]
      simp only [err, hc, e2]
      simp [blocked, given, served, el]

/-- The order of service over a whole run. -/
structure Fair (m : Nat) (s : Kmutex) (tr : List (LockEvent SchedCall × LockOutcome)) : Prop where
  turn : Turn m s
  waited : blocked tr = given tr ++ (s.k.tq_list (km_waitq m)).reverse
  came : given tr = served tr ++ s.owed

theorem Fair.start {k₀ : Kernel} (h : Started k₀) : Fair m (.init k₀) [] := by
  refine ⟨⟨.init h.queues (h.lists _), fun t b ht => (by cases ht), fun t ht => (by cases ht)⟩, ?_, rfl⟩
  rw [Kmutex.init, h.lists]
  rfl

theorem Fair.step {tr : List (LockEvent SchedCall × LockOutcome)} (h : Fair m s tr) (hc : Careful m s e)
    (hs : lockStep m s e = some (s', w)) : Fair m s' (tr ++ [(e, w)]) := by
  have he := lockStep_effect h.turn.waits hc hs
  obtain ⟨h1, h2⟩ := effect_order h.turn he
  refine ⟨effect_turn h.turn he, ?_, ?_⟩
  · rw [blocked, List.filterMap_append, given, List.filterMap_append]
    change blocked tr ++ blocked [(e, w)] = given tr ++ given [(e, w)] ++ _
    rw [h.waited, List.append_assoc, List.append_assoc, h1]
  · rw [given, List.filterMap_append, served, List.filterMap_append]
    change given tr ++ given [(e, w)] = served tr ++ served [(e, w)] ++ _
    rw [h.came, List.append_assoc, List.append_assoc, h2]

theorem fair {k₀ : Kernel} {tr : List (LockEvent SchedCall × LockOutcome)} (h0 : Started k₀)
    (h : Run (lockStep m) (Careful m) (.init k₀) s tr) : Fair m s tr :=
  h.inv_trace (Fair m) (.start h0) fun _ _ _ _ _ hi hc hs => hi.step hc hs

/-! ## The results -/

/-- At most one thread has the mutex, and it is `km_holder`; nobody waits for a
free mutex; a thread in a lock call is in the queue, once, or has been given the
mutex and is about to run; and the threads that wait get it, and return with it,
in the order in which they started to wait. -/
theorem mutual_exclusion {k₀ : Kernel} {tr : List (LockEvent SchedCall × LockOutcome)} (h0 : Started k₀)
    (h : Run (lockStep m) (Careful m) (.init k₀) s tr) :
    (∀ t u, s.place t = .holding → s.place u = .holding → t = u) ∧
      (∀ t, s.place t = .holding → s.km_holder = some t) ∧
      (s.km_holder = none → s.k.tq_list (km_waitq m) = []) ∧
      (∀ t b, s.place t = .locking b →
        t ∈ s.k.tq_list (km_waitq m) ∨ (s.km_holder = some t ∧ t ∈ s.k.tq_list .runq)) ∧
      (∀ q, (s.k.tq_list q).Nodup) ∧
      blocked tr = given tr ++ (s.k.tq_list (km_waitq m)).reverse ∧ given tr = served tr ++ s.owed := by
  have hf := fair h0 h
  refine ⟨fun t u ht hu => ?_, hf.turn.owner, hf.turn.waits.free, hf.turn.turn, hf.turn.waits.queues.once, hf.waited,
    hf.came⟩
  have := (hf.turn.owner t ht).symm.trans (hf.turn.owner u hu)
  exact Option.some.inj this

/-- Thread 0 locks, thread 1 waits in `kmutex_lock_cancellable`, thread 0 unlocks. -/
def handOff : List (LockEvent SchedCall) :=
  [.call (.kthread_clone 0 1), .call (.sched_make_runnable 1), .kmutex_lock, .call (.sched_make_runnable 0),
    .call .sched_switch, .found, .kmutex_lock_cancellable, .found, .kmutex_unlock, .call (.sched_make_runnable 0),
    .call .sched_switch]

/-- The calls of `handOff` that `Aside` allows. -/
def allowed (s : Kmutex) : LockEvent SchedCall → Bool
  | .call (.kthread_clone _ _) | .call (.sched_make_runnable _) => true
  | .call .sched_switch => decide (Proper s.k .sched_switch)
  | .call _ => false
  | _ => true

theorem aside_of_allowed (h : allowed s e = true) : Aside m s e := by
  cases e with
  | call c =>
    cases c with
    | kthread_clone | sched_make_runnable => exact ⟨trivial, fun q hq => False.elim hq⟩
    | sched_switch => exact ⟨of_decide_eq_true h, fun q hq => False.elim hq⟩
    | _ => cases h
  | _ => trivial

def allowedCareful (s : Kmutex) (e : LockEvent SchedCall) : Bool :=
  allowed s e && match e with
    | .kthread_cancel _ _ => false
    | _ => true

theorem careful_of_allowed (h : allowedCareful s e = true) : Careful m s e := by
  simp only [allowedCareful, Bool.and_eq_true] at h
  refine ⟨aside_of_allowed h.1, ?_⟩
  rintro t retval rfl
  cases h.2

theorem handOff_run : ∃ s tr, Run (lockStep 7) (Careful 7) (.init Kernel.boot) s tr ∧ s.km_holder = some 1 ∧
    blocked tr = [1] ∧ (lockStep 7 s .found).map (·.2) = some (.result 1 none) := by
  have hex : (exec (lockStep 7) allowedCareful (.init Kernel.boot) handOff).map
      (fun r => (r.1.km_holder, blocked r.2, (lockStep 7 r.1 .found).map (·.2))) =
      some (some 1, [1], some (.result 1 none)) := by decide +kernel
  simp only [Option.map_eq_some_iff, Prod.mk.injEq, Prod.exists] at hex
  obtain ⟨s, tr, he, h1, h2, h3⟩ := hex
  exact ⟨s, tr, Run.of_exec (fun _ _ => careful_of_allowed) he, h1, h2, by simpa using h3⟩

theorem handOff_exclusive : ∃ s tr, Run (lockStep 7) (Careful 7) (.init Kernel.boot) s tr ∧ blocked tr = [1] ∧
    given tr ++ (s.k.tq_list (km_waitq 7)).reverse = [1] := by
  obtain ⟨s, tr, hr, -, hb, -⟩ := handOff_run
  exact ⟨s, tr, hr, hb, hb ▸ (mutual_exclusion boot_started hr).2.2.2.2.2.1.symm⟩

/-- A caller of `kmutex_lock_cancellable` that is told 0 has the mutex, as long as
no thread is cancelled that sleeps cancellably on the wait queue. -/
theorem lock_cancellable_owns {k₀ : Kernel} {tr : List (LockEvent SchedCall × LockOutcome)} (h0 : Started k₀)
    (h : Run (lockStep m) (Careful m) (.init k₀) s tr) (hc : Careful m s e)
    (hs : lockStep m s e = some (s', .result t none)) : s'.km_holder = some t := by
  have hk := (fair h0 h).turn
  have he := lockStep_effect hk.waits hc hs
  generalize hw : LockOutcome.result t none = w at he
  cases he with
  | @acquire _ u b _ _ _ =>
    cases b with
    | false => cases hw
    | true => cases hw; rfl
  | block => cases hw
  | refuse => cases hw
  | @pass _ _ r => cases r <;> cases hw
  | aside => cases hw
  | @resume u k' hsw =>
    have hturn := (hk.resume hsw).1
    change s.km_holder = some t
    unfold Kmutex.comeBack at hw
    split at hw
    next => cases hw
    next e => cases hw; exact hturn _ e
    next => cases hw

theorem handOff_owns : ∃ s s' tr, Run (lockStep 7) (Careful 7) (.init Kernel.boot) s tr ∧
    lockStep 7 s .found = some (s', .result 1 none) ∧ s'.km_holder = some 1 := by
  obtain ⟨s, tr, hr, -, -, hf⟩ := handOff_run
  simp only [Option.map_eq_some_iff, Prod.exists] at hf
  obtain ⟨s', _, hs, rfl⟩ := hf
  have hc : Careful 7 s .found := ⟨trivial, by simp⟩
  exact ⟨s, s', tr, hr, hs, lock_cancellable_owns boot_started hr hc hs⟩

/-- Thread 1 waits in `kmutex_lock_cancellable` and is cancelled: it is told 0,
while thread 0 has the mutex. -/
theorem cancelled_waiter : ∃ s s' tr, Run (lockStep 7) (Aside 7) (.init Kernel.boot) s tr ∧
    lockStep 7 s .found = some (s', .result 1 none) ∧ s'.km_holder = some 0 := by
  have hex : (exec (lockStep 7) allowed (.init Kernel.boot)
      [.call (.kthread_clone 0 1), .call (.sched_make_runnable 1), .kmutex_lock, .call (.sched_make_runnable 0),
        .call .sched_switch, .found, .kmutex_lock_cancellable, .found, .kthread_cancel 1 5,
        .call (.sched_make_runnable 0), .call .sched_switch]).map
      (fun r => (lockStep 7 r.1 .found).map fun x => (x.1.km_holder, x.2)) =
      some (some (some 0, .result 1 none)) := by decide +kernel
  simp only [Option.map_eq_some_iff, Prod.exists, Prod.mk.injEq] at hex
  obtain ⟨s, tr, he, s', w, hs, h1, rfl⟩ := hex
  exact ⟨s, s', tr, Run.of_exec (fun _ _ => aside_of_allowed) he, hs, h1⟩

end Weenix.Proc.VmSubmit
