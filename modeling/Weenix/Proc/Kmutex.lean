import Weenix.Proc.Sched
/-!
# A mutex (`proc/kmutex.h`)

What the two versions of `kmutex.c` share. Threads wait on `km_waitq`; the thread
`kmutex_unlock` wakes is `km_holder` at once, though it runs later. `place` is
where each thread is in its use of the mutex. It is not in the kernel: it says
what the thread has been told.
-/

namespace Weenix.Proc
open Lib

/-- `locking` is inside a call that waits, `holding` after one that returned with the mutex. -/
inductive Place
  | outside
  | locking (cancellable : Bool)
  | holding
  deriving DecidableEq

structure Kmutex where
  k : Kernel
  km_holder : Option Nat
  place : Nat → Place

/-- The wait queue of mutex `m`. -/
def km_waitq (m : Nat) : Queue := .other m

/-- What threads do. `found` is the end of `sched_switch`, where a thread goes on
and may return from its call; `call c` is any other call of the scheduler. -/
inductive LockEvent (C : Type)
  | kmutex_lock
  | kmutex_lock_cancellable
  | kmutex_unlock
  | kthread_cancel (t : Nat) (retval : Int)
  | found
  | call (c : C)
  deriving DecidableEq

/-- `passed t`: the mutex was given to `t`, which waits; `locked t` and `result t e`:
thread `t` returned from `kmutex_lock`, or from `kmutex_lock_cancellable` with
the error `e`, if any. -/
inductive LockOutcome
  | done
  | blocked (t : Nat)
  | passed (t : Nat)
  | locked (t : Nat)
  | result (t : Nat) (e : Option Errno)
  deriving DecidableEq

namespace Kmutex

def init (k : Kernel) : Kmutex := ⟨k, none, fun _ => .outside⟩

variable (s : Kmutex)

def goes (t : Nat) (p : Place) : Kmutex := { s with place := Function.update s.place t p }

def give (t : Option Nat) : Kmutex := { s with km_holder := t }

def setKernel (k : Kernel) : Kmutex := { s with k := k }

@[simp] theorem goes_k (t : Nat) (p : Place) : (s.goes t p).k = s.k := rfl
@[simp] theorem goes_km_holder (t : Nat) (p : Place) : (s.goes t p).km_holder = s.km_holder := rfl
@[simp] theorem goes_place_self (t : Nat) (p : Place) : (s.goes t p).place t = p := Function.update_self ..
@[simp] theorem give_k (t : Option Nat) : (s.give t).k = s.k := rfl
@[simp] theorem give_km_holder (t : Option Nat) : (s.give t).km_holder = t := rfl
@[simp] theorem give_place (t : Option Nat) : (s.give t).place = s.place := rfl
@[simp] theorem setKernel_k (k : Kernel) : (s.setKernel k).k = k := rfl
@[simp] theorem setKernel_km_holder (k : Kernel) : (s.setKernel k).km_holder = s.km_holder := rfl
@[simp] theorem setKernel_place (k : Kernel) : (s.setKernel k).place = s.place := rfl

end Kmutex

/-- The thread gets the mutex, which is free, and returns. -/
def Kmutex.acquire (s : Kmutex) (t : Nat) (cancellable : Bool) : Kmutex × LockOutcome :=
  ((s.give (some t)).goes t .holding, if cancellable then .result t none else .locked t)

/-- The thread that `sched_wakeup_on` takes off and returns. -/
def woken (k : Kernel) (q : Queue) : Option Nat := (k.tq_list q).getLast?

/-- What `kmutex_unlock` did with the mutex. -/
def LockOutcome.of : Option Nat → LockOutcome
  | none => .done
  | some t => .passed t

/-- How a thread comes back from a lock call in which it slept; `err` is what
`sched_cancellable_sleep_on` returns. -/
def Kmutex.comeBack (s : Kmutex) (t : Nat) (err : Option Errno) : Place × LockOutcome :=
  match s.place t with
  | .locking false => (.holding, .locked t)
  | .locking true => (if err = none then .holding else .outside, .result t err)
  | p => (p, .done)

/-- `sched_switch` goes on in a thread. -/
def goOn (err : Kernel → Nat → Option Errno) (s : Kmutex) : Option (Kmutex × LockOutcome) := do
  let (k, t) ← sched_switch_to s.k
  let (p, w) := s.comeBack t (err k t)
  some ((s.setKernel k).goes t p, w)

/-- What a step does to the mutex, with `err` as in `goOn`; `other` is what calls
that are not about the mutex do. -/
inductive LockEffect {C : Type} (m : Nat) (err : Kernel → Nat → Option Errno) (other : Kmutex → Kernel → Prop)
    (s : Kmutex) : LockEvent C → Kmutex → LockOutcome → Prop
  | acquire {e : LockEvent C} {t : Nat} (b : Bool) : e ≠ .found → s.k.curthr = some t → s.km_holder = none →
      LockEffect m err other s e (s.acquire t b).1 (s.acquire t b).2
  | block {e : LockEvent C} {t : Nat} {k' : Kernel} (b : Bool) : s.k.curthr = some t → s.km_holder ≠ none →
      s.km_holder ≠ some t → (b = true → cancelled s.k t = false) →
      sleepOn s.k t (km_waitq m) (if b then .sleep_cancellable else .sleep) .elsewhere = some k' →
      LockEffect m err other s e ((s.setKernel k').goes t (.locking b)) (.blocked t)
  | refuse {e : LockEvent C} {t : Nat} : s.k.curthr = some t → s.km_holder ≠ some t →
      LockEffect m err other s e s (.result t (some .EINTR))
  | pass {e : LockEvent C} {t : Nat} {r : Option Nat} {k' : Kernel} : s.k.curthr = some t → s.km_holder = some t →
      WakeupEffect s.k (km_waitq m) k' r →
      LockEffect m err other s e (((s.setKernel k').give r).goes t .outside) (.of r)
  | aside {e : LockEvent C} {k' : Kernel} : other s k' → LockEffect m err other s e (s.setKernel k') .done
  | resume {t : Nat} {k' : Kernel} : sched_switch_to s.k = some (k', t) →
      LockEffect m err other s .found ((s.setKernel k').goes t (s.comeBack t (err k' t)).1) (s.comeBack t (err k' t)).2

/-! ## The order in a trace -/

section
variable {C : Type}

/-- The threads that started to wait, oldest first. -/
def blocked (tr : List (LockEvent C × LockOutcome)) : List Nat :=
  tr.filterMap fun x => match x.2 with
    | .blocked t => some t
    | _ => none

/-- The threads that were given the mutex while they waited. -/
def given (tr : List (LockEvent C × LockOutcome)) : List Nat :=
  tr.filterMap fun x => match x.2 with
    | .passed t => some t
    | _ => none

/-- The threads that waited and then returned with the mutex. -/
def served (tr : List (LockEvent C × LockOutcome)) : List Nat :=
  tr.filterMap fun x => match x with
    | (.found, .locked t) => some t
    | (.found, .result t none) => some t
    | _ => none

end

/-- The holder, while it has not returned yet. -/
def Kmutex.owed (s : Kmutex) : List Nat :=
  s.km_holder.toList.filter fun t => match s.place t with
    | .locking _ => true
    | _ => false

/-! ## What every step keeps -/

/-- A free mutex has no waiters; a waiter is in a lock call and is not the holder;
the thread that runs is not in one, and is on no queue. -/
structure Waits (m : Nat) (s : Kmutex) : Prop where
  queues : QueuesOk s.k fun _ => True
  waiting : ∀ t ∈ s.k.tq_list (km_waitq m), ∃ b, s.place t = .locking b
  free : s.km_holder = none → s.k.tq_list (km_waitq m) = []
  apart : ∀ t, s.km_holder = some t → t ∉ s.k.tq_list (km_waitq m)
  cur : ∀ t b, s.k.curthr = some t → s.place t ≠ .locking b

variable {m : Nat} {s : Kmutex} {k' : Kernel} {t u : Nat} {b : Bool} {p : Place}

theorem km_waitq_ne : km_waitq m ≠ .runq := by simp [km_waitq]

/-- Where a thread is after one has gone to `p`. -/
theorem Kmutex.goes_place (h : (s.goes t p).place u = .locking b) : (u = t ∧ p = .locking b) ∨ (u ≠ t ∧ s.place u = .locking b) := by
  unfold goes at h
  by_cases e : u = t
  · subst e
    exact .inl ⟨rfl, by simpa using h⟩
  · exact .inr ⟨e, by simpa [e] using h⟩

namespace Waits

theorem not_mem_of_cur (h : Waits m s) (hc : s.k.curthr = some t) : t ∉ s.k.tq_list (km_waitq m) := fun hm => by
  obtain ⟨b, hb⟩ := h.waiting t hm
  exact h.cur t b hc hb

theorem init (hk : QueuesOk k' fun _ => True) (hq : k'.tq_list (km_waitq m) = []) : Waits m (.init k') := by
  refine ⟨hk, fun t ht => ?_, fun _ => hq, fun t ht => (by cases ht), fun t b _ h => (by cases h)⟩
  rw [Kmutex.init, hq] at ht
  cases ht

/-- A free mutex is taken. -/
theorem acquire (h : Waits m s) (hc : s.k.curthr = some t) (hn : s.km_holder = none) (b : Bool) :
    Waits m (s.acquire t b).1 := by
  have e := h.free hn
  refine ⟨h.queues, fun u hu => ?_, fun hf => (by cases hf), fun u _ hu => ?_, fun u b hu hp => ?_⟩
  · change u ∈ s.k.tq_list (km_waitq m) at hu
    rw [e] at hu
    cases hu
  · change u ∈ s.k.tq_list (km_waitq m) at hu
    rw [e] at hu
    cases hu
  · rcases Kmutex.goes_place hp with ⟨-, hp⟩ | ⟨hne, -⟩
    · cases hp
    · change s.k.curthr = some u at hu
      rw [hc] at hu
      exact hne (Option.some.inj hu).symm

/-- The thread that runs waits for a mutex that is held. -/
theorem block {st : ThreadState} (h : Waits m s) (hc : s.k.curthr = some t) (hn : s.km_holder ≠ none)
    (ht : s.km_holder ≠ some t) (hst : st = .sleep ∨ st = .sleep_cancellable)
    (hs : sleepOn s.k t (km_waitq m) st .elsewhere = some k') (b : Bool) :
    Waits m ((s.setKernel k').goes t (.locking b)) ∧
      k'.tq_list (km_waitq m) = t :: s.k.tq_list (km_waitq m) := by
  obtain ⟨th, hth, hw, hr, hcur⟩ := sleepOn_rehang h.queues hs
  have hl : k'.tq_list (km_waitq m) = t :: s.k.tq_list (km_waitq m) := by
    rw [hr.lists, if_pos rfl, List.erase_of_not_mem (h.not_mem_of_cur hc)]
    rfl
  refine ⟨⟨(sleepOn_keeps h.queues km_waitq_ne hst hc hs).queues, fun u hu => ?_, fun hf => absurd hf hn,
    fun u hu hm => ?_, fun u _ hu => ?_⟩, hl⟩
  · change u ∈ k'.tq_list (km_waitq m) at hu
    rw [hl, List.mem_cons] at hu
    by_cases e : u = t
    · exact ⟨b, by simp [Kmutex.goes, e]⟩
    · obtain ⟨b', hb⟩ := h.waiting u (hu.resolve_left e)
      exact ⟨b', by simpa [Kmutex.goes, Kmutex.setKernel, e] using hb⟩
  · change u ∈ k'.tq_list (km_waitq m) at hm
    rw [hl, List.mem_cons] at hm
    rcases hm with rfl | hm
    · exact ht hu
    · exact h.apart u hu hm
  · change k'.curthr = some u at hu
    rw [hcur] at hu
    cases hu

/-- The holder lets go, and the thread that has waited longest is the holder. -/
theorem pass {r : Option Nat} (h : Waits m s) (hc : s.k.curthr = some t)
    (hw : WakeupEffect s.k (km_waitq m) k' r) : Waits m (((s.setKernel k').give r).goes t .outside) := by
  have hk := (hw.keeps h.queues).queues
  have hcur : k'.curthr = s.k.curthr := by
    cases hw with
    | empty => rfl
    | woke _ _ _ _ hc => exact hc
  have hsub : ∀ u ∈ k'.tq_list (km_waitq m), u ∈ s.k.tq_list (km_waitq m) := fun u hu => by
    cases hw with
    | empty => exact hu
    | woke hl hq hth hr _ =>
      rw [hr.lists, if_neg (by simpa using Ne.symm hq), List.nil_append] at hu
      exact List.mem_of_mem_erase hu
  refine ⟨hk, fun u hu => ?_, fun hf => ?_, fun u hu hm => ?_, fun u b hu hp => ?_⟩
  · obtain ⟨b, hb⟩ := h.waiting u (hsub u hu)
    have e : u ≠ t := fun e => h.cur t b hc (e ▸ hb)
    exact ⟨b, by simpa [Kmutex.goes, Kmutex.setKernel, Kmutex.give, e] using hb⟩
  · cases hw with
    | empty e => exact e
    | woke => cases hf
  · cases hw with
    | empty => cases hu
    | woke hl hq hth hr _ =>
      cases hu
      change u ∈ k'.tq_list (km_waitq m) at hm
      rw [hr.lists, if_neg (by simpa using Ne.symm hq), List.nil_append, (h.queues.once _).mem_erase_iff] at hm
      exact hm.1 rfl
  · rcases Kmutex.goes_place hp with ⟨-, hp⟩ | ⟨-, hp⟩
    · cases hp
    · exact h.cur u b (hcur ▸ hu) hp

/-- Threads may leave the queue. -/
theorem leave (h : Waits m s) (hk : QueuesOk k' fun _ => True)
    (hl : ∀ t ∈ k'.tq_list (km_waitq m), t ∈ s.k.tq_list (km_waitq m)) (hc : k'.curthr = s.k.curthr) :
    Waits m (s.setKernel k') := by
  refine ⟨hk, fun t ht => h.waiting t (hl t ht), fun hf => ?_, fun t ht hm => h.apart t ht (hl t hm),
    fun t b ht => h.cur t b (hc ▸ ht)⟩
  refine List.eq_nil_iff_forall_not_mem.2 fun t ht => ?_
  have := hl t ht
  rw [h.free hf] at this
  cases this

/-- A call that has nothing to do with the mutex. -/
theorem aside {touch : Queue → Prop} {subj : Nat → Prop} {who : Option Nat} {P : Nat → Prop} (h : Waits m s)
    (hk : Keeps s.k k' P touch subj who) (ht : ∀ q, touch q → q ≠ km_waitq m ∧ q ≠ .runq) :
    Waits m (s.setKernel k') := by
  have e : k'.tq_list (km_waitq m) = s.k.tq_list (km_waitq m) :=
    hk.frame _ (fun hq => (ht _ hq).1 rfl) km_waitq_ne
  refine ⟨hk.queues.congr rfl rfl rfl fun _ _ => .inr trivial, fun t hu => h.waiting t ?_, fun hf => ?_, fun t hu => ?_,
    fun t b hu => h.cur t b (hk.stays (fun hq => (ht _ hq).2 rfl) t hu)⟩
  · exact e ▸ hu
  · exact e.trans (h.free hf)
  · exact fun hm => h.apart t hu (e ▸ hm)

/-- A thread goes on, and is not in a lock call any more. -/
theorem resume (h : Waits m s) (hs : sched_switch_to s.k = some (k', t)) (hp : ∀ b, p ≠ .locking b) :
    Waits m ((s.setKernel k').goes t p) ∧ k'.tq_list (km_waitq m) = s.k.tq_list (km_waitq m) := by
  obtain ⟨-, hl, hcur, -⟩ := switch_to_rehang h.queues hs
  have hk := found_keeps h.queues hs
  have e : k'.tq_list (km_waitq m) = s.k.tq_list (km_waitq m) := hk.frame _ km_waitq_ne km_waitq_ne
  have hn : t ∉ s.k.tq_list (km_waitq m) := fun hm => km_waitq_ne (h.queues.one _ _ t hm (List.mem_of_getLast? hl))
  refine ⟨⟨hk.queues, fun u hu => ?_, fun hf => e.trans (h.free hf), fun u hu hm => h.apart u hu (e ▸ hm),
    fun u b hu hpl => ?_⟩, e⟩
  · change u ∈ k'.tq_list (km_waitq m) at hu
    rw [e] at hu
    obtain ⟨b, hb⟩ := h.waiting u hu
    have hne : u ≠ t := fun e => hn (e ▸ hu)
    exact ⟨b, by simpa [Kmutex.goes, Kmutex.setKernel, hne] using hb⟩
  · rcases Kmutex.goes_place hpl with ⟨-, hp'⟩ | ⟨hne, -⟩
    · exact hp b hp'
    · change k'.curthr = some u at hu
      rw [hcur] at hu
      exact hne (Option.some.inj hu).symm

end Waits

end Weenix.Proc
