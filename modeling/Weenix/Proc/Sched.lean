import Weenix.Proc.Queues
/-!
# The scheduler's queues

`QueuesOk` is what the functions of `sched.c` keep together: the lists, their
sizes, and each thread's `kt_wchan` and state agree, and no thread is lost.
Every function changes one thread at a time. `Rehang` is this change: the thread
leaves its queue and goes to the head of another, or to none.
-/

namespace Weenix.Proc

/-- The queues of `k`, where the threads in `pending` run but are not started yet. -/
structure QueuesOk (k : Kernel) (pending : Nat → Prop) : Prop where
  once : ∀ q, (k.tq_list q).Nodup
  one : ∀ q q' t, t ∈ k.tq_list q → t ∈ k.tq_list q' → q = q'
  wchan : ∀ q t, t ∈ k.tq_list q ↔ ∃ th, k.threads t = some th ∧ th.kt_wchan = some q
  size : ∀ q, k.tq_size q = (k.tq_list q).length
  runq : ∀ t ∈ k.tq_list .runq, ∃ th, k.threads t = some th ∧ th.kt_state = .run
  sleepers : ∀ q, q ≠ .runq → ∀ t ∈ k.tq_list q, asleep k t
  queued : ∀ t, asleep k t → ∃ q, t ∈ k.tq_list q
  ready : ∀ t th, k.threads t = some th → th.kt_state = .run → k.curthr ≠ some t → ¬ pending t →
    t ∈ k.tq_list .runq

/-- Of the threads on a queue, the oldest are served first: `l` and `l'` list the
queue before and after a step, newest first. Some threads arrive, `c` may be
cancelled, and those served are the ones that have waited longest. -/
def InOrder (l l' : List Nat) (c : Option Nat) : Prop :=
  ∃ arrived stayed served, l = stayed ++ served ∧ l' = arrived ++ stayed.filter (fun t => decide (some t ≠ c)) ∧
    ∀ t ∈ arrived, t ∉ l

theorem InOrder.same (l : List Nat) : InOrder l l none := ⟨[], l, [], by simp⟩

theorem InOrder.arrive {l : List Nat} {t : Nat} (h : t ∉ l) : InOrder l (t :: l) none :=
  ⟨[t], l, [], by simp, by simp, by simpa using h⟩

theorem InOrder.serve {l : List Nat} {t : Nat} : InOrder (l ++ [t]) l none := ⟨[], l, [t], by simp⟩

variable {k k' k'' : Kernel} {q : Queue} {t u : Nat} {th th' th'' : Kthread} {P P' : Nat → Prop}

/-- Thread `t` becomes `th'`. It leaves its queue, and goes to the head of the one `th'` names. -/
structure Rehang (k k' : Kernel) (t : Nat) (th' : Kthread) : Prop where
  threads : k'.threads = Function.update k.threads t (some th')
  lists : ∀ q, k'.tq_list q = (if th'.kt_wchan = some q then [t] else []) ++ (k.tq_list q).erase t
  sizes : ∀ q, k'.tq_size q =
    k.tq_size q - (if t ∈ k.tq_list q then 1 else 0) + (if th'.kt_wchan = some q then 1 else 0)

/-- What the state of a thread must be for the queue it is on. -/
structure Fits (th : Kthread) (here : Prop) : Prop where
  runq : th.kt_wchan = some .runq → th.kt_state = .run
  sleeper : ∀ q, th.kt_wchan = some q → q ≠ .runq → th.kt_state = .sleep ∨ th.kt_state = .sleep_cancellable
  queued : th.kt_state = .sleep ∨ th.kt_state = .sleep_cancellable → th.kt_wchan ≠ none
  ready : th.kt_state = .run → th.kt_wchan = some .runq ∨ here

theorem QueuesOk.fits (h : QueuesOk k P) (ht : k.threads t = some th) : Fits th (k.curthr = some t ∨ P t) := by
  have hon : ∀ q, th.kt_wchan = some q → t ∈ k.tq_list q := fun q hq => (h.wchan q t).2 ⟨th, ht, hq⟩
  constructor
  · intro hw
    obtain ⟨th', h1, h2⟩ := h.runq t (hon _ hw)
    rw [ht] at h1
    cases h1
    exact h2
  · intro q hw hq
    obtain ⟨th', h1, h2⟩ := h.sleepers q hq t (hon q hw)
    rw [ht] at h1
    cases h1
    exact h2
  · intro hs hw
    obtain ⟨q, hq⟩ := h.queued t ⟨th, ht, hs⟩
    obtain ⟨th', h1, h2⟩ := (h.wchan q t).1 hq
    rw [ht] at h1
    cases h1
    rw [hw] at h2
    cases h2
  · intro hs
    by_cases hc : k.curthr = some t ∨ P t
    · exact .inr hc
    · obtain ⟨th', h1, h2⟩ := (h.wchan _ t).1 (h.ready t th ht hs (fun e => hc (.inl e)) (fun e => hc (.inr e)))
      rw [ht] at h1
      cases h1
      exact .inl h2

/-- The other way round: when the lists and sizes follow `kt_wchan`, and every thread fits. -/
theorem QueuesOk.of_fits (once : ∀ q, (k.tq_list q).Nodup)
    (wchan : ∀ q t, t ∈ k.tq_list q ↔ ∃ th, k.threads t = some th ∧ th.kt_wchan = some q)
    (size : ∀ q, k.tq_size q = (k.tq_list q).length)
    (fits : ∀ t th, k.threads t = some th → Fits th (k.curthr = some t ∨ P t)) : QueuesOk k P := by
  refine ⟨once, fun q q' t h h' => ?_, wchan, size, fun t h => ?_, fun q hq t h => ?_, ?_, ?_⟩
  · obtain ⟨th, h1, h2⟩ := (wchan q t).1 h
    obtain ⟨th', h3, h4⟩ := (wchan q' t).1 h'
    rw [h1] at h3
    cases h3
    exact Option.some.inj (h2.symm.trans h4)
  · obtain ⟨th, h1, h2⟩ := (wchan _ t).1 h
    exact ⟨th, h1, (fits t th h1).runq h2⟩
  · obtain ⟨th, h1, h2⟩ := (wchan q t).1 h
    exact ⟨th, h1, (fits t th h1).sleeper q h2 hq⟩
  · rintro t ⟨th, h1, h2⟩
    obtain ⟨q, hq⟩ := Option.ne_none_iff_exists'.1 ((fits t th h1).queued h2)
    exact ⟨q, (wchan q t).2 ⟨th, h1, hq⟩⟩
  · intro t th h1 h2 h3 h4
    rcases (fits t th h1).ready h2 with h | h | h
    · exact (wchan _ t).2 ⟨th, h1, h⟩
    · exact absurd h h3
    · exact absurd h h4

theorem QueuesOk.not_mem (h : QueuesOk k P) (ht : k.threads t = some th) (hw : th.kt_wchan ≠ some q) :
    t ∉ k.tq_list q := fun hm => by
  obtain ⟨th', h1, h2⟩ := (h.wchan q t).1 hm
  rw [ht] at h1
  cases h1
  exact hw h2

/-- A thread that is not there is on no queue. -/
theorem QueuesOk.absent (h : QueuesOk k P) (ht : k.threads t = none) (q : Queue) : t ∉ k.tq_list q := fun hm => by
  obtain ⟨th', h1, -⟩ := (h.wchan q t).1 hm
  rw [ht] at h1
  cases h1

/-- A thread that has exited is on no queue. -/
theorem QueuesOk.exited_out (h : QueuesOk k P) (ht : k.threads t = some th) (hs : th.kt_state = .exited) (q : Queue) :
    t ∉ k.tq_list q := by
  apply h.not_mem ht
  intro hw
  by_cases e : q = .runq
  · have := (h.fits ht).runq (e ▸ hw)
    simp [hs] at this
  · have := (h.fits ht).sleeper q hw e
    simp [hs] at this

/-- The rule for `Rehang`: the thread must fit its new place, and the others must not lose the processor. -/
theorem QueuesOk.rehang (h : QueuesOk k P) (hr : Rehang k k' t th') (hf : Fits th' (k'.curthr = some t ∨ P' t))
    (hc : ∀ u, u ≠ t → k.curthr = some u ∨ P u → k'.curthr = some u ∨ P' u) : QueuesOk k' P' := by
  have hmem : ∀ q u, u ∈ k'.tq_list q ↔ (u = t ∧ th'.kt_wchan = some q) ∨ (u ≠ t ∧ u ∈ k.tq_list q) := fun q u => by
    rw [hr.lists, List.mem_append, (h.once q).mem_erase_iff]
    split <;> simp [*]
  refine .of_fits (fun q => ?_) (fun q u => ?_) (fun q => ?_) (fun u tu hu => ?_)
  · rw [hr.lists]
    split
    · have hn : t ∉ (k.tq_list q).erase t := by rw [(h.once q).mem_erase_iff]; simp
      exact List.nodup_cons.2 ⟨hn, (h.once q).erase t⟩
    · exact (h.once q).erase t
  · rw [hmem, hr.threads]
    by_cases e : u = t
    · simp [e]
    · simpa [e] using h.wchan q u
  · rw [hr.sizes, hr.lists, h.size, List.length_append]
    by_cases hm : t ∈ k.tq_list q
    · have := List.length_pos_of_mem hm
      rw [List.length_erase_of_mem hm, if_pos hm]
      split <;> simp <;> omega
    · rw [List.erase_of_not_mem hm, if_neg hm]
      split
      · simp; omega
      · simp
  · rw [hr.threads, Function.update_apply] at hu
    split at hu
    next e => cases hu; rw [e]; exact hf
    next e =>
      have hu' := h.fits hu
      exact ⟨hu'.runq, hu'.sleeper, hu'.queued, fun hs => (hu'.ready hs).imp_right (hc u e)⟩

/-- A thread changes in place. -/
theorem QueuesOk.inPlace (h : QueuesOk k P) (ht : k.threads t = some th) (hw : th'.kt_wchan = th.kt_wchan)
    (hs : th'.kt_state = th.kt_state) : QueuesOk (k.setThread t (some th')) P := by
  refine .of_fits h.once (fun q u => ?_) h.size (fun u tu hu => ?_)
  · by_cases e : u = t
    · subst e
      have := h.wchan q u
      rw [ht] at this
      simpa [Kernel.setThread, hw] using this
    · simpa [Kernel.setThread, e] using h.wchan q u
  · simp only [Kernel.setThread, Function.update_apply] at hu
    split at hu
    next e =>
      cases hu
      have := h.fits (e ▸ ht : k.threads u = some th)
      exact ⟨hw ▸ hs ▸ this.runq, hw ▸ hs ▸ this.sleeper, hw ▸ hs ▸ this.queued, hw ▸ hs ▸ this.ready⟩
    next => exact h.fits hu

/-- Only the queues, the threads and who runs matter. -/
theorem QueuesOk.congr (h : QueuesOk k P) (h1 : k'.threads = k.threads) (h2 : k'.tq_list = k.tq_list)
    (h3 : k'.tq_size = k.tq_size) (hc : ∀ u, k.curthr = some u ∨ P u → k'.curthr = some u ∨ P' u) : QueuesOk k' P' := by
  refine .of_fits (by rw [h2]; exact h.once) (by rw [h1, h2]; exact h.wchan) (by rw [h2, h3]; exact h.size)
    (fun u tu hu => ?_)
  rw [h1] at hu
  have := h.fits hu
  exact ⟨this.runq, this.sleeper, this.queued, fun hs => (this.ready hs).imp_right (hc u)⟩

theorem QueuesOk.loosen (h : QueuesOk k P) : QueuesOk k fun _ => True :=
  h.congr rfl rfl rfl fun _ _ => .inr trivial

/-! ## The functions of `sched.c` -/

/-- One change of a thread after another. -/
theorem Rehang.trans (h : Rehang k k' t th') (h' : Rehang k' k'' t th'') (hn : ∀ q, (k.tq_list q).Nodup) :
    Rehang k k'' t th'' := by
  have hout : ∀ q, t ∉ (k.tq_list q).erase t := fun q => by rw [(hn q).mem_erase_iff]; simp
  refine ⟨by rw [h'.threads, h.threads, Function.update_idem], fun q => ?_, fun q => ?_⟩
  · rw [h'.lists, h.lists]
    congr 1
    split
    · simp
    · simp [List.erase_of_not_mem (hout q)]
  · have e : (t ∈ k'.tq_list q) ↔ th'.kt_wchan = some q := by
      rw [h.lists, List.mem_append]
      have := hout q
      split <;> simp_all
    rw [h'.sizes, h.sizes]
    simp only [e]
    split <;> omega

theorem takeOff_rehang (h : QueuesOk k P) (hm : t ∈ k.tq_list q) (ho : takeOff k q t = some k') :
    ∃ th, k.threads t = some th ∧ Rehang k k' t { th with kt_wchan := none } := by
  simp only [takeOff, bind, Option.bind_eq_some_iff, Option.some.injEq] at ho
  obtain ⟨th, hth, rfl⟩ := ho
  refine ⟨th, hth, rfl, fun q' => ?_, fun q' => ?_⟩ <;>
    simp only [Kernel.setThread, Kernel.setQueue, Function.update_apply]
  all_goals
    by_cases e : q' = q
    · subst e
      simp [hm]
    · have hn : t ∉ k.tq_list q' := fun hm' => e (h.one q' q t hm' hm)
      simp [e, hn, List.erase_of_not_mem]

theorem enqueue_rehang (hn : th.kt_wchan = none → ∀ q, t ∉ k.tq_list q)
    (he : ktqueue_enqueue (k.setThread t (some th)) q t = some k') :
    th.kt_wchan = none ∧ Rehang k k' t { th with kt_wchan := some q } := by
  simp only [ktqueue_enqueue, bind, Kernel.setThread_self, Option.bind_some, Option.bind_eq_some_iff, KASSERT_eq_some,
    Option.some.injEq] at he
  obtain ⟨-, hw, rfl⟩ := he
  refine ⟨hw, Function.update_idem .., fun q' => ?_, fun q' => ?_⟩ <;>
    simp only [Kernel.setThread, Kernel.setQueue, Function.update_apply, Option.some.injEq]
  all_goals
    by_cases e : q' = q
    · subst e
      simp [hn hw q', List.erase_of_not_mem]
    · simp [e, Ne.symm e, hn hw q', List.erase_of_not_mem]

/-- The thread that `sched_make_runnable` gets is on no queue. -/
theorem make_runnable_rehang (h : QueuesOk k P) (hm : sched_make_runnable k t = some k') :
    ∃ th, k.threads t = some th ∧ th.kt_wchan = none ∧
      Rehang k k' t { th with kt_state := .run, kt_wchan := some .runq } := by
  simp only [sched_make_runnable, bind, Option.bind_eq_some_iff] at hm
  obtain ⟨th, hth, -, -, hm⟩ := hm
  obtain ⟨hw, hr⟩ := enqueue_rehang (fun hw q => h.not_mem hth (by rw [hw]; simp)) hm
  exact ⟨th, hth, hw, hr⟩

/-- A thread that is taken off its queue and made runnable. -/
theorem wake_rehang {k₁ : Kernel} (h : QueuesOk k P) (hm : t ∈ k.tq_list q) (ho : takeOff k q t = some k₁)
    (hr : sched_make_runnable k₁ t = some k') :
    ∃ th, k.threads t = some th ∧ Rehang k k' t { th with kt_state := .run, kt_wchan := some .runq } := by
  obtain ⟨th, hth, h1⟩ := takeOff_rehang h hm ho
  have hn : ∀ q, t ∉ k₁.tq_list q := fun q' => by
    rw [h1.lists, if_neg (by simp), List.nil_append, (h.once q').mem_erase_iff]
    simp
  have hth₁ : k₁.threads t = some { th with kt_wchan := none } := by rw [h1.threads, Function.update_self]
  simp only [sched_make_runnable, hth₁, bind, Option.bind_some, Option.bind_eq_some_iff] at hr
  obtain ⟨-, -, hr⟩ := hr
  exact ⟨th, hth, h1.trans (enqueue_rehang (fun _ => hn) hr).2 h.once⟩

/-- The current thread goes to sleep. -/
theorem sleepOn_rehang {st : ThreadState} {r : Resume} (h : QueuesOk k P) (hs : sleepOn k t q st r = some k') :
    ∃ th, k.threads t = some th ∧ th.kt_wchan = none ∧
      Rehang k k' t { th with kt_state := st, kt_wchan := some q } ∧ k'.curthr = none := by
  simp only [sleepOn, bind, Option.bind_eq_some_iff, Option.some.injEq] at hs
  obtain ⟨th, hth, k₁, he, rfl⟩ := hs
  obtain ⟨hw, h1, h2, h3⟩ := enqueue_rehang (fun hw q => h.not_mem hth (by rw [hw]; simp)) he
  exact ⟨th, hth, hw, ⟨h1, h2, h3⟩, rfl⟩

/-! ## Calls -/

/-- `kt_cancelled`. -/
def cancelled (k : Kernel) (t : Nat) : Bool := (k.threads t).any (·.kt_cancelled)

/-- What a call keeps. The queues are right and served in order. Only the queues
in `touch` and `kt_runq` change; only threads on them and the threads in `subj`
do, and only `who` is cancelled. -/
structure Keeps (k k' : Kernel) (P : Nat → Prop) (touch : Queue → Prop) (subj : Nat → Prop) (who : Option Nat) :
    Prop where
  queues : QueuesOk k' P
  order : ∀ q, ∃ c, (c = none ∨ c = who) ∧ InOrder (k.tq_list q) (k'.tq_list q) c
  frame : ∀ q, ¬ touch q → q ≠ .runq → k'.tq_list q = k.tq_list q
  grows : ¬ touch .runq → ∀ u ∈ k.tq_list .runq, u ∈ k'.tq_list .runq
  still : ∀ u, (∀ q, touch q → u ∉ k.tq_list q) → ¬ subj u → k'.threads u = k.threads u
  flags : ∀ u, k.threads u ≠ none → who = some u ∨ cancelled k' u = cancelled k u
  stays : ¬ touch .runq → ∀ u, k'.curthr = some u → k.curthr = some u

section
variable {touch touch' : Queue → Prop} {subj subj' : Nat → Prop} {who : Option Nat}

theorem Keeps.refl (h : QueuesOk k P) : Keeps k k P touch subj who :=
  ⟨h, fun _ => ⟨none, .inl rfl, .same _⟩, fun _ _ _ => rfl, fun _ _ hu => hu, fun _ _ _ => rfl, fun _ _ => .inr rfl,
    fun _ _ hu => hu⟩

/-- A call may be said to do more than it does. -/
theorem Keeps.mono (h : Keeps k k' P touch subj who) (ht : ∀ q, touch q → touch' q) (hs : ∀ u, subj u → subj' u) :
    Keeps k k' P touch' subj' who :=
  ⟨h.queues, h.order, fun q hn => h.frame q fun e => hn (ht q e), fun hn => h.grows fun e => hn (ht _ e),
    fun u hu hn => h.still u (fun q e => hu q (ht q e)) fun e => hn (hs u e), h.flags,
    fun hn => h.stays fun e => hn (ht _ e)⟩

/-- Afterwards the current thread may stop running, and parts of the kernel change that are not about threads. -/
theorem Keeps.before (h : Keeps k k' P touch subj who) (hq : QueuesOk k'' P') (h1 : k''.threads = k'.threads)
    (h2 : k''.tq_list = k'.tq_list) (h3 : k''.curthr = k'.curthr ∨ k''.curthr = none) :
    Keeps k k'' P' touch subj who := by
  refine ⟨hq, by rw [h2]; exact h.order, by rw [h2]; exact h.frame, by rw [h2]; exact h.grows,
    by rw [h1]; exact h.still, fun u hu => (h.flags u hu).imp_right fun e => by rw [← e]; unfold cancelled; rw [h1],
    fun hn u hu => ?_⟩
  rcases h3 with h3 | h3
  · exact h.stays hn u (h3 ▸ hu)
  · rw [h3] at hu
    cases hu

/-- A thread that runs on, and that the call is not about, does not get on a queue. -/
theorem Keeps.idle (hk : Keeps k k' P touch subj who) (h : QueuesOk k P') (hrq : ¬ touch .runq)
    (hidle : ∀ t, k.curthr = some t → ∀ q, t ∉ k.tq_list q) (hs : ∀ t, k'.curthr = some t → ¬ subj t) :
    ∀ t, k'.curthr = some t → ∀ q, t ∉ k'.tq_list q := by
  intro t ht q hm
  have hout := hidle t (hk.stays hrq t ht)
  obtain ⟨th, h1, h2⟩ := (hk.queues.wchan q t).1 hm
  rw [hk.still t (fun q _ => hout q) (hs t ht)] at h1
  exact hout q ((h.wchan q t).2 ⟨th, h1, h2⟩)

/-- Before it thread `t` may change in place, and the current thread stop running. -/
theorem Keeps.after {k₁ : Kernel} (h : Keeps k₁ k' P touch subj who) (ht : ∀ u, u ≠ t → k₁.threads u = k.threads u)
    (hl : k₁.tq_list = k.tq_list) (hne : k₁.threads t ≠ none) (hf : cancelled k₁ t = cancelled k t)
    (hc : ∀ u, k₁.curthr = some u → k.curthr = some u) : Keeps k k' P touch (fun u => subj u ∨ u = t) who := by
  refine ⟨h.queues, by rw [← hl]; exact h.order, by rw [← hl]; exact h.frame, by rw [← hl]; exact h.grows,
    fun u hu hn => ?_, fun u hu => ?_, fun hn u hu => hc u (h.stays hn u hu)⟩
  · rw [h.still u (by rw [hl]; exact hu) fun e => hn (.inl e)]
    exact ht u fun e => hn (.inr e)
  · by_cases e : u = t
    · subst e
      exact (h.flags u hne).imp_right fun e => e.trans hf
    · refine (h.flags u (by rwa [ht u e])).imp_right fun e' => e'.trans ?_
      unfold cancelled
      rw [ht u e]

/-- A change of thread `t` that takes it off a queue only from the end, when it has waited longest there. -/
theorem Rehang.keeps (hr : Rehang k k' t th') (h : QueuesOk k P) (hq : QueuesOk k' P')
    (hlast : ∀ q, t ∈ k.tq_list q → (who = some t ∨ (k.tq_list q).getLast? = some t) ∧ th'.kt_wchan ≠ some q ∧ touch q)
    (hnew : ∀ q, th'.kt_wchan = some q → touch q ∨ q = .runq)
    (hsubj : subj t ∨ ∃ q, touch q ∧ t ∈ k.tq_list q)
    (hflag : k.threads t ≠ none → who = some t ∨ cancelled k t = th'.kt_cancelled)
    (hcur : ¬ touch .runq → ∀ u, k'.curthr = some u → k.curthr = some u) : Keeps k k' P' touch subj who := by
  refine ⟨hq, fun q => ?_, fun q ht hrq => ?_, fun ht u hu => ?_, fun u hu hn => ?_, fun u hu => ?_, hcur⟩
  · rw [hr.lists]
    by_cases hm : t ∈ k.tq_list q
    · obtain ⟨hl, hw, -⟩ := hlast q hm
      rw [if_neg hw, List.nil_append]
      rcases hl with hl | hl
      · refine ⟨some t, .inr hl.symm, [], k.tq_list q, [], by simp, ?_, by simp⟩
        rw [(h.once q).erase_eq_filter, List.nil_append]
        exact List.filter_congr fun u _ => by simp [bne, Bool.beq_eq_decide_eq]
      · obtain ⟨init, e⟩ := List.getLast?_eq_some_iff.1 hl
        have hn := h.once q
        rw [e] at hn ⊢
        have hinit : t ∉ init := fun ht => (List.nodup_append.1 hn).2.2 t ht t (by simp) rfl
        rw [List.erase_append_right _ hinit, List.erase_cons_head, List.append_nil]
        exact ⟨none, .inl rfl, .serve⟩
    · rw [List.erase_of_not_mem hm]
      split
      · exact ⟨none, .inl rfl, .arrive hm⟩
      · exact ⟨none, .inl rfl, .same _⟩
  · have hm : t ∉ k.tq_list q := fun hm => ht (hlast q hm).2.2
    have hw : th'.kt_wchan ≠ some q := fun hw => (hnew q hw).elim ht hrq
    rw [hr.lists, if_neg hw, List.erase_of_not_mem hm]
    rfl
  · have hm : t ∉ k.tq_list .runq := fun hm => ht (hlast _ hm).2.2
    rw [hr.lists, List.erase_of_not_mem hm]
    exact List.mem_append_right _ hu
  · have e : u ≠ t := by
      rintro rfl
      rcases hsubj with hs | ⟨q, hq, hm⟩
      · exact hn hs
      · exact hu q hq hm
    rw [hr.threads, Function.update_of_ne e]
  · by_cases e : u = t
    · subst e
      refine (hflag hu).imp_right fun hf => ?_
      rw [hf]
      simp [cancelled, hr.threads]
    · right
      simp [cancelled, hr.threads, e]

end

/-- `sched_wakeup_on` wakes the thread that has slept longest, if there is one. -/
inductive WakeupEffect (k : Kernel) (q : Queue) : Kernel → Option Nat → Prop
  | empty : k.tq_list q = [] → WakeupEffect k q k none
  | woke {k' : Kernel} {t : Nat} {th : Kthread} : (k.tq_list q).getLast? = some t → q ≠ .runq → k.threads t = some th →
      Rehang k k' t { th with kt_state := .run, kt_wchan := some .runq } → k'.curthr = k.curthr →
      WakeupEffect k q k' (some t)

theorem takeOff_curthr (h : takeOff k q t = some k') : k'.curthr = k.curthr := by
  simp only [takeOff, bind, Option.bind_eq_some_iff, Option.some.injEq] at h
  obtain ⟨-, -, rfl⟩ := h
  rfl

theorem make_runnable_curthr (h : sched_make_runnable k t = some k') : k'.curthr = k.curthr := by
  simp only [sched_make_runnable, ktqueue_enqueue, bind, Option.bind_eq_some_iff, Option.some.injEq] at h
  obtain ⟨-, -, -, -, -, -, -, -, rfl⟩ := h
  rfl

theorem dequeue_cases {r : Option Nat} (h : ktqueue_dequeue k q = some (k', r)) :
    (k.tq_list q = [] ∧ k' = k ∧ r = none) ∨
      ∃ t, (k.tq_list q).getLast? = some t ∧ r = some t ∧ takeOff k q t = some k' := by
  simp only [ktqueue_dequeue] at h
  split at h
  next e => cases h; exact .inl ⟨List.getLast?_eq_none_iff.1 e, rfl, rfl⟩
  next t e =>
    simp only [Option.map_eq_some_iff, Prod.mk.injEq] at h
    obtain ⟨k₁, h1, rfl, rfl⟩ := h
    exact .inr ⟨t, e, rfl, h1⟩

theorem wakeup_effect (h : QueuesOk k P) (hw : sched_wakeup_on k q = some k') :
    ∃ r, WakeupEffect k q k' r := by
  simp only [sched_wakeup_on, bind, Option.bind_eq_some_iff, Prod.exists] at hw
  obtain ⟨k₁, r, h1, h2⟩ := hw
  rcases dequeue_cases h1 with ⟨he, rfl, rfl⟩ | ⟨t, hl, rfl, ho⟩
  · cases h2
    exact ⟨none, .empty he⟩
  · simp only [Option.bind_eq_some_iff, KASSERT_eq_some] at h2
    obtain ⟨-, hs, hr⟩ := h2
    have hm := List.mem_of_getLast? hl
    obtain ⟨th, hth, hre⟩ := wake_rehang h hm ho hr
    have hq : q ≠ .runq := by
      rintro rfl
      obtain ⟨th', h3, h4⟩ := h.runq t hm
      obtain ⟨th₁, hth₁, h5⟩ := takeOff_rehang h hm ho
      obtain ⟨th₂, h6, h7⟩ := hs
      rw [h5.threads, Function.update_self] at h6
      rw [hth₁] at h3
      cases h3
      cases h6
      rw [h4] at h7
      simp at h7
    exact ⟨some t, .woke hl hq hth hre ((make_runnable_curthr hr).trans (takeOff_curthr ho))⟩

/-- What `sched_wakeup_on` returns. -/
theorem WakeupEffect.returns {r : Option Nat} (h : WakeupEffect k q k' r) : (k.tq_list q).getLast? = r := by
  cases h with
  | empty e => rw [e]; rfl
  | woke e => exact e

theorem WakeupEffect.wakes (h : WakeupEffect k q k' (some t)) : ∃ th, (k.tq_list q).getLast? = some t ∧
    k.threads t = some th ∧ Rehang k k' t { th with kt_state := .run, kt_wchan := some .runq } ∧
    k'.curthr = k.curthr := by
  cases h with
  | woke hl _ hth hr hc => exact ⟨_, hl, hth, hr, hc⟩

/-- A thread that is ready on `kt_runq` fits there. -/
theorem fits_runnable {here : Prop} : Fits { th with kt_state := .run, kt_wchan := some .runq } here :=
  ⟨fun _ => rfl, fun q h hq => absurd (Option.some.inj h).symm hq, by simp, fun _ => .inl rfl⟩

/-- A thread that sleeps on another queue fits there. -/
theorem fits_asleep {here : Prop} {st : ThreadState} (hq : q ≠ .runq) (hs : st = .sleep ∨ st = .sleep_cancellable) :
    Fits { th with kt_state := st, kt_wchan := some q } here :=
  ⟨fun h => absurd (Option.some.inj h) hq, fun _ _ _ => hs, by simp, by rcases hs with rfl | rfl <;> simp⟩

/-- A thread woken from the end of `q`, or from anywhere when it is cancelled. -/
theorem wake_keeps {who : Option Nat} {th' : Kthread} (h : QueuesOk k P) (hm : t ∈ k.tq_list q) (hq : q ≠ .runq)
    (hl : who = some t ∨ (k.tq_list q).getLast? = some t) (hth : k.threads t = some th)
    (hf : who = some t ∨ th.kt_cancelled = th'.kt_cancelled)
    (hr : Rehang k k' t { th' with kt_state := .run, kt_wchan := some .runq }) (hc : k'.curthr = k.curthr) :
    Keeps k k' P (· = q) (fun _ => False) who := by
  refine hr.keeps h (h.rehang hr fits_runnable fun u _ hu => by rwa [hc]) (fun q' hm' => ?_)
    (fun q' e => .inr (Option.some.inj e).symm) (.inr ⟨q, rfl, hm⟩)
    (fun _ => hf.imp_right fun e => by simp [cancelled, hth, e]) fun _ u hu => hc ▸ hu
  have e := h.one q' q t hm' hm
  subst e
  exact ⟨hl, fun e => hq (Option.some.inj e).symm, rfl⟩

theorem WakeupEffect.keeps {r : Option Nat} (he : WakeupEffect k q k' r) (h : QueuesOk k P) :
    Keeps k k' P (· = q) (fun _ => False) none := by
  cases he with
  | empty => exact .refl h
  | woke hl hq hth hr hc => exact wake_keeps h (List.mem_of_getLast? hl) hq (.inr hl) hth (.inr rfl) hr hc

/-- `sched_broadcast_on` moves the queue to `kt_runq`: `wake` wakes the thread that has slept longest. -/
theorem broadcast_moves {wake : Kernel → Option Kernel} (hq : q ≠ .runq)
    (hwake : ∀ {k k'}, QueuesOk k P → k.tq_list q ≠ [] → wake k = some k' → ∃ t, WakeupEffect k q k' (some t))
    {ts : List Nat} : ∀ {k k' : Kernel}, QueuesOk k P → ts.length = (k.tq_list q).length →
    broadcast_from wake k ts = some k' →
    QueuesOk k' P ∧ k'.tq_list q = [] ∧ k'.tq_list .runq = k.tq_list q ++ k.tq_list .runq ∧
      (∀ q', q' ≠ q → q' ≠ .runq → k'.tq_list q' = k.tq_list q') ∧
      (∀ u, u ∉ k.tq_list q → k'.threads u = k.threads u) ∧ (∀ u, cancelled k' u = cancelled k u) ∧
      k'.curthr = k.curthr := by
  induction ts with
  | nil =>
    intro k k' h hlen hb
    cases hb
    have e : k.tq_list q = [] := List.length_eq_zero_iff.1 hlen.symm
    exact ⟨h, e, by rw [e]; rfl, fun _ _ _ => rfl, fun _ _ => rfl, fun _ => rfl, rfl⟩
  | cons x ts ih =>
    intro k k' h hlen hb
    simp only [broadcast_from, bind, Option.bind_eq_some_iff] at hb
    obtain ⟨k₁, h1, h2⟩ := hb
    have hne : k.tq_list q ≠ [] := fun e => by
      rw [e] at hlen
      cases hlen
    obtain ⟨t, hw⟩ := hwake h hne h1
    obtain ⟨th, hl, hth, hr, hc⟩ := hw.wakes
    obtain ⟨init, e⟩ := List.getLast?_eq_some_iff.1 hl
    have hk₁ : QueuesOk k₁ P := h.rehang hr fits_runnable fun u _ hu => by rwa [hc]
    have hm : ∀ q', q' ≠ q → t ∉ k.tq_list q' := fun q' hne hm => hne (h.one q' q t hm (List.mem_of_getLast? hl))
    have hinit : t ∉ init := fun ht => by
      have := h.once q
      rw [e] at this
      exact (List.nodup_append.1 this).2.2 t ht t (by simp) rfl
    have eq₁ : k₁.tq_list q = init := by
      rw [hr.lists, if_neg (by simpa using Ne.symm hq), e, List.nil_append, List.erase_append_right _ hinit]
      simp
    have er₁ : k₁.tq_list .runq = t :: k.tq_list .runq := by
      rw [hr.lists, if_pos rfl, List.erase_of_not_mem (hm _ (Ne.symm hq))]
      rfl
    obtain ⟨h3, h4, h5, h6, h7, h8, h9⟩ := ih hk₁ (by rw [eq₁]; rw [e] at hlen; simpa using hlen) h2
    refine ⟨h3, h4, by rw [h5, eq₁, er₁, e]; simp, fun q' hne hrq => ?_, fun u hu => ?_, fun u => (h8 u).trans ?_,
      h9.trans hc⟩
    · rw [h6 q' hne hrq, hr.lists, if_neg (by simpa using Ne.symm hrq), List.erase_of_not_mem (hm q' hne)]
      rfl
    · have hut : u ≠ t := fun e => hu (e ▸ List.mem_of_getLast? hl)
      rw [h7 u (by rw [eq₁]; rw [e] at hu; exact fun hm => hu (by simp [hm])), hr.threads, Function.update_of_ne hut]
    · by_cases hu : u = t
      · subst hu
        simp [cancelled, hr.threads, hth]
      · simp [cancelled, hr.threads, hu]

theorem broadcast_keeps {wake : Kernel → Option Kernel}
    (hwake : ∀ {k k'}, QueuesOk k P → k.tq_list q ≠ [] → wake k = some k' → ∃ t, WakeupEffect k q k' (some t))
    (h : QueuesOk k P) (hq : q = .runq → k.tq_list q = []) (hb : broadcast_from wake k (k.tq_list q) = some k') :
    Keeps k k' P (· = q) (fun _ => False) none := by
  by_cases e : q = .runq
  · rw [hq e] at hb
    cases hb
    exact .refl h
  · obtain ⟨h1, h2, h3, h4, h5, h6, h7⟩ := broadcast_moves e hwake h rfl hb
    refine ⟨h1, fun q' => ⟨none, .inl rfl, ?_⟩, h4, fun _ u hu => by rw [h3]; exact List.mem_append_right _ hu,
      fun u hu _ => h5 u (hu q rfl), fun u _ => .inr (h6 u), fun _ u hu => h7 ▸ hu⟩
    by_cases e1 : q' = q
    · rw [e1, h2]
      exact ⟨[], [], k.tq_list q, by simp⟩
    · by_cases e2 : q' = .runq
      · rw [e2, h3]
        exact ⟨k.tq_list q, k.tq_list .runq, [], by simp, by simp, fun t ht ht' => e (h.one q .runq t ht ht')⟩
      · rw [h4 q' e1 e2]
        exact .same _

/-- `sched_cancel` marks a thread, and wakes it from a cancellable sleep. Its
`kt_retval` may have been set before. -/
inductive CancelEffect (k : Kernel) (t : Nat) (retval : Int) : Kernel → Prop
  | marked {th : Kthread} : k.threads t = some th → th.kt_state ≠ .sleep_cancellable →
      CancelEffect k t retval (k.setThread t (some { th with kt_retval := retval, kt_cancelled := true }))
  | woke {k' : Kernel} {th : Kthread} {q : Queue} : k.threads t = some th → th.kt_state = .sleep_cancellable →
      t ∈ k.tq_list q → q ≠ .runq →
      Rehang k k' t { th with kt_retval := retval, kt_cancelled := true, kt_state := .run, kt_wchan := some .runq } →
      k'.curthr = k.curthr → CancelEffect k t retval k'

/-- The way both versions wake it. -/
theorem CancelEffect.of_wake {k₁ : Kernel} {retval : Int} (h : QueuesOk k P) (hth : k.threads t = some th)
    (hst : th.kt_state = .sleep_cancellable) (hq : th.kt_wchan = some q)
    (ho : takeOff (k.setThread t (some { th with kt_retval := retval, kt_cancelled := true })) q t = some k₁)
    (hr : sched_make_runnable k₁ t = some k') : CancelEffect k t retval k' := by
  have hm : t ∈ k.tq_list q := (h.wchan q t).2 ⟨th, hth, hq⟩
  have hrq : q ≠ .runq := by
    rintro rfl
    have := (h.fits hth).runq hq
    rw [hst] at this
    cases this
  have hin : QueuesOk (k.setThread t (some { th with kt_retval := retval, kt_cancelled := true })) P :=
    h.inPlace hth rfl rfl
  obtain ⟨th₁, hth₁, hre⟩ := wake_rehang hin hm ho hr
  rw [Kernel.setThread_self] at hth₁
  cases hth₁
  exact .woke hth hst hm hrq ⟨by rw [hre.threads]; exact Function.update_idem .., hre.lists, hre.sizes⟩
    ((make_runnable_curthr hr).trans (takeOff_curthr ho :))

theorem CancelEffect.keeps {retval : Int} (hc : CancelEffect k t retval k') (h : QueuesOk k P) :
    Keeps k k' P (fun q => t ∈ k.tq_list q ∧ ∃ th, k.threads t = some th ∧ th.kt_state = .sleep_cancellable)
      (· = t) (some t) := by
  cases hc with
  | @marked th hth hst =>
    refine ⟨h.inPlace hth rfl rfl, fun _ => ⟨none, .inl rfl, .same _⟩, fun _ _ _ => rfl, fun _ _ hu => hu,
      fun u _ hn => ?_, fun u _ => ?_, fun _ _ hu => hu⟩
    · simp [Kernel.setThread, hn]
    · by_cases e : u = t
      · exact .inl (by rw [e])
      · right
        simp [cancelled, Kernel.setThread, e]
  | @woke _ th q hth hst hm hrq hre hcur =>
    let th' := { th with kt_retval := retval, kt_cancelled := true }
    have hr : Rehang k _ t { th' with kt_state := .run, kt_wchan := some .runq } := hre
    have hkeep := wake_keeps h hm hrq (.inl rfl) hth (.inl rfl) hr hcur
    exact hkeep.mono (fun _ e => e ▸ ⟨hm, th, hth, hst⟩) fun _ => False.elim

/-- Falling asleep. -/
theorem sleepOn_keeps {st : ThreadState} {r : Resume} (h : QueuesOk k P) (hq : q ≠ .runq)
    (hst : st = .sleep ∨ st = .sleep_cancellable) (hcur : k.curthr = some t) (hs : sleepOn k t q st r = some k') :
    Keeps k k' P (· = q) (· = t) none := by
  obtain ⟨th, hth, hw, hr, hc⟩ := sleepOn_rehang h hs
  refine hr.keeps h (h.rehang hr (fits_asleep hq hst) fun u hu he => ?_) (fun q' hm => ?_)
    (fun q' e => .inl (Option.some.inj e).symm) (.inl rfl) (fun _ => .inr (by simp [cancelled, hth]))
    fun _ u hu => by rw [hc] at hu; cases hu
  · rcases he with he | he
    · rw [hcur] at he
      exact absurd (Option.some.inj he).symm hu
    · exact .inr he
  · exact absurd hm (h.not_mem hth (by rw [hw]; simp))

/-- A thread that is made runnable is on no queue before. -/
theorem make_runnable_keeps (h : QueuesOk k P) (hm : sched_make_runnable k t = some k') :
    Keeps k k' (fun u => P u ∧ u ≠ t) (fun _ => False) (· = t) none := by
  obtain ⟨th, hth, hw, hr⟩ := make_runnable_rehang h hm
  refine hr.keeps h (h.rehang hr fits_runnable fun u hu he => ?_) (fun q hm => ?_)
    (fun q e => .inr (Option.some.inj e).symm) (.inl rfl) (fun _ => .inr (by simp [cancelled, hth]))
    fun _ u hu => make_runnable_curthr hm ▸ hu
  · rw [make_runnable_curthr hm]
    exact he.imp_right fun hp => ⟨hp, hu⟩
  · exact absurd hm (h.not_mem hth (by rw [hw]; simp))

/-- A new thread on no queue. -/
theorem create_keeps {st : ThreadState} {p : Nat} (h : QueuesOk k P) (hst : st = .no_state ∨ (st = .run ∧ P p))
    (hc : kthread_create_as st k p = some k') : Keeps k k' P (fun _ => False) (· = p) none := by
  simp only [kthread_create_as, bind, Option.bind_eq_some_iff, KASSERT_eq_some, Option.some.injEq] at hc
  obtain ⟨-, -, -, hn, rfl⟩ := hc
  have hout := h.absent hn
  have hr : Rehang k ((k.setThread p (some { kt_state := st })).setResume p .elsewhere) p { kt_state := st } :=
    ⟨rfl, fun q => by simp [Kernel.setThread, Kernel.setResume, List.erase_of_not_mem (hout q)],
      fun q => by simp [Kernel.setThread, Kernel.setResume, hout q]⟩
  refine hr.keeps h (h.rehang hr ?_ fun u _ hu => hu) (fun q hm => absurd hm (hout q)) (by simp) (.inl rfl)
    (fun hne => absurd hn hne) fun _ u hu => hu
  constructor
  · simp
  · simp
  · rcases hst with rfl | ⟨rfl, -⟩ <;> simp
  · rcases hst with rfl | ⟨rfl, hp⟩
    · simp
    · exact fun _ => .inr (.inr hp)

/-- A thread may stop running when it is on `kt_runq` or does not run any more. -/
theorem dropCur (h : QueuesOk k P)
    (hc : ∀ t th, k.curthr = some t → k.threads t = some th → th.kt_state = .run → th.kt_wchan = some .runq ∨ P t) :
    QueuesOk (k.setCur none) P := by
  refine .of_fits h.once h.wchan h.size fun t th ht => ?_
  have := h.fits ht
  refine ⟨this.runq, this.sleeper, this.queued, fun hs => ?_⟩
  rcases this.ready hs with hw | hw | hp
  · exact .inl hw
  · exact (hc t th hw ht hs).imp_right .inr
  · exact .inr (.inr hp)

/-- `sched_switch` goes on in the thread that has been ready longest. -/
theorem switch_to_rehang (h : QueuesOk k P) (hs : sched_switch_to k = some (k', t)) :
    k.curthr = none ∧ (k.tq_list .runq).getLast? = some t ∧ k'.curthr = some t ∧
      ∃ th, k.threads t = some th ∧ th.kt_state = .run ∧ Rehang k k' t { th with kt_wchan := none } := by
  simp only [sched_switch_to, bind, Option.bind_eq_some_iff, KASSERT_eq_some, Prod.exists] at hs
  obtain ⟨-, hc, k₁, r, h1, h2⟩ := hs
  rcases dequeue_cases h1 with ⟨he, rfl, rfl⟩ | ⟨t', hl, rfl, ho⟩
  · cases h2
  · cases h2
    have hm := List.mem_of_getLast? hl
    obtain ⟨th, hth, h3, h4, h5⟩ := takeOff_rehang h hm ho
    obtain ⟨th', h6, h7⟩ := h.runq t hm
    rw [hth] at h6
    cases h6
    exact ⟨hc, hl, rfl, th, hth, h7, h3, h4, h5⟩

theorem found_keeps (h : QueuesOk k P) (hs : sched_switch_to k = some (k', t)) :
    Keeps k k' P (· = .runq) (fun _ => False) none := by
  obtain ⟨hc, hl, hc', th, hth, hrun, hr⟩ := switch_to_rehang h hs
  refine hr.keeps h (h.rehang hr ⟨by simp, by simp, by simp [hrun], fun _ => .inr (.inl hc')⟩ fun u _ hu => ?_)
    (fun q hm => ?_) (by simp) (.inr ⟨_, rfl, List.mem_of_getLast? hl⟩) (fun _ => .inr (by simp [cancelled, hth]))
    fun hn => absurd rfl hn
  · rcases hu with hu | hu
    · rw [hc] at hu
      cases hu
    · exact .inr hu
  · have e := h.one q _ t hm (List.mem_of_getLast? hl)
    exact ⟨.inr (e ▸ hl), by simp, e⟩

/-! ## The start -/

/-- No thread is on a queue or asleep, and only the current one runs. -/
structure Started (k : Kernel) : Prop where
  lists : ∀ q, k.tq_list q = []
  sizes : ∀ q, k.tq_size q = 0
  threads : ∀ t th, k.threads t = some th → th.kt_wchan = none ∧ th.kt_state ≠ .sleep ∧
    th.kt_state ≠ .sleep_cancellable ∧ (th.kt_state = .run → k.curthr = some t)

theorem Started.queues (h : Started k) : QueuesOk k P := by
  refine .of_fits (fun q => by rw [h.lists]; exact .nil) (fun q t => ?_) (fun q => by rw [h.lists, h.sizes]; rfl)
    (fun t th ht => ?_)
  · rw [h.lists]
    constructor
    · intro hm; cases hm
    · rintro ⟨th, h1, h2⟩
      rw [(h.threads t th h1).1] at h2
      cases h2
  · obtain ⟨hw, h1, h2, h3⟩ := h.threads t th ht
    exact ⟨by simp [hw], by simp [hw], fun hs => absurd hs (by simp [h1, h2]), fun hs => .inr (.inl (h3 hs))⟩

theorem boot_started : Started Kernel.boot := by
  refine ⟨fun _ => rfl, fun _ => rfl, fun t th h => ?_⟩
  simp only [Kernel.boot] at h ⊢
  split at h
  next e => cases h; simp [e]
  next => cases h

end Weenix.Proc
