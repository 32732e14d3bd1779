import Weenix.Proc.VmTree
import Weenix.Proc.VmSched
/-!
# Waiting for children in vm-submit
-/

namespace Weenix.Proc.VmSubmit
open Lib

variable {MAX : Nat} {k k' : Kernel} {cur c z ini par : Nat} {e : Event} {w : Outcome}

/-! ## Who waits for whom -/

/-- Threads only leave queues, or go to `kt_runq` from another one, and those on no queue stay as they are. -/
structure Settles (k k' : Kernel) : Prop where
  resume : k'.resume = k.resume
  lists : ∀ q t, t ∈ k'.tq_list q → t ∈ k.tq_list q ∨ (q = .runq ∧ ∃ q', t ∈ k.tq_list q')
  still : ∀ t, (∀ q, t ∉ k.tq_list q) → k'.threads t = k.threads t

/-- Only process `p` waits on the `p_wait` of `p`, and who waits for a given child has this child. -/
structure Awaiting (k : Kernel) : Prop where
  queues : QueuesOk k fun _ => True
  alive : ∀ t, k.curthr = some t → k.threads t ≠ none
  idle : ∀ t, k.curthr = some t → ∀ q, t ∉ k.tq_list q
  linked : k.family.Linked
  own : ∀ p, ∀ t ∈ k.tq_list (.wait p), t = p
  awaited : ∀ q, ∀ t ∈ k.tq_list q, ∀ c, k.resume t = .waitFor c → c ∈ k.family.children t

theorem Settles.refl (k : Kernel) : Settles k k := ⟨rfl, fun _ _ h => .inl h, fun _ _ => rfl⟩

/-- A thread that was on a queue goes to `kt_runq`. -/
theorem rehang_settles {t : Nat} {th : Kthread} {q : Queue} (h : Rehang k k' t th) (hr : k'.resume = k.resume)
    (hm : t ∈ k.tq_list q) (hw : th.kt_wchan = some .runq) : Settles k k' := by
  refine ⟨hr, fun q' u hu => ?_, fun u hu => ?_⟩
  · rw [h.lists, List.mem_append, hw] at hu
    rcases hu with hu | hu
    · split at hu
      next e =>
        rw [List.mem_singleton] at hu
        exact .inr ⟨(Option.some.inj e).symm, q, hu ▸ hm⟩
      next => cases hu
    · exact .inl (List.mem_of_mem_erase hu)
  · rw [h.threads, Function.update_of_ne]
    rintro rfl
    exact hu q hm

theorem takeOff_resume {q : Queue} {t : Nat} (h : takeOff k q t = some k') : k'.resume = k.resume := by
  simp only [takeOff, bind, Option.bind_eq_some_iff, Option.some.injEq] at h
  obtain ⟨-, -, rfl⟩ := h
  rfl

theorem make_runnable_resume {t : Nat} (h : sched_make_runnable k t = some k') : k'.resume = k.resume := by
  simp only [sched_make_runnable, ktqueue_enqueue, bind, Option.bind_eq_some_iff, Option.some.injEq] at h
  obtain ⟨-, -, -, -, -, -, -, -, rfl⟩ := h
  rfl

theorem wakeup_resume {q : Queue} (h : sched_wakeup_on k q = some k') : k'.resume = k.resume := by
  simp only [sched_wakeup_on, bind, Option.bind_eq_some_iff, Prod.exists] at h
  obtain ⟨k₁, r, h1, h2⟩ := h
  rcases dequeue_cases h1 with ⟨-, rfl, rfl⟩ | ⟨t, -, rfl, ho⟩
  · cases h2
    rfl
  · simp only [Option.bind_eq_some_iff] at h2
    obtain ⟨-, -, hr⟩ := h2
    exact (make_runnable_resume hr).trans (takeOff_resume ho)

theorem wakeup_settles {q : Queue} {P : Nat → Prop} (h : QueuesOk k P) (hw : sched_wakeup_on k q = some k') :
    Settles k k' ∧ k'.curthr = k.curthr ∧ ∀ t, k.tq_list q = [t] → q ≠ .runq → k'.tq_list q = [] := by
  obtain ⟨r, he⟩ := wakeup_effect h hw
  cases he with
  | empty e => exact ⟨.refl k, rfl, fun t ht => by rw [e] at ht; cases ht⟩
  | @woke _ u th hl hq hth hr hc =>
    refine ⟨rehang_settles hr (wakeup_resume hw) (List.mem_of_getLast? hl) rfl, hc, fun t ht _ => ?_⟩
    rw [ht] at hl
    cases hl
    rw [hr.lists, if_neg (by simpa using Ne.symm hq), ht]
    simp

theorem broadcast_resume {q : Queue} {ts : List Nat} : ∀ {k k' : Kernel}, broadcast_from (wakeTail q) k ts = some k' →
    k'.resume = k.resume := by
  induction ts with
  | nil => intro k k' h; cases h; rfl
  | cons t ts ih =>
    intro k k' h
    simp only [broadcast_from, wakeTail, bind, Option.bind_eq_some_iff, Prod.exists] at h
    obtain ⟨k₁, ⟨k₂, r, h1, h2⟩, h3⟩ := h
    rcases dequeue_cases h1 with ⟨-, -, rfl⟩ | ⟨u, -, rfl, ho⟩
    · cases h2
    · exact (ih h3).trans ((make_runnable_resume h2).trans (takeOff_resume ho))

theorem broadcast_settles {n : Nat} {P : Nat → Prop} (h : QueuesOk k P)
    (hb : sched_broadcast_on k (.other n) = some k') : Settles k k' ∧ k'.curthr = k.curthr := by
  obtain ⟨-, h1, h2, h3, h5, -, h4⟩ := broadcast_moves (q := .other n) (by simp)
    (fun h _ hw => (wakeTail_effect h hw).resolve_left (by simp)) h rfl hb
  refine ⟨⟨broadcast_resume hb, fun q t ht => ?_, fun t ht => h5 t (ht _)⟩, h4⟩
  by_cases e1 : q = .other n
  · rw [e1, h1] at ht
    cases ht
  · by_cases e2 : q = .runq
    · rw [e2, h2, List.mem_append] at ht
      rcases ht with ht | ht
      · exact .inr ⟨e2, _, ht⟩
      · exact .inl (e2 ▸ ht)
    · exact .inl (h3 q e1 e2 ▸ ht)

theorem cancel_settles {t : Nat} {kthr : Kthread} {retval : Int} {P : Nat → Prop} (h : QueuesOk k P)
    (hth : k.threads t = some kthr)
    (hs : sched_cancel (k.setThread t (some { kthr with kt_retval := retval })) t = some k') :
    Settles k k' ∧ k'.curthr = k.curthr := by
  have hr : k'.resume = k.resume := by
    simp only [sched_cancel, bind, Kernel.setThread_self, Option.bind_some, Option.bind_eq_some_iff] at hs
    obtain ⟨-, -, q, -, hs⟩ := hs
    split at hs
    · simp only [Option.bind_eq_some_iff] at hs
      obtain ⟨k₁, ho, hr⟩ := hs
      exact (make_runnable_resume hr).trans (takeOff_resume ho :)
    · cases hs
      rfl
  have hm : ∃ q, t ∈ k.tq_list q := by
    simp only [sched_cancel, bind, Kernel.setThread_self, Option.bind_some, Option.bind_eq_some_iff] at hs
    obtain ⟨-, -, q, hq, -⟩ := hs
    exact ⟨q, (h.wchan q t).2 ⟨kthr, hth, hq⟩⟩
  cases sched_cancel_cases h hth hs with
  | marked =>
    refine ⟨⟨rfl, fun _ _ h => .inl h, fun u hu => ?_⟩, rfl⟩
    obtain ⟨q, hq⟩ := hm
    have : u ≠ t := by
      rintro rfl
      exact hu q hq
    simp [Kernel.setThread, this]
  | woke _ _ hm _ hre hc => exact ⟨rehang_settles hre hr hm rfl, hc⟩

/-! ## Steps -/

theorem dead_family : Dead k c ↔ k.family.state c = some .dead := by
  simp [Dead, Kernel.family, Option.map_eq_some_iff]

/-- Process `p`, asleep in `do_waitpid`, has nothing to wait for any more. -/
def Overslept (k : Kernel) (p : Nat) : Prop :=
  (k.resume p = .waitAny ∧ ∃ c ∈ k.family.children p, Dead k c) ∨ ∃ c, k.resume p = .waitFor c ∧ Dead k c

/-- What a step does: who is asleep in `do_waitpid` afterwards was so before or
has looked at its children just now, and the parent of a process that ends is
awake. -/
structure Stepped (k k' : Kernel) (ch : Change) : Prop where
  awaiting : Awaiting k'
  family : k.family.Step ch k'.family
  waited : ∀ p, p ∈ k'.tq_list (.wait p) →
    (p ∈ k.tq_list (.wait p) ∧ k'.resume p = k.resume p) ∨ ¬ Overslept k' p
  woken : ∀ cur x p, ch = .ended cur x → k.family.parent cur = some p → p ∉ k'.tq_list (.wait p)

/-- How thread `t` gets on queue `q`: it was there, or on another queue before it
was woken; it was put on a queue to go on elsewhere; or it went to sleep in
`do_waitpid`. -/
inductive Arrives (k k' : Kernel) (q : Queue) (t : Nat) : Prop
  | stayed : t ∈ k.tq_list q → k'.resume t = k.resume t → Arrives k k' q t
  | woke (q' : Queue) : t ∈ k.tq_list q' → q = .runq → k'.resume t = k.resume t → Arrives k k' q t
  | joined : k'.resume t = .elsewhere → (∀ p, q ≠ .wait p) → Arrives k k' q t
  | slept : q = .wait t → (∀ c, k'.resume t = .waitFor c → c ∈ k'.family.children t) → ¬ Overslept k' t →
      Arrives k k' q t

theorem Stepped.of {ch : Change} (h : Awaiting k) (hq : QueuesOk k' fun _ => True) (hf : k.family.Step ch k'.family)
    (hcur : ∀ t, k'.curthr = some t → k'.threads t ≠ none ∧ ∀ q, t ∉ k'.tq_list q)
    (hl : ∀ q t, t ∈ k'.tq_list q → Arrives k k' q t)
    (hch : ∀ q, ∀ t ∈ k.tq_list q, ∀ c ∈ k.family.children t, c ∈ k'.family.children t)
    (hw : ∀ cur x p, ch = .ended cur x → k.family.parent cur = some p → p ∉ k'.tq_list (.wait p)) : Stepped k k' ch := by
  refine ⟨⟨hq, fun t ht => (hcur t ht).1, fun t ht => (hcur t ht).2, h.linked.step hf, fun p t ht => ?_,
    fun q t ht c hc => ?_⟩, hf, fun p hp => ?_, hw⟩
  · cases hl _ t ht with
    | stayed h1 => exact h.own p t h1
    | woke _ _ e => cases e
    | joined _ e => exact absurd rfl (e p)
    | slept e => cases e; rfl
  · cases hl _ t ht with
    | stayed h1 h2 => exact hch q t h1 c (h.awaited q t h1 c (h2 ▸ hc))
    | woke q' h1 _ h2 => exact hch q' t h1 c (h.awaited q' t h1 c (h2 ▸ hc))
    | joined h1 => rw [h1] at hc; cases hc
    | slept _ h1 => exact h1 c hc
  · cases hl _ p hp with
    | stayed h1 h2 => exact .inl ⟨h1, h2⟩
    | woke _ _ e => cases e
    | joined _ e => exact absurd rfl (e p)
    | slept _ _ h1 => exact .inr h1

theorem Settles.arrives {q : Queue} {t : Nat} (h : Settles k k') (ht : t ∈ k'.tq_list q) : Arrives k k' q t := by
  have hr : k'.resume t = k.resume t := by rw [h.resume]
  rcases h.lists q t ht with h1 | ⟨hq, q', h1⟩
  · exact .stayed h1 hr
  · exact .woke q' h1 hq hr

/-- The current thread stays, off the queues. -/
theorem Settles.running (h : Settles k k') (hk : Awaiting k) (hc : ∀ t, k'.curthr = some t → k.curthr = some t) :
    ∀ t, k'.curthr = some t → k'.threads t ≠ none ∧ ∀ q, t ∉ k'.tq_list q := by
  intro t ht
  have hi := hk.idle t (hc t ht)
  refine ⟨by rw [h.still t hi]; exact hk.alive t (hc t ht), fun q hm => ?_⟩
  rcases h.lists q t hm with h1 | ⟨-, q', h1⟩
  · exact hi q h1
  · exact hi q' h1

theorem Stepped.settle (h : Awaiting k) (hq : QueuesOk k' fun _ => True) (ht : k'.table = k.table) (hs : Settles k k')
    (hc : k'.curthr = k.curthr) : Stepped k k' .quiet := by
  have hf := family_table ht
  refine .of h hq (by rw [hf]; exact .quiet) (hs.running h fun t e => hc ▸ e) (fun _ _ => hs.arrives)
    (fun _ _ _ c hc => by rw [hf]; exact hc) ?_
  rintro _ _ _ ⟨⟩

theorem sleepOn_resume {q : Queue} {st : ThreadState} {r : Resume} (h : sleepOn k cur q st r = some k') :
    k'.resume = Function.update k.resume cur r := by
  simp only [sleepOn, ktqueue_enqueue, bind, Option.bind_eq_some_iff, Option.some.injEq] at h
  obtain ⟨-, -, -, ⟨-, -, -, -, rfl⟩, rfl⟩ := h
  rfl

/-- The current thread goes to sleep, maybe in `do_waitpid`. -/
theorem Stepped.sleep {q : Queue} {st : ThreadState} {r : Resume} (h : Awaiting k) (hc : k.curthr = some cur)
    (hq : q ≠ .runq) (hst : st = .sleep ∨ st = .sleep_cancellable) (hs : sleepOn k cur q st r = some k')
    (hr : (r = .elsewhere ∧ ∀ p, q ≠ .wait p) ∨ (q = .wait cur ∧ (∀ c, r = .waitFor c → c ∈ k.family.children cur) ∧
      (r = .waitAny → ∀ c ∈ k.family.children cur, ¬ Dead k c) ∧ ∀ c, r = .waitFor c → ¬ Dead k c)) :
    Stepped k k' .quiet := by
  obtain ⟨th, hth, hw, hre, hcur⟩ := sleepOn_rehang h.queues hs
  have ht := sleepOn_table hs
  have hf := family_table ht
  have hres := sleepOn_resume hs
  refine .of h (sleepOn_keeps h.queues hq hst hc hs).queues (by rw [hf]; exact .quiet)
    (fun t e => by rw [hcur] at e; cases e) (fun q' t hm => ?_) (fun _ _ _ c hc => by rw [hf]; exact hc) ?_
  · by_cases e : t = cur
    · subst e
      have hq' : q' = q := by
        rw [hre.lists, List.erase_of_not_mem (h.idle t hc q'), List.mem_append] at hm
        replace hm := hm.resolve_right (h.idle t hc q')
        split at hm
        next e => exact (Option.some.inj e).symm
        next => cases hm
      subst hq'
      have hrt : k'.resume t = r := by rw [hres, Function.update_self]
      rcases hr with ⟨h1, h2⟩ | ⟨h1, h2, h3, h4⟩
      · exact .joined (hrt.trans h1) h2
      · refine .slept h1 (fun c e => by rw [hf]; exact h2 c (hrt ▸ e)) ?_
        unfold Overslept
        rw [hrt, hf]
        rintro (⟨e, c, hcm, hd⟩ | ⟨c, e, hd⟩)
        · exact h3 e c hcm ((dead_table ht).1 hd)
        · exact h4 c e ((dead_table ht).1 hd)
    · have hrt : k'.resume t = k.resume t := by rw [hres, Function.update_of_ne e]
      rw [hre.lists, List.mem_append] at hm
      refine .stayed ((hm.resolve_left fun h1 => ?_) |> List.mem_of_mem_erase) hrt
      split at h1
      · exact e (List.mem_singleton.1 h1)
      · cases h1
  · rintro _ _ _ ⟨⟩

/-- A thread that is on no queue is put on `kt_runq`, to go on elsewhere. -/
theorem Stepped.join {ch : Change} {t : Nat} (h : Awaiting k) (hq : QueuesOk k' fun _ => True)
    (hf : k.family.Step ch k'.family) (hl : ∀ q u, u ∈ k'.tq_list q → u ∈ k.tq_list q ∨ (u = t ∧ q = .runq))
    (hn : ∀ q, t ∉ k.tq_list q) (hr : k'.resume = Function.update k.resume t .elsewhere)
    (hc : ∀ u, k'.curthr = some u → k.curthr = some u ∧ u ≠ t ∧ k'.threads u ≠ none)
    (hch : ∀ p, ∀ x ∈ k.family.children p, x ∈ k'.family.children p) (he : ∀ cur x, ch ≠ .ended cur x) :
    Stepped k k' ch := by
  refine .of h hq hf (fun u hu => ⟨(hc u hu).2.2, fun q hm => ?_⟩) (fun q u hm => ?_) (fun _ t _ => hch t)
    fun cur x _ e => absurd e (he cur x)
  · obtain ⟨h1, h2, -⟩ := hc u hu
    rcases hl q u hm with h3 | ⟨h3, -⟩
    · exact h.idle u h1 q h3
    · exact h2 h3
  · rcases hl q u hm with h1 | ⟨rfl, rfl⟩
    · have : u ≠ t := fun e => hn q (e ▸ h1)
      exact .stayed h1 (by rw [hr, Function.update_of_ne this])
    · exact .joined (by rw [hr, Function.update_self]) (by simp)

theorem make_runnable_lists {t : Nat} {P : Nat → Prop} (h : QueuesOk k P) (hm : sched_make_runnable k t = some k') :
    ∀ q u, u ∈ k'.tq_list q → u ∈ k.tq_list q ∨ (u = t ∧ q = .runq) := by
  intro q u hu
  obtain ⟨th, -, -, hr⟩ := make_runnable_rehang h hm
  rw [hr.lists, List.mem_append] at hu
  rcases hu with hu | hu
  · split at hu
    next e => exact .inr ⟨List.mem_singleton.1 hu, (Option.some.inj e).symm⟩
    next => cases hu
  · exact .inl (List.mem_of_mem_erase hu)

theorem Stepped.yield {k₁ : Kernel} (h : Awaiting k) (hc : k.curthr = some cur)
    (hm : sched_make_runnable (k.setResume cur .elsewhere) cur = some k₁) : Stepped k (k₁.setCur none) .quiet := by
  have h0 : QueuesOk (k.setResume cur .elsewhere) fun _ => True := h.queues.congr rfl rfl rfl fun _ hu => hu
  have h1 := (make_runnable_keeps h0 hm).queues.loosen
  have ht : k₁.table = k.table := (sched_make_runnable_table hm :)
  have hlist : ∀ q u, u ∈ k₁.tq_list q → u ∈ k.tq_list q ∨ (u = cur ∧ q = .runq) :=
    make_runnable_lists (k := k.setResume cur .elsewhere) h0 hm
  have hres : k₁.resume = Function.update k.resume cur .elsewhere := make_runnable_resume hm
  refine .join h (dropCur h1 fun _ _ _ _ _ => .inr trivial) ?_ hlist (h.idle cur hc) hres (by rintro u ⟨⟩)
    (fun p x hx => ?_) (by simp)
  · rw [family_table (show (k₁.setCur none).table = k.table from ht)]
    exact .quiet
  · rw [family_table (show (k₁.setCur none).table = k.table from ht)]
    exact hx

theorem Stepped.start {k₁ : Kernel} {p : Nat} (h : Awaiting k) (hcr : kthread_create k p = some k₁)
    (hm : sched_make_runnable k₁ p = some k') : Stepped k k' .quiet := by
  have h1 := (create_keeps h.queues (.inl rfl) hcr).queues
  have h2 := (make_runnable_keeps h1 hm).queues.loosen
  have hres := make_runnable_resume hm
  have hlist := make_runnable_lists h1 hm
  have hcur := make_runnable_curthr hm
  have ht := sched_make_runnable_table hm
  obtain ⟨_, -, -, hre⟩ := make_runnable_rehang h1 hm
  simp only [kthread_create, kthread_create_as, bind, Option.bind_eq_some_iff, KASSERT_eq_some, Option.some.injEq] at hcr
  obtain ⟨-, -, -, hn, rfl⟩ := hcr
  have hf := family_table (show k'.table = k.table from ht)
  refine .join h h2 (by rw [hf]; exact .quiet) hlist (h.queues.absent hn) hres (fun u hu => ?_)
    (fun p x hx => by rw [hf]; exact hx) (by simp)
  rw [hcur] at hu
  have hne : u ≠ p := by
    rintro rfl
    exact h.alive u hu hn
  refine ⟨hu, hne, ?_⟩
  rw [hre.threads, Function.update_of_ne hne]
  simpa [Kernel.setThread, Kernel.setResume, hne] using h.alive u hu

theorem proc_create_rest (h : proc_create MAX k cur = some (k', c)) :
    k'.resume = k.resume ∧ c = k.nprocs ∧ k'.threads = k.threads ∧ k'.tq_list = k.tq_list ∧ k'.tq_size = k.tq_size ∧
      k'.curthr = k.curthr := by
  have hres : k'.resume = k.resume := by
    simp only [proc_create, bind, Option.bind_eq_some_iff, Option.some.injEq, Prod.mk.injEq] at h
    obtain ⟨pr, -, -, -, -, -, rfl, -⟩ := h
    simp only [Kernel.addChildren, Kernel.setProc]
    split <;> rfl
  obtain ⟨hc, pr, n, -, -, hs⟩ := proc_create_effect h
  exact ⟨hres, hc, hs.threads, hs.tq_list, hs.tq_size, hs.curthr⟩

/-- The family step of a new child of the current process. -/
theorem create_step (h : Awaiting k) (ha : ¬ Dead k cur) (hcr : proc_create MAX k cur = some (k', c)) :
    k.family.Step .created k'.family ∧ ∀ p, ∀ x ∈ k.family.children p, x ∈ k'.family.children p := by
  obtain ⟨pid, h1, h2, h3, h4⟩ := proc_create_family hcr
  rw [h4]
  exact ⟨.created h1 (fun e => ha (dead_family.2 e)) h2 h3, fun p x hx => (Family.mem_create h.linked h1).2 (.inl hx)⟩

theorem Stepped.create (h : Awaiting k) (ha : ¬ Dead k cur) (hcr : proc_create MAX k cur = some (k', c)) :
    Stepped k k' .created := by
  obtain ⟨hres, -, hth, hl, hsz, hcur⟩ := proc_create_rest hcr
  obtain ⟨h1, h2⟩ := create_step h ha hcr
  refine .of h (h.queues.congr hth hl hsz fun _ _ => .inr trivial) h1
    (by rw [hcur, hl, hth]; exact fun t ht => ⟨h.alive t ht, h.idle t ht⟩) (fun q t hm => ?_) (fun _ t _ => h2 t) ?_
  · exact .stayed (hl ▸ hm) (by rw [hres])
  · rintro _ _ _ ⟨⟩

theorem Stepped.fork (h : Awaiting k) (ha : ¬ Dead k cur) (hc : k.curthr = some cur)
    (hx : do_fork MAX k cur = some (k', c)) : Stepped k k' .created := by
  simp only [do_fork, bind, Option.bind_eq_some_iff, Option.some.injEq, Prod.mk.injEq, Prod.exists] at hx
  obtain ⟨k₁, c', hcr, k₂, hcl, k₃, hm, rfl, rfl⟩ := hx
  obtain ⟨hres, -, hth, hl, hsz, hcur⟩ := proc_create_rest hcr
  obtain ⟨hf, hch⟩ := create_step h ha hcr
  have h1 : QueuesOk k₁ fun _ => True := h.queues.congr hth hl hsz fun _ _ => .inr trivial
  have h2 := (clone_keeps h1 hcl).queues.loosen
  have h3 := (make_runnable_keeps h2 hm).queues.loosen
  have hlist := make_runnable_lists h2 hm
  have hres' := make_runnable_resume hm
  have hcur' := make_runnable_curthr hm
  have ht := sched_make_runnable_table hm
  obtain ⟨_, -, -, hre⟩ := make_runnable_rehang h2 hm
  -- the clone is on no queue, as its original is on none
  simp only [kthread_clone, bind, Option.bind_eq_some_iff, KASSERT_eq_some] at hcl
  obtain ⟨thr, hthr, -, hn, -, -, hcl⟩ := hcl
  have hw : thr.kt_wchan = none := by
    cases hq : thr.kt_wchan with
    | none => rfl
    | some q =>
      have := (h1.wchan q cur).2 ⟨thr, hthr, hq⟩
      rw [hl] at this
      exact absurd this (h.idle cur hc q)
  rw [hw] at hcl
  cases hcl
  have hf' : k₃.family = k₁.family := family_table ht
  refine .join (t := c') h h3 (by rw [hf']; exact hf) (fun q u hu => ?_) (fun q => ?_) ?_ (fun u hu => ?_)
    (by rw [hf']; exact hch) (by simp)
  · rw [← hl]
    exact hlist q u hu
  · rw [← hl]
    exact h1.absent hn q
  · rw [hres', ← hres]
    rfl
  · rw [hcur'] at hu
    change k₁.curthr = some u at hu
    rw [hcur] at hu
    have hne : u ≠ c' := by
      rintro rfl
      rw [hc] at hu
      cases hu
      rw [hthr] at hn
      cases hn
    refine ⟨hu, hne, ?_⟩
    rw [hre.threads, Function.update_of_ne hne]
    simpa [Kernel.setThread, Kernel.setResume, hne, hth] using h.alive u hu

/-- Before a step the kernel may change where nobody sees it. -/
theorem Stepped.after {k₁ : Kernel} {ch : Change} (h : Stepped k₁ k' ch)
    (hl : ∀ p, p ∈ k₁.tq_list (.wait p) → p ∈ k.tq_list (.wait p)) (hr : k₁.resume = k.resume)
    (hf : k₁.family = k.family) : Stepped k k' ch := by
  refine ⟨h.awaiting, hf ▸ h.family, fun p hp => (h.waited p hp).imp_left fun ⟨h1, h2⟩ => ⟨hl p h1, hr ▸ h2⟩, ?_⟩
  rw [← hf]
  exact h.woken

theorem reparent_resume {cs : List Nat} : ∀ {k k' : Kernel}, reparent ini k cs = some k' → k'.resume = k.resume := by
  induction cs with
  | nil => intro k k' h; cases h; rfl
  | cons c cs ih =>
    intro k k' h
    simp only [reparent, bind, Option.bind_eq_some_iff] at h
    obtain ⟨_, -, _, -, h⟩ := h
    exact (ih h :)

theorem eq_singleton {l : List Nat} {a : Nat} (hn : l.Nodup) (ha : a ∈ l) (h : ∀ x ∈ l, x = a) : l = [a] := by
  cases l with
  | nil => cases ha
  | cons x xs =>
    have hx := h x (by simp)
    have hxs : xs = [] := List.eq_nil_iff_forall_not_mem.2 fun y hy => by
      have := h y (by simp [hy])
      exact (List.nodup_cons.1 hn).1 (hx ▸ this ▸ hy)
    rw [hx, hxs]

theorem Stepped.exit {retval x : Int} (h : Awaiting k) (hc : k.curthr = some cur)
    (hx : kthread_exit k cur retval = some k') : Stepped k k' (.ended cur x) := by
  have hq := (exit_keeps h.queues hc hx).queues
  obtain ⟨ini, h1, h2, h3, h4⟩ := kthread_exit_family h.linked hx
  simp only [kthread_exit, proc_cleanup, bind, Option.bind_eq_some_iff, KASSERT_eq_some, Option.some.injEq] at hx
  obtain ⟨th, hth, -, hw, _, ⟨ini, -, pr, hpr, -, -, k₂, hwk, -, -, k₃, hre, pr', -, rfl⟩, rfl⟩ := hx
  have hne : ∀ q, ∀ t ∈ k.tq_list q, t ≠ cur := fun q t ht e => h.idle cur hc q (e ▸ ht)
  have hk₁ : QueuesOk (k.setThread cur (some { th with kt_retval := retval, kt_state := .exited })) fun _ => True := by
    have hr : Rehang k (k.setThread cur (some { th with kt_retval := retval, kt_state := .exited })) cur
        { th with kt_retval := retval, kt_state := .exited } :=
      ⟨rfl, fun q => by simp [Kernel.setThread, hw, List.erase_of_not_mem (h.idle cur hc q)],
        fun q => by simp [Kernel.setThread, hw, h.idle cur hc q]⟩
    exact h.queues.rehang hr (by constructor <;> simp [hw]) fun _ _ _ => .inr trivial
  obtain ⟨hs, -, hempty⟩ := wakeup_settles hk₁ hwk
  have hl₃ : k₃.tq_list = k₂.tq_list := (reparent_ends hre).tq_list
  have hr₃ : k₃.resume = k.resume := (reparent_resume hre).trans hs.resume
  refine .of h hq (by rw [h4]; exact .ended h1 h2 h3) (by rintro t ⟨⟩) (fun q t ht => ?_) (fun q t ht c hcm => ?_) ?_
  · change t ∈ k₃.tq_list q at ht
    rw [hl₃] at ht
    have hrt : k₃.resume t = k.resume t := by rw [hr₃]
    rcases hs.lists q t ht with h5 | ⟨h5, q', h6⟩
    · exact .stayed h5 hrt
    · exact .woke q' h6 h5 hrt
  · rw [h4]
    exact Family.mem_exit (hne q t ht) hcm
  · rintro _ _ p ⟨⟩ hp hm
    have hpp : pr.p_pproc = p := by
      have : k.procs cur = some pr := hpr
      simpa [Kernel.family, this] using hp
    subst hpp
    change pr.p_pproc ∈ k₃.tq_list (.wait pr.p_pproc) at hm
    rw [hl₃] at hm
    -- if the parent sleeps it is alone on its queue, and is woken
    have hin : pr.p_pproc ∈ k.tq_list (.wait pr.p_pproc) := by
      rcases hs.lists _ _ hm with h5 | ⟨h5, -⟩
      · exact h5
      · cases h5
    have hone : k.tq_list (.wait pr.p_pproc) = [pr.p_pproc] := eq_singleton (h.queues.once _) hin (h.own _)
    rw [hempty _ hone (by simp)] at hm
    cases hm

/-- A thread that has exited, and is on no queue, is taken away. -/
theorem bury_queues {P : Nat → Prop} (h : QueuesOk k P) (hz : ∀ q, z ∉ k.tq_list q)
    (h1 : k'.threads = Function.update k.threads z none) (h2 : k'.tq_list = k.tq_list) (h3 : k'.tq_size = k.tq_size)
    (h4 : k'.curthr = k.curthr) : QueuesOk k' P := by
  refine .of_fits (by rw [h2]; exact h.once) (fun q t => ?_) (by rw [h2, h3]; exact h.size) (fun t th ht => ?_)
  · rw [h1, h2]
    by_cases e : t = z
    · simp [e, hz q]
    · simpa [e] using h.wchan q t
  · rw [h1, Function.update_apply] at ht
    split at ht
    · cases ht
    · rw [h4]
      exact h.fits ht

theorem Stepped.reap (h : Awaiting k) (hc : k.curthr = some cur) (ha : ¬ Dead k cur) (hz : z ∈ k.family.children cur)
    (hd : Dead k z) (hx : reap k cur z = some (k', w)) : Stepped k k' (change (e, w)) := by
  have hf := reap_family (e := e) hz hd hx
  simp only [VmSubmit.reap, disposeZombie, bind, Option.bind_eq_some_iff, KASSERT_eq_some, Option.some.injEq,
    Prod.mk.injEq] at hx
  obtain ⟨zom, hzom, _, ⟨t, ht, -, hex, par, hpar, rfl⟩, rfl, rfl⟩ := hx
  have hfam := bury_family (z := z) (show k.procs cur = some par from hpar)
  have hcz : cur ≠ z := fun e => ha (e ▸ hd)
  have hzq := h.queues.exited_out ht hex
  refine .of h (bury_queues h.queues hzq rfl rfl rfl rfl) hf (fun t ht => ⟨?_, h.idle t ht⟩) (fun q t hm => .stayed hm rfl)
    (fun q t hm c hcm => ?_) ?_
  · have e : t = cur := Option.some.inj (ht.symm.trans hc)
    subst e
    simpa [Kernel.setThread, Kernel.setProc, Kernel.setList, hcz] using h.alive t hc
  · have h1 : t ≠ cur := fun e => h.idle cur hc q (e ▸ hm)
    have h2 : t ≠ z := fun e => hzq q (e ▸ hm)
    have h3 : (k.family.reap cur z).children t = k.family.children t := by simp [Family.reap, h1, h2]
    exact Eq.subst (motive := fun f => c ∈ Family.children f t) hfam.symm (h3.symm ▸ hcm)
  · rintro _ _ _ ⟨⟩

theorem Stepped.switch {t : Nat} (h : Awaiting k) (hs : sched_switch_to k = some (k', t)) :
    Stepped k k' .quiet ∧ (∀ p, p ∈ k'.tq_list (.wait p) → p ∈ k.tq_list (.wait p)) ∧ k'.resume = k.resume ∧
      ∀ c, k'.resume t = .waitFor c → c ∈ k'.family.children t := by
  obtain ⟨-, hl, hcur, th, hth, -, hr⟩ := switch_to_rehang h.queues hs
  have hf := family_table (sched_switch_to_table hs)
  have hres : k'.resume = k.resume := by
    simp only [sched_switch_to, bind, Option.bind_eq_some_iff, Prod.exists] at hs
    obtain ⟨-, -, k₁, r, h1, h2⟩ := hs
    rcases dequeue_cases h1 with ⟨-, -, rfl⟩ | ⟨u, -, rfl, ho⟩
    · cases h2
    · cases h2
      exact (takeOff_resume ho :)
  have hlist : ∀ q u, u ∈ k'.tq_list q ↔ u ≠ t ∧ u ∈ k.tq_list q := fun q u => by
    rw [hr.lists, if_neg (by simp), List.nil_append, (h.queues.once q).mem_erase_iff]
  refine ⟨.of h (found_keeps h.queues hs).queues (by rw [hf]; exact .quiet) (fun u hu => ?_)
    (fun q u hu => .stayed ((hlist q u).1 hu).2 (by rw [hres])) (fun _ _ _ c hc => by rw [hf]; exact hc) ?_,
    fun p hp => ((hlist _ _).1 hp).2, hres, fun c hc => ?_⟩
  · rw [hcur] at hu
    cases hu
    exact ⟨by rw [hr.threads]; simp, fun q hq => ((hlist q t).1 hq).1 rfl⟩
  · rintro _ _ _ ⟨⟩
  · rw [hf]
    exact h.awaited _ t (List.mem_of_getLast? hl) c (hres ▸ hc)

theorem Stepped.refl (h : Awaiting k) : Stepped k k .quiet := .settle h h.queues rfl (.refl k) rfl

/-- The current thread sleeps on its own `p_wait`. -/
theorem Stepped.wait {r : Resume} (h : Awaiting k) (hc : k.curthr = some cur)
    (hs : sched_sleep_on k cur (.wait cur) r = some k') (h1 : ∀ c, r = .waitFor c → c ∈ k.family.children cur)
    (h2 : r = .waitAny → ∀ c ∈ k.family.children cur, ¬ Dead k c) (h3 : ∀ c, r = .waitFor c → ¬ Dead k c) :
    Stepped k k' .quiet := by
  exact .sleep h hc (by simp) (.inl rfl) (sched_sleep_on_sleeps hs) (.inr ⟨rfl, h1, h2, h3⟩)

theorem Stepped.waitAny (h : Awaiting k) (hc : k.curthr = some cur) (ha : ¬ Dead k cur)
    (hx : waitAny k cur = some (k', w)) : Stepped k k' (change (e, w)) := by
  rcases waitAny_family hx with ⟨z, h1, h2, h3⟩ | ⟨h1, rfl, h3⟩
  · exact .reap h hc ha h1 h2 h3
  · exact .wait h hc h3 (by rintro _ ⟨⟩) (fun _ => h1) (by rintro _ ⟨⟩)

theorem Stepped.waitFor (h : Awaiting k) (hc : k.curthr = some cur) (ha : ¬ Dead k cur) (hm : c ∈ k.family.children cur)
    (hx : waitFor k cur c = some (k', w)) : Stepped k k' (change (e, w)) := by
  rcases waitFor_family hx with ⟨h2, h3⟩ | ⟨h1, rfl, h3⟩
  · exact .reap h hc ha hm h2 h3
  · exact .wait h hc h3 (by rintro _ ⟨⟩; exact hm) (by rintro ⟨⟩) (by rintro _ ⟨⟩; exact h1)

theorem Stepped.do_waitpid {pid : Int} (h : Awaiting k) (hc : k.curthr = some cur) (ha : ¬ Dead k cur)
    (hx : do_waitpid k cur pid = some (k', w)) : Stepped k k' (change (e, w)) := by
  obtain ⟨pr, hpr, ⟨rfl, rfl⟩ | ⟨-, hx⟩ | ⟨c, hchild, -, hx⟩⟩ := do_waitpid_cases hx
  · exact .refl h
  · exact .waitAny h hc ha hx
  · refine .waitFor h hc ha ?_ hx
    simpa [Kernel.family, hpr] using hchild

theorem Stepped.dispatch (hk : Queues k) (h : Awaiting k) (hx : dispatch k = some (k', w)) :
    Stepped k k' (change (e, w)) := by
  simp only [VmSubmit.dispatch, bind, Option.bind_eq_some_iff, Prod.exists] at hx
  obtain ⟨k₁, t, h1, hx⟩ := hx
  obtain ⟨hs, hl, hr, hfor⟩ := Stepped.switch h h1
  have hf := family_table (sched_switch_to_table h1)
  have hc := sched_switch_to_curthr h1
  have ha := (hk.switch_to h1).cur t hc
  split at hx
  · cases hx
    exact hs
  · exact .after (.waitAny hs.awaiting hc ha hx) hl hr hf
  next c hres => exact .after (.waitFor hs.awaiting hc ha (hfor c hres) hx) hl hr hf

theorem Stepped.fault {addr x : Int} (h : Awaiting k) (hc : k.curthr = some cur) (hx : fault k cur addr = some k') :
    Stepped k k' (.ended cur x) := by
  simp only [VmSubmit.fault, bind, Option.bind_eq_some_iff] at hx
  obtain ⟨pr, hpr, hx⟩ := hx
  have hf : (k.setProc cur (some { pr with p_status := EFAULT })).family = k.family := by
    have hst : k.family.state cur = some pr.p_state := by simp [Kernel.family, hpr]
    apply (family_setProc hpr (by rfl) (by rfl) (by rfl)).trans
    simp [← hst]
  have h' : Awaiting (k.setProc cur (some { pr with p_status := EFAULT })) :=
    ⟨h.queues.congr rfl rfl rfl fun _ hu => hu, h.alive, h.idle, hf ▸ h.linked, h.own, by rw [hf]; exact h.awaited⟩
  have hst : Stepped (k.setProc cur (some { pr with p_status := EFAULT })) k' (.ended cur x) := .exit h' hc hx
  exact hst.after (fun _ hp => hp) rfl hf

theorem step_stepped (hk : Queues k) (h : Awaiting k) (hx : step MAX k e = some (k', w)) :
    Stepped k k' (change (e, w)) := by
  cases e with simp only [step, bind, Option.bind_eq_some_iff, Option.some.injEq, Prod.mk.injEq, Prod.exists] at hx
  | wakeup n =>
    obtain ⟨k₁, h1, rfl, rfl⟩ := hx
    obtain ⟨hs, hc, -⟩ := wakeup_settles h.queues h1
    obtain ⟨r, he⟩ := wakeup_effect h.queues h1
    exact .settle h (he.keeps h.queues).queues (sched_wakeup_on_table h1) hs hc
  | broadcast n =>
    obtain ⟨k₁, h1, rfl, rfl⟩ := hx
    obtain ⟨hs, hc⟩ := broadcast_settles h.queues h1
    exact .settle h (sched_broadcast_on_keeps h.queues (by simp) h1).queues (broadcast_from_table wakeTail_table h1) hs hc
  | dispatch => exact .dispatch hk h hx
  | proc_create =>
    obtain ⟨cur, hc, k₁, c, h1, rfl, rfl⟩ := hx
    exact .create h (hk.cur cur hc) h1
  | start p =>
    obtain ⟨cur, -, k₁, h1, k₂, h2, rfl, rfl⟩ := hx
    exact .start h h1 h2
  | fork =>
    obtain ⟨cur, hc, k₁, c, h1, rfl, rfl⟩ := hx
    exact .fork h (hk.cur cur hc) hc h1
  | do_exit addr status =>
    obtain ⟨cur, hc, k₁, h0, rfl, rfl⟩ := hx
    have h1 := do_exit_exits h0
    exact .exit h hc h1
  | fault addr =>
    obtain ⟨cur, hc, k₁, h1, rfl, rfl⟩ := hx
    exact .fault h hc h1
  | kthread_exit retval =>
    obtain ⟨cur, hc, k₁, h1, rfl, rfl⟩ := hx
    exact .exit h hc h1
  | kthread_cancel t retval =>
    obtain ⟨cur, hc, k₁, ex, h0, rfl, rfl⟩ := hx
    obtain ⟨-, h1, rfl⟩ | ⟨-, kthr, ht, h1, rfl⟩ := kthread_cancel_cases h0
    · exact .exit h hc h1
    · obtain ⟨hs, hc'⟩ := cancel_settles h.queues ht h1
      exact .settle h ((sched_cancel_cases h.queues ht h1).keeps h.queues).queues (sched_cancel_effect hk ht h1).2 hs hc'
  | do_waitpid pid =>
    obtain ⟨cur, hc, hx⟩ := hx
    exact .do_waitpid h hc (hk.cur cur hc) hx
  | sleep n =>
    obtain ⟨cur, hc, k₁, h1, rfl, rfl⟩ := hx
    exact .sleep h hc (by simp) (.inl rfl) (sched_sleep_on_sleeps h1) (.inl ⟨rfl, by simp⟩)
  | cancellable_sleep n =>
    obtain ⟨cur, hc, hx⟩ := hx
    obtain ⟨thr, -, ⟨-, rfl, rfl⟩ | ⟨-, h1, rfl⟩⟩ := sched_cancellable_sleep_on_cases hx
    · exact .refl h
    · exact .sleep h hc (by simp) (.inr rfl) h1 (.inl ⟨rfl, by simp⟩)
  | yield =>
    obtain ⟨cur, hc, k₁, h1, rfl, rfl⟩ := hx
    exact .yield h hc h1

theorem boot_family (p : Nat) : Kernel.boot.family.children p = [] ∧
    Kernel.boot.family.parent p = if p = 0 then some 0 else none := by
  simp only [Kernel.family, Kernel.boot]
  split <;> simp

theorem boot_linked : Kernel.boot.family.Linked := by
  refine ⟨fun p c hc => ?_, fun p => ?_, fun p hp => ?_, fun p _ => (boot_family p).1⟩
  · rw [(boot_family p).1] at hc
    cases hc
  · rw [(boot_family p).1]
    exact .nil
  · rw [(boot_family p).2] at hp
    have : p = 0 := by
      by_contra e
      exact hp (if_neg e)
    rw [this]
    exact Nat.one_pos

theorem boot_awaiting : Awaiting Kernel.boot := by
  refine ⟨boot_started.queues, fun t ht => ?_, fun t _ q hq => ?_, boot_linked, fun p t ht => ?_, fun q t ht => ?_⟩
  · cases ht
    simp [Kernel.boot]
  · cases hq
  · cases ht
  · cases ht

end Weenix.Proc.VmSubmit
