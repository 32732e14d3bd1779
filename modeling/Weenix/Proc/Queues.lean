import Weenix.Proc.State
import Mathlib.Data.List.Nodup
/-!
# Queues

A thread on a queue has not exited, and is there once; its `kt_wchan` names the
queue. `Queues` adds what a run keeps about dead processes: their thread has
exited, so it is on no queue, and the current thread's process is not dead.
-/

namespace Weenix.Proc

/-- Process `p` is there, and has ended. -/
def Dead (k : Kernel) (p : Nat) : Prop := ∃ pr, k.procs p = some pr ∧ pr.p_state = .dead

structure Queues (k : Kernel) : Prop where
  nodup : ∀ q, (k.tq_list q).Nodup
  linked : ∀ q, ∀ t ∈ k.tq_list q, ∃ th, k.threads t = some th ∧ th.kt_wchan = some q ∧ th.kt_state ≠ .exited
  dead : ∀ p, Dead k p → ∃ th, k.threads p = some th ∧ th.kt_state = .exited ∧ th.kt_wchan = none
  cur : ∀ t, k.curthr = some t → ¬ Dead k t

variable {k k' : Kernel} {q : Queue} {t : Nat} {th : Kthread}

theorem dead_table (h : k'.table = k.table) {p : Nat} : Dead k' p ↔ Dead k p := by
  have : k'.procs = k.procs := congrArg Table.procs h
  simp only [Dead, this]

theorem sched_switch_to_curthr (h : sched_switch_to k = some (k', t)) : k'.curthr = some t := by
  simp only [sched_switch_to, bind, Option.bind_eq_some_iff, Prod.exists] at h
  obtain ⟨-, -, k₁, r, h1, h⟩ := h
  cases r with
  | none => cases h
  | some t' => cases h; rfl

namespace Queues

theorem alive_of_mem (hk : Queues k) (h : t ∈ k.tq_list q) : ¬ Dead k t := fun hd => by
  obtain ⟨th, h1, -, h2⟩ := hk.linked q t h
  obtain ⟨th', h3, h4, -⟩ := hk.dead t hd
  cases h1.symm.trans h3
  exact h2 h4

/-- A thread changes in place; its `kt_wchan` does not. -/
theorem setThread (hk : Queues k) (th' : Kthread) (hth : k.threads t = some th) (hw : th'.kt_wchan = th.kt_wchan)
    (hd : Dead k t → th'.kt_state = .exited) (hs : th'.kt_state = .exited → ∀ q, t ∉ k.tq_list q) :
    Queues (k.setThread t (some th')) where
  nodup := hk.nodup
  linked q u hu := by
    obtain ⟨tu, h1, h2, h3⟩ := hk.linked q u hu
    by_cases hut : u = t
    · subst hut
      cases h1.symm.trans hth
      exact ⟨th', Kernel.setThread_self .., by rw [hw, h2], fun e => hs e q hu⟩
    · exact ⟨tu, by simpa [Kernel.setThread, hut] using h1, h2, h3⟩
  dead p hp := by
    obtain ⟨tp, h1, h2, h3⟩ := hk.dead p hp
    by_cases hpt : p = t
    · subst hpt
      cases h1.symm.trans hth
      exact ⟨th', Kernel.setThread_self .., hd hp, hw.trans h3⟩
    · exact ⟨tp, by simpa [Kernel.setThread, hpt] using h1, h2, h3⟩
  cur u hu := hk.cur u hu

/-- So it does when it keeps its state. -/
theorem setThread_same (hk : Queues k) (th' : Kthread) (hth : k.threads t = some th) (hw : th'.kt_wchan = th.kt_wchan)
    (hs : th'.kt_state = th.kt_state) : Queues (k.setThread t (some th')) := by
  refine hk.setThread th' hth hw (fun hd => ?_) (fun he q hq => ?_)
  · obtain ⟨tp, h1, h2, -⟩ := hk.dead t hd
    cases h1.symm.trans hth
    exact hs.trans h2
  · obtain ⟨tp, h1, -, h2⟩ := hk.linked q t hq
    cases h1.symm.trans hth
    exact h2 (hs.symm.trans he)

theorem setResume (hk : Queues k) (r : Resume) : Queues (k.setResume t r) := ⟨hk.nodup, hk.linked, hk.dead, hk.cur⟩

theorem setCur (hk : Queues k) {c : Option Nat} (hc : ∀ t, c = some t → ¬ Dead k t) : Queues (k.setCur c) :=
  ⟨hk.nodup, hk.linked, hk.dead, hc⟩

/-- A thread without a queue is on none. -/
theorem not_mem (hk : Queues k) (hth : k.threads t = some th) (hw : th.kt_wchan ≠ some q) : t ∉ k.tq_list q := fun h => by
  obtain ⟨th', h1, h2, -⟩ := hk.linked q t h
  cases hth.symm.trans h1
  exact hw h2

theorem enqueue (hk : Queues k) (hd : ¬ Dead k t) (hs : ∀ th, k.threads t = some th → th.kt_state ≠ .exited) (h : ktqueue_enqueue k q t = some k') : Queues k' := by
  simp only [ktqueue_enqueue, bind, Option.bind_eq_some_iff, KASSERT_eq_some, Option.some.injEq] at h
  obtain ⟨th, hth, -, hw, rfl⟩ := h
  refine ⟨fun q' => ?_, fun q' u hu => ?_, fun p hp => ?_, fun u hu => hk.cur u hu⟩
  · simp only [Kernel.setThread, Kernel.setQueue, Function.update_apply]
    split
    · next e => subst e; exact List.nodup_cons.2 ⟨hk.not_mem hth (by simp [hw]), hk.nodup _⟩
    · exact hk.nodup q'
  · simp only [Kernel.setThread, Kernel.setQueue, Function.update_apply] at hu ⊢
    by_cases e : u = t
    · subst e
      split at hu
      · next e' => subst e'; exact ⟨_, if_pos rfl, rfl, hs th hth⟩
      · exact absurd hu (hk.not_mem hth (by simp [hw]))
    · rw [if_neg e]
      split at hu
      · next e' => subst e'; exact hk.linked _ u ((List.mem_cons.1 hu).resolve_left e)
      · exact hk.linked q' u hu
  · obtain ⟨tp, h1, h2⟩ := hk.dead p hp
    have hpt : p ≠ t := fun e => hd (e ▸ hp)
    exact ⟨tp, by simpa [Kernel.setThread, Kernel.setQueue, hpt] using h1, h2⟩

theorem takeOff (hk : Queues k) (hth : k.threads t = some th) (hw : th.kt_wchan = some q)
    (h : takeOff k q t = some k') : Queues k' := by
  simp only [Proc.takeOff, bind, Option.bind_eq_some_iff, Option.some.injEq] at h
  obtain ⟨th', hth', rfl⟩ := h
  cases hth.symm.trans hth'
  refine ⟨fun q' => ?_, fun q' u hu => ?_, fun p hp => ?_, fun u hu => hk.cur u hu⟩
  · simp only [Kernel.setThread, Kernel.setQueue, Function.update_apply]
    split
    · exact (hk.nodup q).erase t
    · exact hk.nodup q'
  · have hu' : u ∈ k.tq_list q' ∧ u ≠ t := by
      simp only [Kernel.setThread, Kernel.setQueue, Function.update_apply] at hu
      split at hu
      · next e => subst e; exact ((hk.nodup _).mem_erase_iff.1 hu).symm
      · next e => exact ⟨hu, fun e' => hk.not_mem hth (by rw [hw]; simpa using Ne.symm e) (e' ▸ hu)⟩
    obtain ⟨tu, h1, h2⟩ := hk.linked q' u hu'.1
    exact ⟨tu, by simpa [Kernel.setThread, Kernel.setQueue, hu'.2] using h1, h2⟩
  · obtain ⟨tp, h1, h2, h3⟩ := hk.dead p hp
    have hpt : p ≠ t := by
      rintro rfl
      cases hth.symm.trans h1
      simp [h3] at hw
    exact ⟨tp, by simpa [Kernel.setThread, Kernel.setQueue, hpt] using h1, h2, h3⟩

/-- The thread taken was on the queue, and stays as it was but for `kt_wchan`. -/
theorem dequeue (hk : Queues k) {r : Option Nat} (h : ktqueue_dequeue k q = some (k', r)) :
    Queues k' ∧ ∀ t, r = some t → t ∈ k.tq_list q := by
  simp only [ktqueue_dequeue] at h
  split at h
  · cases h; exact ⟨hk, by simp⟩
  · next t ht =>
    have hm := List.mem_of_getLast? ht
    obtain ⟨th, h1, h2, -⟩ := hk.linked q t hm
    simp only [Option.map_eq_some_iff, Prod.mk.injEq] at h
    obtain ⟨k₁, h3, rfl, rfl⟩ := h
    exact ⟨hk.takeOff h1 h2 h3, by rintro _ ⟨⟩; exact hm⟩

theorem make_runnable (hk : Queues k) (hd : ¬ Dead k t) (h : sched_make_runnable k t = some k') : Queues k' := by
  simp only [sched_make_runnable, bind, Option.bind_eq_some_iff] at h
  obtain ⟨th, hth, -, -, h⟩ := h
  refine (hk.setThread { th with kt_state := .run } hth rfl (absurd · hd) (by simp)).enqueue hd ?_ h
  simp

theorem sleepOn {st : ThreadState} {r : Resume} (hk : Queues k) (hd : ¬ Dead k t) (hst : st ≠ .exited)
    (h : sleepOn k t q st r = some k') : Queues k' := by
  simp only [Proc.sleepOn, bind, Option.bind_eq_some_iff, Option.some.injEq] at h
  obtain ⟨th, hth, k₁, h1, rfl⟩ := h
  have h2 := (hk.setThread { th with kt_state := st } hth rfl (absurd · hd) (absurd · hst)).enqueue hd
    (by simpa using hst) h1
  exact (h2.setResume r).setCur (by simp)

theorem switch_to (hk : Queues k) (h : sched_switch_to k = some (k', t)) : Queues k' := by
  simp only [sched_switch_to, bind, Option.bind_eq_some_iff, Prod.exists] at h
  obtain ⟨-, -, k₁, r, h1, h⟩ := h
  obtain ⟨h2, h3⟩ := hk.dequeue h1
  cases r with
  | none => cases h
  | some t' =>
    cases h
    refine h2.setCur ?_
    rintro _ ⟨⟩
    rw [dead_table (ktqueue_dequeue_table h1)]
    exact hk.alive_of_mem (h3 _ rfl)

theorem wakeup (hk : Queues k) (h : sched_wakeup_on k q = some k') : Queues k' := by
  simp only [sched_wakeup_on, bind, Option.bind_eq_some_iff, Prod.exists] at h
  obtain ⟨k₁, r, h1, h⟩ := h
  obtain ⟨h2, h3⟩ := hk.dequeue h1
  cases r with
  | none => cases h; exact h2
  | some t =>
    simp only [Option.bind_eq_some_iff] at h
    obtain ⟨-, -, h⟩ := h
    exact h2.make_runnable (by rw [dead_table (ktqueue_dequeue_table h1)]; exact hk.alive_of_mem (h3 _ rfl)) h

/-- The other threads stay as they are. -/
theorem wakeup_threads (hk : Queues k) (h : sched_wakeup_on k q = some k') {u : Nat} (hu : u ∉ k.tq_list q) :
    k'.threads u = k.threads u := by
  simp only [sched_wakeup_on, bind, Option.bind_eq_some_iff, Prod.exists] at h
  obtain ⟨k₁, r, h1, h⟩ := h
  have hne : ∀ t, r = some t → u ≠ t := fun t hr e => hu (e ▸ (hk.dequeue h1).2 t hr)
  have e1 : k₁.threads u = k.threads u := by
    simp only [ktqueue_dequeue] at h1
    split at h1
    · cases h1; rfl
    · simp only [Option.map_eq_some_iff, Prod.mk.injEq, Proc.takeOff, bind, Option.bind_eq_some_iff,
        Option.some.injEq] at h1
      obtain ⟨-, ⟨th, -, rfl⟩, rfl, rfl⟩ := h1
      simp [Kernel.setThread, Kernel.setQueue, hne _ rfl]
  cases r with
  | none => cases h; exact e1
  | some t =>
    simp only [Option.bind_eq_some_iff, sched_make_runnable, bind, ktqueue_enqueue, Option.some.injEq] at h
    obtain ⟨-, -, th, -, -, -, th', -, -, -, rfl⟩ := h
    simpa [Kernel.setThread, Kernel.setQueue, hne t rfl] using e1

theorem broadcast {wake : Kernel → Option Kernel} (hw : ∀ {k k'}, Queues k → wake k = some k' → Queues k')
    {ts : List Nat} : ∀ {k k' : Kernel}, Queues k → broadcast_from wake k ts = some k' → Queues k' := by
  induction ts with
  | nil => intro k k' hk h; cases h; exact hk
  | cons t ts ih =>
    intro k k' hk h
    simp only [broadcast_from, bind, Option.bind_eq_some_iff] at h
    obtain ⟨k₁, h1, h2⟩ := h
    exact ih (hw hk h1) h2

end Queues

/-! ## How processes end -/

/-- `p_status` and `p_state` of a process. -/
def ends (k : Kernel) (p : Nat) : Option (Int × ProcState) := (k.procs p).map fun pr => (pr.p_status, pr.p_state)

theorem dead_iff_ends {p : Nat} : Dead k p ↔ ∃ st, ends k p = some (st, .dead) := by
  simp only [Dead, ends, Option.map_eq_some_iff, Prod.mk.injEq]
  constructor
  · rintro ⟨pr, h1, h2⟩; exact ⟨_, pr, h1, rfl, h2⟩
  · rintro ⟨_, pr, h1, -, h2⟩; exact ⟨pr, h1, h2⟩

/-- Only the lists, parents and ids of processes may differ. -/
structure SameEnds (k k' : Kernel) : Prop where
  ends : ends k' = ends k
  nprocs : k'.nprocs = k.nprocs
  threads : k'.threads = k.threads
  tq_list : k'.tq_list = k.tq_list
  tq_size : k'.tq_size = k.tq_size
  curthr : k'.curthr = k.curthr

namespace SameEnds

theorem refl (k : Kernel) : SameEnds k k := ⟨rfl, rfl, rfl, rfl, rfl, rfl⟩

theorem trans {k'' : Kernel} (h : SameEnds k k') (h' : SameEnds k' k'') : SameEnds k k'' :=
  ⟨h'.ends.trans h.ends, h'.nprocs.trans h.nprocs, h'.threads.trans h.threads, h'.tq_list.trans h.tq_list,
    h'.tq_size.trans h.tq_size, h'.curthr.trans h.curthr⟩

theorem setProc {p : Nat} {pr : Kproc} (pr' : Kproc) (hp : k.procs p = some pr) (hst : pr'.p_status = pr.p_status)
    (hs : pr'.p_state = pr.p_state) : SameEnds k (k.setProc p (some pr')) := by
  refine ⟨funext fun u => ?_, rfl, rfl, rfl, rfl, rfl⟩
  simp only [Proc.ends, Kernel.setProc, Function.update_apply]
  split
  · next e => subst e; simp [hp, hst, hs]
  · rfl

theorem setProc_map {p : Nat} {f : Kproc → Kproc} (hst : ∀ pr, (f pr).p_status = pr.p_status)
    (hs : ∀ pr, (f pr).p_state = pr.p_state) : SameEnds k (k.setProc p ((k.procs p).map f)) := by
  cases hp : k.procs p with
  | some pr => exact setProc _ hp (hst pr) (hs pr)
  | none =>
    refine ⟨funext fun u => ?_, rfl, rfl, rfl, rfl, rfl⟩
    simp only [Proc.ends, Kernel.setProc, Function.update_apply]
    split
    · next e => subst e; simp [hp]
    · rfl

theorem addChildren (p : Nat) (cs : List Nat) : SameEnds k (k.addChildren p cs) :=
  setProc_map (fun _ => rfl) (fun _ => rfl)

theorem queues (h : SameEnds k k') (hk : Queues k) : Queues k' where
  nodup := by rw [h.tq_list]; exact hk.nodup
  linked := by rw [h.tq_list, h.threads]; exact hk.linked
  dead p hp := by rw [h.threads]; exact hk.dead p (by rwa [dead_iff_ends, ← h.ends, ← dead_iff_ends])
  cur t ht := by
    rw [h.curthr] at ht
    rw [dead_iff_ends, h.ends, ← dead_iff_ends]
    exact hk.cur t ht

end SameEnds

/-- The process of a thread that has exited is marked dead. -/
theorem Queues.die {p : Nat} (pr : Kproc) (hk : Queues k) (hth : k.threads p = some th) (hs : th.kt_state = .exited)
    (hw : th.kt_wchan = none) : Queues ((k.setProc p (some pr)).setCur none) where
  nodup := hk.nodup
  linked := hk.linked
  dead u hu := by
    by_cases e : u = p
    · subst e; exact ⟨th, hth, hs, hw⟩
    · exact hk.dead u (by simpa [Dead, Kernel.setProc, Kernel.setCur, e] using hu)
  cur := by simp [Kernel.setCur]

/-- A process is taken away with its thread. -/
theorem Queues.bury {z p : Nat} {pr pr' : Kproc} {l : List Nat} (hk : Queues k) (hz : ∀ q, z ∉ k.tq_list q) (hp : k.procs p = some pr)
    (hs : pr'.p_state = pr.p_state) :
    Queues ((((k.setThread z none).setProc p (some pr')).setProc z none).setList l) := by
  have hd : ∀ u, Dead ((((k.setThread z none).setProc p (some pr')).setProc z none).setList l) u → u ≠ z ∧ Dead k u := by
    intro u ⟨x, hx, hxs⟩
    simp only [Kernel.setList, Kernel.setProc, Kernel.setThread, Function.update_apply] at hx
    split at hx
    · cases hx
    next huz =>
      refine ⟨huz, ?_⟩
      split at hx
      · next e => cases hx; exact ⟨pr, e ▸ hp, hs ▸ hxs⟩
      · exact ⟨x, hx, hxs⟩
  refine ⟨hk.nodup, fun q u hu => ?_, fun u hu => ?_, fun u hu hud => hk.cur u hu (hd u hud).2⟩
  · have huz : u ≠ z := fun e => hz q (e ▸ hu)
    simpa [Kernel.setThread, Kernel.setProc, Kernel.setList, huz] using hk.linked q u hu
  · simpa [Kernel.setThread, Kernel.setProc, Kernel.setList, (hd u hu).1] using hk.dead u (hd u hu).2

theorem bury_ends {z p : Nat} {pr pr' : Kproc} {l : List Nat} (hp : k.procs p = some pr)
    (hst : pr'.p_status = pr.p_status) (hs : pr'.p_state = pr.p_state) :
    ends ((((k.setThread z none).setProc p (some pr')).setProc z none).setList l) = Function.update (ends k) z none := by
  funext u
  have := congrFun (SameEnds.setProc pr' hp hst hs).ends u
  simp only [ends, Kernel.setList, Kernel.setProc, Kernel.setThread, Function.update_apply] at this ⊢
  by_cases hu : u = z
  · simp [hu]
  · simpa [hu] using this

theorem ends_table (h : k'.table = k.table) : ends k' = ends k := by
  have : k'.procs = k.procs := congrArg Table.procs h
  funext p
  simp [ends, this]

theorem nprocs_table (h : k'.table = k.table) : k'.nprocs = k.nprocs := congrArg Table.nprocs h

/-! ## Creating processes and threads -/

variable {MAX cur : Nat}

theorem addProc_ends {pr : Kproc} {n : Nat} :
    ends (k.addProc pr n) = Function.update (ends k) k.nprocs (some (pr.p_status, pr.p_state)) := by
  funext p
  simp only [ends, Kernel.addProc, Function.update_apply]
  split <;> simp

theorem proc_create_effect {c : Nat} (h : proc_create MAX k cur = some (k', c)) :
    c = k.nprocs ∧ ∃ pr n, pr.p_status = 0 ∧ pr.p_state = .running ∧ SameEnds (k.addProc pr n) k' := by
  simp only [proc_create, bind, Option.bind_eq_some_iff, Option.some.injEq, Prod.mk.injEq] at h
  obtain ⟨pr, -, -, -, -, -, rfl, rfl⟩ := h
  refine ⟨rfl, { p_pid := (proc_getid MAX k).1, p_pproc := cur }, (proc_getid MAX k).2, rfl, rfl, ?_⟩
  refine SameEnds.trans ?_ (SameEnds.addChildren cur [k.nprocs])
  split
  · exact ⟨rfl, rfl, rfl, rfl, rfl, rfl⟩
  · exact SameEnds.refl _

theorem proc_create_queues {c : Nat} (hk : Queues k) (h : proc_create MAX k cur = some (k', c)) : Queues k' := by
  obtain ⟨-, pr, n, -, hs, he⟩ := proc_create_effect h
  have hd : ∀ p, Dead (k.addProc pr n) p → Dead k p := fun p hp => by
    rw [dead_iff_ends, addProc_ends, hs] at hp
    rw [dead_iff_ends]
    obtain ⟨st, hp⟩ := hp
    rw [Function.update_apply] at hp
    split at hp
    · cases hp
    · exact ⟨st, hp⟩
  exact he.queues ⟨hk.nodup, hk.linked, fun p hp => hk.dead p (hd p hp), fun t h1 h2 => hk.cur t h1 (hd t h2)⟩

/-- A new thread, on no queue. -/
theorem newThread_queues {t : Nat} (th : Kthread) (hk : Queues k) (ht : k.threads t = none) :
    Queues (k.setThread t (some th)) ∧ ¬ Dead (k.setThread t (some th)) t ∧ ∀ q, t ∉ k.tq_list q := by
  have hd : ¬ Dead k t := fun h => by
    obtain ⟨th, h1, -⟩ := hk.dead t h
    simp [ht] at h1
  have hq : ∀ q, t ∉ k.tq_list q := fun q h => by
    obtain ⟨th, h1, -⟩ := hk.linked q t h
    simp [ht] at h1
  refine ⟨⟨hk.nodup, fun q u hu => ?_, fun p hp => ?_, hk.cur⟩, hd, hq⟩
  · have hut : u ≠ t := fun e => hq q (e ▸ hu)
    simpa [Kernel.setThread, hut] using hk.linked q u hu
  · have hpt : p ≠ t := fun e => hd (e ▸ hp)
    simpa [Kernel.setThread, hpt] using hk.dead p hp

theorem kthread_create_queues {st : ThreadState} {p : Nat} (hk : Queues k) (h : kthread_create_as st k p = some k') :
    Queues k' ∧ ¬ Dead k' p ∧ k'.table = k.table := by
  simp only [kthread_create_as, bind, Option.bind_eq_some_iff, KASSERT_eq_some, Option.some.injEq] at h
  obtain ⟨-, -, -, ht, rfl⟩ := h
  obtain ⟨h1, h2, -⟩ := newThread_queues { kt_state := st } hk ht
  exact ⟨h1.setResume _, h2, rfl⟩

end Weenix.Proc
