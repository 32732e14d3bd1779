import Weenix.Proc.VmWait
/-!
# Dead children in vm-submit

The tree of processes over a run, and who sleeps in `do_waitpid` while there is a
dead child to reap.
-/

namespace Weenix.Proc.VmSubmit
open Lib

variable {MAX : Nat} {k k' : Kernel} {cur c : Nat} {e : Event} {w : Outcome} {tr : List (Event × Outcome)}

/-- The event is an exit of the current thread. -/
def Event.exits (k : Kernel) : Event → Prop
  | .do_exit _ _ | .fault _ | .kthread_exit _ => True
  | .kthread_cancel t _ => k.curthr = some t
  | _ => False

instance (k : Kernel) (e : Event) : Decidable (e.exits k) := by
  cases e <;> unfold Event.exits <;> infer_instance

theorem waitAny_ended (h : waitAny k cur = some (k', w)) : w ≠ .ended c := by
  rcases waitAny_family h with ⟨z, -, -, hr⟩ | ⟨-, rfl, -⟩
  · simp only [reap, bind, Option.bind_eq_some_iff, Option.some.injEq, Prod.mk.injEq] at hr
    obtain ⟨-, -, -, -, -, rfl⟩ := hr
    simp
  · simp

theorem waitFor_ended {z : Nat} (h : waitFor k cur z = some (k', w)) : w ≠ .ended c := by
  rcases waitFor_family h with ⟨-, hr⟩ | ⟨-, rfl, -⟩
  · simp only [reap, bind, Option.bind_eq_some_iff, Option.some.injEq, Prod.mk.injEq] at hr
    obtain ⟨-, -, -, -, -, rfl⟩ := hr
    simp
  · simp

/-- Only the current process ends, by exiting. -/
theorem ended_exits (h : step MAX k e = some (k', .ended c)) : e.exits k ∧ k.curthr = some c := by
  cases e with simp only [step, bind, Option.bind_eq_some_iff, Option.some.injEq, Prod.mk.injEq, Prod.exists] at h
  | do_exit | fault | kthread_exit =>
    obtain ⟨cur, hc, -, -, -, e⟩ := h
    cases e
    exact ⟨trivial, hc⟩
  | kthread_cancel t retval =>
    obtain ⟨cur, hc, k₁, ex, h1, rfl, e⟩ := h
    cases ex with
    | false => cases e
    | true =>
      cases e
      obtain ⟨e, -, -⟩ | ⟨-, -, -, -, hw⟩ := kthread_cancel_cases h1
      · exact ⟨e ▸ hc, hc⟩
      · cases hw
  | do_waitpid pid =>
    obtain ⟨cur, -, h⟩ := h
    obtain ⟨pr, -, ⟨-, hw⟩ | ⟨-, h⟩ | ⟨c, -, -, h⟩⟩ := do_waitpid_cases h
    · cases hw
    · exact absurd rfl (waitAny_ended h)
    · exact absurd rfl (waitFor_ended h)
  | dispatch =>
    simp only [dispatch, bind, Option.bind_eq_some_iff, Prod.exists] at h
    obtain ⟨k₁, t, -, h⟩ := h
    split at h
    · cases h
    · exact absurd rfl (waitAny_ended h)
    · exact absurd rfl (waitFor_ended h)
  | cancellable_sleep n =>
    obtain ⟨cur, -, h⟩ := h
    obtain ⟨thr, -, ⟨-, -, hw⟩ | ⟨-, -, hw⟩⟩ := sched_cancellable_sleep_on_cases h
    · cases hw
    · cases hw
  | _ => simp at h

theorem change_ended {x : Int} (h : change (e, w) = .ended c x) : w = .ended c := by
  cases w with
  | ended c' =>
    cases h
    rfl
  | _ => cases h

/-! ## The tree of processes -/

/-- The init process exits only when it has no children. -/
def InitExitsAlone (k : Kernel) (e : Event) : Prop :=
  e.exits k → ∀ cur ∈ k.curthr, k.proc_initproc = some cur → k.family.children cur = []

/-- A process with children exits only while the init process is another one, is there and is not dead. -/
def InitOutlives (k : Kernel) (e : Event) : Prop :=
  e.exits k → ∀ cur ∈ k.curthr, k.family.children cur ≠ [] →
    ∃ ini ∈ k.proc_initproc, ini ≠ cur ∧ k.family.state ini = some .running

instance (k : Kernel) (e : Event) : Decidable (InitExitsAlone k e) := by
  unfold InitExitsAlone; infer_instance

instance (k : Kernel) (e : Event) : Decidable (InitOutlives k e) := by
  unfold InitOutlives; infer_instance

theorem InitOutlives.orderly (ho : InitOutlives k e) (h : step MAX k e = some (k', w)) :
    k.family.Orderly (change (e, w)) := by
  cases hch : change (e, w) with
  | ended c x =>
    obtain ⟨hx, hc⟩ := ended_exits (change_ended hch ▸ h)
    intro hne
    obtain ⟨ini, h1, h2, h3⟩ := ho hx c hc hne
    refine ⟨ini, h1, h2, ?_, by simp [h3]⟩
    obtain ⟨pr, hpr, -⟩ := Option.map_eq_some_iff.1 (show (k.procs ini).map (·.p_state) = _ from h3)
    simp [Kernel.family, hpr]
  | _ => trivial

/-- The process `do_waitpid` disposed of, if any. -/
def Outcome.disposed : Outcome → Option Nat
  | .reaped c _ _ => some c
  | _ => none

theorem boot_rooted : Kernel.boot.family.Rooted := by
  refine ⟨boot_linked, fun p => ?_, fun p => ?_, ?_, ?_, fun p => ?_, List.nodup_singleton 0, fun p => ?_⟩
  · rw [(boot_family p).1]
    exact List.not_mem_nil
  · rw [(boot_family p).1]
    exact List.not_mem_nil
  · rw [(boot_family 0).2]
    simp
  · rintro i ⟨⟩
  · simp only [Kernel.family, Kernel.boot]
    by_cases e : p = 0 <;> simp [e]
  · rw [(boot_family p).2]
    by_cases e : p = 0 <;> simp [Kernel.family, Kernel.boot, e]

theorem boot_ok : Kernel.boot.family.Ok := by
  refine ⟨boot_rooted, fun c p hc hp => ?_⟩
  rw [(boot_family c).2, if_neg hc] at hp
  cases hp

/-- What holds in every run: the queues, the tree, and the processes taken away. -/
structure Settled (k : Kernel) (tr : List (Event × Outcome)) : Prop where
  queues : Queues k
  fates : Fates k (tr.map change)
  awaiting : Awaiting k
  rooted : k.family.Rooted
  once : (tr.filterMap (·.2.disposed)).Nodup

/-- Who has been taken away is not there any more. -/
theorem Fates.disposed {hist : List Change} (hf : Fates k hist) {x : Int} (hr : .reaped c x ∈ hist) : ends k c = none := by
  cases hc : ends k c with
  | none => rfl
  | some o =>
    have := hf c
    rw [hc] at this
    cases this with
    | running _ _ r => exact absurd hr (r x)
    | dead _ _ _ r => exact absurd hr (r x)

theorem Settled.step (h : Settled k tr) (hs : step MAX k e = some (k', w)) :
    Settled k' (tr ++ [(e, w)]) ∧ Stepped k k' (change (e, w)) := by
  obtain ⟨hq, he⟩ := step_effect h.queues hs
  have hst := step_stepped h.queues h.awaiting hs
  refine ⟨⟨hq, by rw [List.map_append]; exact h.fates.effect he, hst.awaiting, h.rooted.step hst.family, ?_⟩, hst⟩
  rw [List.filterMap_append]
  refine List.nodup_append.2 ⟨h.once, ?_, fun a ha b hb e => ?_⟩
  · cases w <;> simp [Outcome.disposed]
  · cases w with
    | reaped c pid st =>
      simp only [Outcome.disposed, List.filterMap_cons, List.filterMap_nil, List.mem_singleton] at hb
      subst hb
      subst e
      obtain ⟨⟨e', w'⟩, h1, h2⟩ := List.mem_filterMap.1 ha
      cases w' with
      | reaped c' pid' st' =>
        cases h2
        have hgone := Fates.disposed h.fates (List.mem_map_of_mem (f := change) h1)
        cases he with
        | reaped hc => simp [hgone] at hc
      | _ => cases h2
    | _ => simp [Outcome.disposed] at hb

theorem run_settled {ok : Kernel → Event → Prop} (h : Run (step MAX) ok Kernel.boot k tr) : Settled k tr := by
  refine h.inv_trace Settled ⟨boot_queues, boot_fates, boot_awaiting, boot_rooted, List.nodup_nil⟩ ?_
  intro k tr e k' w hi _ hs
  exact (hi.step hs).1

theorem run_ok (h : Run (step MAX) InitOutlives Kernel.boot k tr) : k.family.Ok := by
  induction h with
  | nil => exact boot_ok
  | snoc hr ho hs ih => exact ih.step ((run_settled hr).step hs).2.family (ho.orderly hs)

/-- In every run in which the init process outlives those with children, every
process but the idle one is listed once and is a child of its parent, once, and of
no other; its parent is not dead and changes only when it exits, to the init
process; and no process is taken away twice. -/
theorem tree_kept (h : Run (step MAX) InitOutlives Kernel.boot k tr) :
    (∀ p pr, p ≠ 0 → k.procs p = some pr → k.proc_list.count p = 1 ∧ (k.family.children pr.p_pproc).count p = 1 ∧
      (∀ q, p ∈ k.family.children q → q = pr.p_pproc) ∧ ¬ Dead k pr.p_pproc) ∧
    (∀ e k' w, step MAX k e = some (k', w) → ∀ p pr pr', k.procs p = some pr → k'.procs p = some pr' →
      pr'.p_pproc = pr.p_pproc ∨ w = .ended pr.p_pproc ∧ k.proc_initproc = some pr'.p_pproc) ∧
    (tr.filterMap (·.2.disposed)).Nodup := by
  have hok := run_ok h
  have hs := run_settled h
  have hpar : ∀ {k : Kernel} {p pr}, k.procs p = some pr → k.family.parent p = some pr.p_pproc := fun hp => by
    simp [Kernel.family, hp]
  refine ⟨fun p pr h0 hp => ?_, fun e k' w hst p pr pr' hp hp' => ?_, hs.once⟩
  · obtain ⟨h1, h2, h3, h4⟩ := hok.placed (hpar hp) h0
    exact ⟨h1, h2, h3, fun hd => h4 (dead_family.1 hd)⟩
  · have hf := (hs.step hst).2.family
    refine (hf.parent hs.rooted.toLinked (hpar hp) (hpar hp')).imp_right ?_
    rintro ⟨⟨x, hx⟩, hi⟩
    exact ⟨change_ended hx, hi⟩

/-- Process 2 exits before its child 3, which the init process gets. -/
def orphan : List Event :=
  [.proc_create, .start 1, .do_waitpid (-1), .dispatch, .proc_create, .start 2, .do_waitpid (-1), .dispatch,
    .proc_create, .start 3, .do_exit 100 0, .dispatch, .yield, .dispatch]

def orphaned : List (Event × Outcome) :=
  orphan.zip [.created 1, .done, .done, .done, .created 2, .done, .done, .done, .created 3, .done, .ended 2, .done,
    .done, .reaped 2 2 0]

theorem orphan_kept : ∃ k, Run (step 256) InitOutlives Kernel.boot k orphaned ∧
    k.proc_list.count 3 = 1 ∧ (k.family.children 1).count 3 = 1 ∧ (orphaned.filterMap (·.2.disposed)).Nodup := by
  have h : (exec (step 256) (fun k e => decide (InitOutlives k e)) Kernel.boot orphan).map
      (fun x => (x.2, (x.1.procs 3).map (·.p_pproc))) = some (orphaned, some 1) := by decide +kernel
  simp only [Option.map_eq_some_iff, Prod.exists, Prod.mk.injEq] at h
  obtain ⟨k, tr, hex, rfl, pr, hpr, hp⟩ := h
  have hr := Run.of_exec (fun _ _ h => of_decide_eq_true h) hex
  obtain ⟨h1, -, h3⟩ := tree_kept hr
  obtain ⟨h4, h5, -⟩ := h1 3 pr (by decide) hpr
  exact ⟨k, hr, h4, hp ▸ h5, h3⟩

/-- The idle process has the children 1, which is the init process, and 2; and
process 2 has a child. The init process exits, and then process 2. -/
def initFirst : List Event :=
  [.proc_create, .start 1, .proc_create, .start 2, .do_waitpid (-1), .dispatch, .do_exit 100 0, .dispatch,
    .proc_create, .do_exit 100 0]

/-- Then the child of process 2 has a dead parent. -/
theorem dead_parent : ¬ ∀ k tr, Run (step 256) InitExitsAlone Kernel.boot k tr →
    ∀ p pr, p ≠ 0 → k.procs p = some pr → ¬ Dead k pr.p_pproc := by
  intro hall
  have h : (exec (step 256) (fun k e => decide (InitExitsAlone k e)) Kernel.boot initFirst).map
      (fun x => ((x.1.procs 3).map (·.p_pproc), (x.1.procs 1).map (·.p_state))) = some (some 1, some .dead) := by
    decide +kernel
  simp only [Option.map_eq_some_iff, Prod.exists, Prod.mk.injEq] at h
  obtain ⟨k, tr, hex, ⟨pr, hpr, hp⟩, pr', hpr', hd⟩ := h
  have hr := Run.of_exec (fun _ _ h => of_decide_eq_true h) hex
  exact hall k tr hr 3 pr (by decide) hpr (hp ▸ ⟨pr', hpr', hd⟩)

/-! ## Who sleeps in `do_waitpid` -/

/-- The init process sleeps in `do_waitpid(-1)`. -/
def WaitsForAny (k : Kernel) (p : Nat) : Prop := p ∈ k.tq_list (.wait p) ∧ k.resume p = .waitAny

instance (k : Kernel) (p : Nat) : Decidable (WaitsForAny k p) := by
  unfold WaitsForAny; infer_instance

/-- Nobody who has a dead child exits while the init process sleeps in
`do_waitpid(-1)`, except the children of the init process. -/
def InitNotices (k : Kernel) (e : Event) : Prop :=
  e.exits k → ∀ cur ∈ k.curthr, (∃ c ∈ k.family.children cur, k.family.state c = some .dead) →
    ∀ ini ∈ k.proc_initproc, k.family.parent cur = some ini ∨ ¬ WaitsForAny k ini

instance (k : Kernel) (e : Event) : Decidable (InitNotices k e) := by
  unfold InitNotices; infer_instance

theorem no_oversleeping (h : Run (step MAX) InitNotices Kernel.boot k tr) : ∀ p ∈ k.tq_list (.wait p), ¬ Overslept k p := by
  induction h with
  | nil => rintro p ⟨⟩
  | @snoc k k' tr e w hr ho hs ih =>
    have hset := run_settled hr
    have hst := (hset.step hs).2
    have hf := hst.family
    intro p hp hover
    rcases hst.waited p hp with ⟨h1, h2⟩ | h1
    swap
    · exact h1 hover
    -- who exits now is not a child of `p`, which is still asleep
    have hnot : ∀ c x, change (e, w) = .ended c x → c ∉ k.family.children p := fun c x hc hm =>
      hst.woken c x p hc (hset.rooted.child p c hm) hp
    refine ih p h1 ?_
    rcases hover with ⟨hr', c, hc, hd⟩ | ⟨c, hr', hd⟩
    · have hd' := dead_family.1 hd
      refine .inl ⟨h2 ▸ hr', c, ?_⟩
      rcases hf.child hset.rooted.toLinked hc hd' with hcp | ⟨cur, x, hch, hcc, hi⟩
      · exact ⟨hcp, dead_family.2 ((hf.died hd').resolve_right fun ⟨x, hx⟩ => hnot c x hx hcp)⟩
      · -- `c` is dead already when the init process gets it
        have hne : c ≠ cur := by
          rintro rfl
          exact hset.rooted.self c hcc
        have hdead : k.family.state c = some .dead := (hf.died hd').resolve_right fun ⟨y, hy⟩ => by
          rw [hch] at hy
          cases hy
          exact hne rfl
        obtain ⟨hex, hcur⟩ := ended_exits (change_ended hch ▸ hs)
        rcases ho hex cur hcur ⟨c, hcc, hdead⟩ p hi with hpar | hw
        · exact absurd hp (hst.woken cur x p hch hpar)
        · exact absurd ⟨h1, h2 ▸ hr'⟩ hw
    · refine .inr ⟨c, h2 ▸ hr', dead_family.2 ((hf.died (dead_family.1 hd)).resolve_right fun ⟨x, hx⟩ => ?_)⟩
      exact hnot c x hx (hset.awaiting.awaited _ p h1 c (h2 ▸ hr'))

/-- The init process waits again, for its orphan. -/
theorem orphan_awaited : ∃ k tr, Run (step 256) InitNotices Kernel.boot k tr ∧ WaitsForAny k 1 ∧ ¬ Overslept k 1 := by
  have h : (exec (step 256) (fun k e => decide (InitNotices k e)) Kernel.boot (orphan ++ [.do_waitpid (-1)])).map
      (fun x => decide (WaitsForAny x.1 1)) = some true := by decide +kernel
  simp only [Option.map_eq_some_iff, Prod.exists] at h
  obtain ⟨k, tr, hex, hw⟩ := h
  have hr := Run.of_exec (fun _ _ h => of_decide_eq_true h) hex
  have hw' := of_decide_eq_true hw
  exact ⟨k, tr, hr, hw', no_oversleeping hr 1 hw'.1⟩

/-- Each process has one child: 1, 2, 3 and 4. Process 4 exits, and then process
3, while processes 1 and 2 sleep. -/
def fourGenerations : List Event :=
  [.proc_create, .start 1, .do_waitpid (-1), .dispatch, .proc_create, .start 2, .do_waitpid (-1), .dispatch,
    .proc_create, .start 3, .yield, .dispatch, .proc_create, .start 4, .yield, .dispatch, .do_waitpid (-1), .dispatch,
    .do_exit 100 0, .dispatch, .do_exit 100 0]

/-- Then process 1, the init process, has the dead child 4, and nobody wakes it up. -/
theorem init_oversleeps : ¬ ∀ k tr, Run (step 256) (fun _ _ => True) Kernel.boot k tr →
    ∀ p ∈ k.tq_list (.wait p), ¬ Overslept k p := by
  intro hall
  have h : (exec (step 256) (fun _ _ => true) Kernel.boot fourGenerations).map
      (fun x => (decide (WaitsForAny x.1 1), decide (4 ∈ x.1.family.children 1), x.1.family.state 4)) =
        some (true, true, some .dead) := by decide +kernel
  simp only [Option.map_eq_some_iff, Prod.exists, Prod.mk.injEq, decide_eq_true_eq] at h
  obtain ⟨k, tr, hex, ⟨hw, hr⟩, hc, hd⟩ := h
  exact hall k tr (Run.of_exec (fun _ _ _ => trivial) hex) 1 hw (.inl ⟨hr, 4, hc, dead_family.2 hd⟩)

end Weenix.Proc.VmSubmit
