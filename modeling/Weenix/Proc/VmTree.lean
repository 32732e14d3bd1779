import Weenix.Proc.Family
import Weenix.Proc.VmSubmit
/-!
# The process tree of vm-submit

Every step of the kernel is a step of its family.
-/

namespace Weenix.Proc.VmSubmit
open Lib

variable {MAX : Nat} {k k' : Kernel} {cur c z ini par : Nat} {e : Event} {w : Outcome}

theorem family_table (h : k'.table = k.table) : k'.family = k.family := by
  have h1 : k'.procs = k.procs := congrArg Table.procs h
  have h2 : k'.nprocs = k.nprocs := congrArg Table.nprocs h
  have h3 : k'.proc_list = k.proc_list := congrArg Table.proc_list h
  have h4 : k'.proc_initproc = k.proc_initproc := congrArg Table.proc_initproc h
  simp only [Kernel.family, h1, h2, h3, h4]

/-- A process changes, but not in its pid, its parent or its children. -/
theorem family_setProc {pr pr' : Kproc} (hp : k.procs cur = some pr) (h1 : pr'.p_children = pr.p_children)
    (h2 : pr'.p_pproc = pr.p_pproc) (h3 : pr'.p_pid = pr.p_pid) :
    (k.setProc cur (some pr')).family = { k.family with
      state := Function.update k.family.state cur (some pr'.p_state) } := by
  refine Family.ext ?_ ?_ ?_ ?_ rfl rfl rfl <;> funext p
  all_goals
    simp only [Kernel.family, Kernel.setProc, Function.update_apply]
    split
    next e => simp [e, hp, h1, h2, h3]
    next => rfl

theorem addChildren_family (cs : List Nat) : (k.addChildren cur cs).family = { k.family with
    children := fun p => k.family.children p ++ if p = cur ∧ k.family.parent cur ≠ none then cs else [] } := by
  refine Family.ext ?_ ?_ ?_ ?_ rfl rfl rfl <;> funext p
  all_goals
    simp only [Kernel.family, Kernel.addChildren, Kernel.setProc, Function.update_apply]
    by_cases e : p = cur
    · rcases Option.eq_none_or_eq_some (k.procs cur) with hp | ⟨pr, hp⟩ <;> simp [e, hp]
    · simp [e]

theorem addProc_family (pr : Kproc) (n : Nat) : (k.addProc pr n).family =
    { children := Function.update k.family.children k.nprocs pr.p_children
      parent := Function.update k.family.parent k.nprocs (some pr.p_pproc)
      pid := Function.update k.family.pid k.nprocs (some pr.p_pid)
      state := Function.update k.family.state k.nprocs (some pr.p_state)
      listed := k.proc_list ++ [k.nprocs], init := k.proc_initproc, next := k.nprocs + 1 } := by
  refine Family.ext ?_ ?_ ?_ ?_ rfl rfl rfl <;> funext p
  all_goals
    simp only [Kernel.family, Kernel.addProc, Function.update_apply]
    split <;> rfl

theorem proc_create_family (h : proc_create MAX k cur = some (k', c)) :
    ∃ pid, k.family.parent cur ≠ none ∧ (PID_IDLE ≠ pid ∨ k.family.listed = []) ∧
      (PID_INIT ≠ pid ∨ k.family.pid cur = some PID_IDLE) ∧ k'.family = k.family.create cur pid := by
  simp only [proc_create, bind, Option.bind_eq_some_iff, KASSERT_eq_some, Option.some.injEq, Prod.mk.injEq] at h
  obtain ⟨pr, hpr, -, h1, -, h2, rfl, rfl⟩ := h
  have hpar : k.family.parent cur = some pr.p_pproc := by simp [Kernel.family, hpr]
  refine ⟨(proc_getid MAX k).1, by simp [hpar], h1, h2.imp_right fun e => by simp [Kernel.family, hpr, e], ?_⟩
  generalize hk₁ : k.addProc { p_pid := (proc_getid MAX k).1, p_pproc := cur } (proc_getid MAX k).2 = k₁
  have hcur : k₁.family.parent cur ≠ none := by
    rw [← hk₁, addProc_family]
    simp only [Function.update_apply]
    split
    · simp
    · simp [hpar]
  have hinit : (if (proc_getid MAX k).1 = PID_INIT then k₁.setInit k.nprocs else k₁).family = { k₁.family with
      init := if (proc_getid MAX k).1 = PID_INIT then some k.nprocs else k₁.family.init } := by
    split <;> rfl
  rw [addChildren_family, hinit]
  refine Family.ext ?_ ?_ ?_ ?_ ?_ ?_ ?_
  · funext p
    simp only [hcur, ne_eq, not_false_eq_true, and_true]
    rw [← hk₁, addProc_family]
    simp only [Family.create, Function.update_apply]
    by_cases e : p = cur
    · rw [if_pos e, if_pos e, e]
      rfl
    · rw [if_neg e, if_neg e, List.append_nil]
      rfl
  all_goals
    rw [← hk₁, addProc_family]
    rfl

theorem setChildren_family {par : Kproc} (l : List Nat) (hp : k.procs cur = some par) :
    (k.setProc cur (some { par with p_children := l })).family =
      { k.family with children := Function.update k.family.children cur l } := by
  refine Family.ext ?_ ?_ ?_ ?_ rfl rfl rfl <;> funext p
  all_goals
    simp only [Kernel.family, Kernel.setProc, Function.update_apply]
    by_cases e : p = cur
    · simp [e, hp]
    · simp [e]

theorem setParent_family (hc : k.family.parent c ≠ none) :
    (k.setProc c ((k.procs c).map fun pr => { pr with p_pproc := ini })).family =
      { k.family with parent := Function.update k.family.parent c (some ini) } := by
  rcases Option.eq_none_or_eq_some (k.procs c) with hp | ⟨pr, hp⟩
  · simp [Kernel.family, hp] at hc
  refine Family.ext ?_ ?_ ?_ ?_ rfl rfl rfl <;> funext p
  all_goals
    simp only [Kernel.family, Kernel.setProc, Function.update_apply]
    by_cases e : p = c
    · simp [e, hp]
    · simp [e]

/-- One turn of the loop over the children in `proc_cleanup`. -/
theorem move_family (ini : Nat) {pr par : Kproc} {k₁ : Kernel} (hc : k.procs c = some pr) (hpar : k.procs pr.p_pproc = some par)
    (hk₁ : k₁ = k.setProc pr.p_pproc (some { par with p_children := par.p_children.erase c })) :
    ((k₁.setProc c ((k₁.procs c).map fun pr => { pr with p_pproc := ini })).addChildren ini [c]).family =
      k.family.move pr.p_pproc ini c := by
  have hcp : k.family.parent c ≠ none := by simp [Kernel.family, hc]
  have h1 : k₁.family = { k.family with children := Function.update k.family.children pr.p_pproc (par.p_children.erase c) } := by
    rw [hk₁]
    exact setChildren_family _ hpar
  have h2 : (k₁.setProc c ((k₁.procs c).map fun pr => { pr with p_pproc := ini })).family =
      { k₁.family with parent := Function.update k₁.family.parent c (some ini) } :=
    setParent_family (by rw [h1]; exact hcp)
  have hl : k.family.children pr.p_pproc = par.p_children := by simp [Kernel.family, hpar]
  have hini : (Function.update k.family.parent c (some ini)) ini ≠ none ↔ k.family.parent ini ≠ none := by
    by_cases e : ini = c
    · simp [e, hcp]
    · rw [Function.update_of_ne e]
  rw [addChildren_family, h2, h1]
  refine Family.ext (funext fun p => ?_) rfl rfl rfl rfl rfl rfl
  simp only [Family.move, hini]
  congr 1
  simp only [Function.update_apply]
  split
  next e => rw [e, hl]
  next => rfl

/-- The loop over the children in `proc_cleanup`. -/
theorem reparent_family {cs : List Nat} : ∀ {k k' : Kernel}, reparent ini k cs = some k' →
    (∀ c ∈ cs, k.family.parent c = some par) → cs.Nodup → k'.family = Family.moves par ini k.family cs := by
  induction cs with
  | nil => intro k k' h _ _; cases h; rfl
  | cons c cs ih =>
    intro k k' h hp hn
    obtain ⟨hc, hn⟩ := List.nodup_cons.1 hn
    simp only [reparent, bind, Option.bind_eq_some_iff] at h
    obtain ⟨pr, hpr, par', hpar, h⟩ := h
    have hpp : pr.p_pproc = par := by
      have := hp c (by simp)
      simpa [Kernel.family, hpr] using this
    subst hpp
    have hmove := move_family ini hpr hpar rfl
    rw [Family.moves, ih h, hmove]
    · intro x hx
      rw [hmove, Family.move_parent (fun e : x = c => hc (e ▸ hx))]
      exact hp x (by simp [hx])
    · exact hn

theorem kthread_exit_family {retval : Int} (hl : k.family.Linked) (h : kthread_exit k cur retval = some k') :
    ∃ ini, k.family.init = some ini ∧ k.family.pid cur ≠ some PID_IDLE ∧ k.family.pid cur ≠ none ∧
      k'.family = k.family.exit cur ini := by
  simp only [kthread_exit, proc_cleanup, bind, Option.bind_eq_some_iff, KASSERT_eq_some, Option.some.injEq] at h
  obtain ⟨thr, -, -, -, _, ⟨ini, hini, pr, hpr, -, hpid, k₂, h2, -, -, k₃, h3, pr', hpr', rfl⟩, rfl⟩ := h
  have e2 : k₂.family = k.family := family_table (sched_wakeup_on_table h2 :)
  have hcs : k.family.children cur = pr.p_children := by
    have : k.procs cur = some pr := hpr
    simp [Kernel.family, this]
  have e3 : k₃.family = Family.moves cur ini k.family (k.family.children cur) := by
    rw [hcs, ← e2]
    refine reparent_family h3 (fun c hc => ?_) ?_
    · rw [e2]
      exact hl.child cur c (hcs ▸ hc)
    · rw [← hcs]
      exact hl.once cur
  have hp : k.family.pid cur = some pr.p_pid := by
    have : k.procs cur = some pr := hpr
    simp [Kernel.family, this]
  refine ⟨ini, hini, ?_, by simp [hp], ?_⟩
  · rw [hp]
    intro e
    have : pr.p_pid = 0 := Option.some.inj e
    omega
  · rw [Family.exit, ← e3]
    exact family_setProc hpr' rfl rfl rfl

theorem bury_family {pr : Kproc} (hp : k.procs cur = some pr) :
    ((((k.setThread z none).setProc cur (some { pr with p_children := pr.p_children.erase z })).setProc z none).setList
      (k.proc_list.erase z)).family = k.family.reap cur z := by
  refine Family.ext ?_ ?_ ?_ ?_ rfl rfl rfl <;> funext p
  all_goals
    simp only [Kernel.family, Family.reap, Kernel.setProc, Kernel.setThread, Kernel.setList, Function.update_apply]
    by_cases e : p = z
    · simp [e]
    · by_cases e' : p = cur
      · subst e'
        simp [e, hp]
      · simp [e, e']

theorem reap_family (hz : z ∈ k.family.children cur) (hd : Dead k z) (h : reap k cur z = some (k', w)) :
    k.family.Step (change (e, w)) k'.family := by
  simp only [reap, disposeZombie, bind, Option.bind_eq_some_iff, Option.some.injEq, Prod.mk.injEq] at h
  obtain ⟨zom, hzom, _, ⟨t, -, -, -, par, hpar, rfl⟩, rfl, rfl⟩ := h
  have hf := bury_family (z := z) (show k.procs cur = some par from hpar)
  obtain ⟨pr, h1, h2⟩ := hd
  have hst : k.family.state z = some .dead := by simp [Kernel.family, h1, h2]
  exact Eq.subst (motive := fun f => k.family.Step (change (e, .reaped z zom.p_pid zom.p_status)) f) hf.symm
    (.reaped hz hst)

theorem waitAny_family (h : waitAny k cur = some (k', w)) :
    (∃ z, z ∈ k.family.children cur ∧ Dead k z ∧ reap k cur z = some (k', w)) ∨
      ((∀ c ∈ k.family.children cur, ¬ Dead k c) ∧ w = .done ∧ sched_sleep_on k cur (.wait cur) .waitAny = some k') := by
  simp only [waitAny, bind, Option.bind_eq_some_iff] at h
  obtain ⟨pr, hpr, h⟩ := h
  have hl : k.family.children cur = pr.p_children := by simp [Kernel.family, hpr]
  rw [hl]
  split at h
  next c hfind =>
    have hd := List.find?_some hfind
    simp only [isDead, Option.any_eq_true, decide_eq_true_eq] at hd
    exact .inl ⟨c, List.mem_of_find?_eq_some hfind, hd, h⟩
  next hfind =>
    simp only [Option.bind_eq_some_iff, Option.some.injEq, Prod.mk.injEq] at h
    obtain ⟨k₁, h1, rfl, rfl⟩ := h
    refine .inr ⟨?_, rfl, h1⟩
    rintro c hc ⟨pc, h2, h3⟩
    have := List.find?_eq_none.1 hfind c hc
    simp [isDead, h2, h3] at this

theorem waitFor_family (h : waitFor k cur c = some (k', w)) :
    (Dead k c ∧ reap k cur c = some (k', w)) ∨
      (¬ Dead k c ∧ w = .done ∧ sched_sleep_on k cur (.wait cur) (.waitFor c) = some k') := by
  simp only [waitFor, bind, Option.bind_eq_some_iff] at h
  obtain ⟨ch, hch, h⟩ := h
  split at h
  next hd => exact .inl ⟨⟨ch, hch, hd⟩, h⟩
  next hd =>
    simp only [Option.bind_eq_some_iff, Option.some.injEq, Prod.mk.injEq] at h
    obtain ⟨k₁, h1, rfl, rfl⟩ := h
    refine .inr ⟨?_, rfl, h1⟩
    rintro ⟨pc, h2, h3⟩
    cases hch.symm.trans h2
    exact hd h3

end Weenix.Proc.VmSubmit
