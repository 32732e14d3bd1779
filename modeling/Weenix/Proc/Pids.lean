import Weenix.Lib.Circle
import Weenix.Proc.VmTree
/-!
# Process identifiers in vm-submit (`_proc_getid`)

The search for an identifier scans `_proc_list` again for each one it tries, from
`next_pid` on and past the last one back to 0. It ends with one that is not in
use, or with -1 when it comes back to `next_pid`.
-/

namespace Weenix.Proc

/-! ## The search -/

/-- How a scan of `_proc_list` for `pid` ends. -/
inductive Scan
  /-- It jumps to `failed`, with the next one. -/
  | failed (pid : Nat)
  /-- The next one is `next_pid`: return -1. -/
  | full
  | found
  deriving DecidableEq

def getid_scan (MAX next_pid pid : Nat) : List Int → Scan
  | [] => .found
  | p_pid :: ps =>
    if p_pid = pid then
      if (pid + 1) % MAX = next_pid then .full else .failed ((pid + 1) % MAX)
    else getid_scan MAX next_pid pid ps

/-- `_proc_getid` comes to an end from `failed` on: what it returns, and the new `next_pid`. -/
inductive Getid (MAX next_pid : Nat) (used : List Int) : Nat → Int × Nat → Prop
  | found {pid : Nat} : getid_scan MAX next_pid pid used = .found → Getid MAX next_pid used pid (pid, (pid + 1) % MAX)
  | full {pid : Nat} : getid_scan MAX next_pid pid used = .full → Getid MAX next_pid used pid (-1, next_pid)
  | failed {pid pid' : Nat} {r : Int × Nat} : getid_scan MAX next_pid pid used = .failed pid' →
      Getid MAX next_pid used pid' r → Getid MAX next_pid used pid r

open Lib Circle

variable {MAX next_pid pid n : Nat} {used : List Int} {r r' : Int × Nat}

theorem getid_scan_eq (MAX next_pid pid : Nat) (used : List Int) : getid_scan MAX next_pid pid used =
    if (pid : Int) ∈ used then if (pid + 1) % MAX = next_pid then .full else .failed ((pid + 1) % MAX) else .found := by
  induction used with
  | nil => rfl
  | cons p_pid ps ih =>
    rw [getid_scan]
    by_cases h : p_pid = pid
    · have hmem : (pid : Int) ∈ p_pid :: ps := by simp [h]
      simp only [if_pos h, if_pos hmem]
    · have hmem : (pid : Int) ∈ p_pid :: ps ↔ (pid : Int) ∈ ps := by simp [Ne.symm h]
      rw [if_neg h, ih]
      simp only [hmem]

theorem Getid.unique (h : Getid MAX next_pid used pid r) (h' : Getid MAX next_pid used pid r') : r = r' := by
  induction h with
  | found hs =>
    cases h' with
    | found => rfl
    | full hs' => cases hs.symm.trans hs'
    | failed hs' => cases hs.symm.trans hs'
  | full hs =>
    cases h' with
    | found hs' => cases hs.symm.trans hs'
    | full => rfl
    | failed hs' => cases hs.symm.trans hs'
  | failed hs _ ih =>
    cases h' with
    | found hs' => cases hs.symm.trans hs'
    | full hs' => cases hs.symm.trans hs'
    | failed hs' hr' =>
      cases hs.symm.trans hs'
      exact ih hr'

/-- What the search is for. -/
inductive Given (MAX next_pid : Nat) (used : List Int) : Int × Nat → Prop
  | full : (∀ pid < MAX, (pid : Int) ∈ used) → Given MAX next_pid used (-1, next_pid)
  | fresh (pid : Nat) : pid < MAX → (pid : Int) ∉ used → Given MAX next_pid used (pid, (pid + 1) % MAX)

/-- The search goes on over the identifiers that are in use. -/
theorem Getid.walk (hnext : next_pid < MAX) {k : Nat} (hk : k < MAX) (hused : ∀ j < k, (place MAX next_pid j : Int) ∈ used)
    (h : Getid MAX next_pid used (place MAX next_pid k) r) : Getid MAX next_pid used next_pid r := by
  induction k with
  | zero =>
    rw [place_zero hnext] at h
    exact h
  | succ k ih =>
    refine ih (by omega) (fun j hj => hused j (by omega)) (.failed ?_ h)
    rw [getid_scan_eq, if_pos (hused k (by omega)), place_succ, if_neg (place_ne hnext hk)]

/-- The loop with turns goes on over them, too. -/
theorem getid_from_walk (hnext : next_pid < MAX) {k : Nat} (hk : k < MAX)
    (hused : ∀ j < k, (place MAX next_pid j : Int) ∈ used) :
    getid_from MAX next_pid used (n + k) next_pid = getid_from MAX next_pid used n (place MAX next_pid k) := by
  induction k generalizing n with
  | zero => rw [place_zero hnext, Nat.add_zero]
  | succ k ih =>
    rw [show n + (k + 1) = n + 1 + k by omega, ih (by omega) fun j hj => hused j (by omega), getid_from,
      if_pos (hused k (by omega)), place_succ, if_neg (place_ne hnext hk)]

theorem Getid.full_of (hnext : next_pid < MAX) (hall : ∀ pid < MAX, (pid : Int) ∈ used) :
    Getid MAX next_pid used next_pid (-1, next_pid) := by
  obtain ⟨k, rfl⟩ : ∃ k, MAX = k + 1 := ⟨MAX - 1, by omega⟩
  have hplace (j : Nat) : (place (k + 1) next_pid j : Int) ∈ used := hall _ (place_lt hnext j)
  refine Getid.walk hnext (Nat.lt_succ_self k) (fun j _ => hplace j) (.full ?_)
  rw [getid_scan_eq, if_pos (hplace k), place_succ, if_pos ((place_back hnext (Nat.lt_succ_self k)).2 rfl)]

theorem Getid.found_of (hnext : next_pid < MAX) {k : Nat} (hk : k < MAX) (hfree : (place MAX next_pid k : Int) ∉ used)
    (hused : ∀ j < k, (place MAX next_pid j : Int) ∈ used) :
    Getid MAX next_pid used next_pid (place MAX next_pid k, (place MAX next_pid k + 1) % MAX) := by
  refine Getid.walk hnext hk hused (.found ?_)
  rw [getid_scan_eq, if_neg hfree]

/-- The search ends with what it is for, and `proc_getid` has enough turns for it. -/
theorem proc_getid_given {k : Kernel} (hnext : k.next_pid < MAX) :
    Getid MAX k.next_pid k.pids k.next_pid (proc_getid MAX k) ∧ Given MAX k.next_pid k.pids (proc_getid MAX k) := by
  rcases search hnext fun pid => (pid : Int) ∈ k.pids with hall | ⟨j, hj, hfree, hused⟩
  · have hgetid : proc_getid MAX k = (-1, k.next_pid) := by
      obtain ⟨m, rfl⟩ : ∃ m, MAX = m + 1 := ⟨MAX - 1, by omega⟩
      have hplace (j : Nat) : (place (m + 1) k.next_pid j : Int) ∈ k.pids := hall _ (place_lt hnext j)
      have hback := (place_back hnext (Nat.lt_succ_self m)).2 rfl
      rw [proc_getid, show m + 1 + 1 = 2 + m by omega, getid_from_walk hnext (Nat.lt_succ_self m) fun j _ => hplace j,
        getid_from, if_pos (hplace m), place_succ, if_pos hback]
    rw [hgetid]
    exact ⟨.full_of hnext hall, .full hall⟩
  · have hgetid : proc_getid MAX k = ((place MAX k.next_pid j : Int), (place MAX k.next_pid j + 1) % MAX) := by
      rw [proc_getid, show MAX + 1 = MAX - j + 1 + j by omega, getid_from_walk hnext hj hused, getid_from, if_neg hfree]
    rw [hgetid]
    exact ⟨.found_of hnext hj hfree hused, .fresh _ (place_lt hnext j) hfree⟩

/-! ## Identifiers in use -/

/-- What of the process table the identifiers depend on. -/
@[ext] structure Idents where
  pid : Nat → Option Int
  proc_list : List Nat
  nprocs : Nat
  next_pid : Nat

def Kernel.idents (k : Kernel) : Idents := ⟨k.family.pid, k.proc_list, k.nprocs, k.next_pid⟩

namespace Idents

def pids (i : Idents) : List Int := i.proc_list.filterMap i.pid

/-- The identifiers in use are different and in range; and who is listed has a number already. -/
structure Ok (MAX : Nat) (i : Idents) : Prop where
  distinct : i.pids.Nodup
  range : ∀ pid ∈ i.pids, 0 ≤ pid ∧ pid < MAX
  next : i.next_pid < MAX
  fresh : ∀ p ∈ i.proc_list, p < i.nprocs

/-- A process is created. -/
def create (i : Idents) (pid : Int) (next_pid : Nat) : Idents where
  pid := Function.update i.pid i.nprocs (some pid)
  proc_list := i.proc_list ++ [i.nprocs]
  nprocs := i.nprocs + 1
  next_pid := next_pid

/-- Process `z` is taken away. -/
def drop (i : Idents) (z : Nat) : Idents :=
  { i with pid := Function.update i.pid z none, proc_list := i.proc_list.erase z }

variable {i : Idents} {z : Nat}

theorem create_pids (h : i.Ok MAX) (pid : Int) (next_pid : Nat) : (i.create pid next_pid).pids = i.pids ++ [pid] := by
  have hold : i.proc_list.filterMap (Function.update i.pid i.nprocs (some pid)) = i.pids := by
    refine List.filterMap_congr fun p hp => ?_
    exact Function.update_of_ne (Nat.ne_of_lt (h.fresh p hp)) ..
  simp only [pids, create, List.filterMap_append, List.filterMap_cons, Function.update_self, List.filterMap_nil]
  exact congrArg (· ++ [pid]) hold

/-- A new process has an identifier that is not in use. -/
theorem Ok.create (h : i.Ok MAX) {pid : Nat} (hlt : pid < MAX) (hnot : (pid : Int) ∉ i.pids) :
    (i.create pid ((pid + 1) % MAX)).Ok MAX := by
  refine ⟨?_, fun x hx => ?_, Nat.mod_lt _ (by omega), fun p hp => ?_⟩
  · rw [create_pids h]
    refine List.nodup_append.2 ⟨h.distinct, List.nodup_singleton _, fun x hx y hy => ?_⟩
    obtain rfl := List.mem_singleton.1 hy
    rintro rfl
    exact hnot hx
  · rw [create_pids h] at hx
    rcases List.mem_append.1 hx with hx | hx
    · exact h.range x hx
    · obtain rfl := List.mem_singleton.1 hx
      omega
  · rcases List.mem_append.1 hp with hp | hp
    · exact Nat.lt_succ_of_lt (h.fresh p hp)
    · rw [List.mem_singleton.1 hp]
      exact Nat.lt_succ_self _

theorem filterMap_update_none (f : Nat → Option Int) (z : Nat) (l : List Nat) :
    (l.filterMap (Function.update f z none)).Sublist (l.filterMap f) := by
  induction l with
  | nil => exact .refl _
  | cons p l ih =>
    by_cases h : p = z
    · rw [List.filterMap_cons_none (by rw [h, Function.update_self]), List.filterMap_cons]
      split
      · exact ih
      · exact ih.cons _
    · rw [List.filterMap_cons, List.filterMap_cons, Function.update_of_ne h]
      split
      · exact ih
      · exact ih.cons_cons _

/-- The others keep theirs when a process is taken away. -/
theorem Ok.drop (h : i.Ok MAX) (z : Nat) : (i.drop z).Ok MAX := by
  have hpids : (i.drop z).pids.Sublist i.pids :=
    ((List.erase_sublist (a := z) (l := i.proc_list)).filterMap _).trans (filterMap_update_none i.pid z i.proc_list)
  refine ⟨hpids.nodup h.distinct, fun pid hpid => h.range pid (hpids.subset hpid), h.next, fun p hp => ?_⟩
  exact h.fresh p (List.mem_of_mem_erase hp)

end Idents

namespace VmSubmit

/-! ## What a step does to them -/

variable {k k' : Kernel} {cur c z ini : Nat} {e : Event} {w : Outcome}

theorem idents_table (h : k'.table = k.table) : k'.idents = k.idents := by
  have hfamily := family_table h
  have hlist : k'.proc_list = k.proc_list := congrArg Table.proc_list h
  have hnprocs : k'.nprocs = k.nprocs := congrArg Table.nprocs h
  have hnext : k'.next_pid = k.next_pid := congrArg Table.next_pid h
  simp only [Kernel.idents, hfamily, hlist, hnprocs, hnext]

theorem setProc_idents {pr pr' : Kproc} (hp : k.procs cur = some pr) (hpid : pr'.p_pid = pr.p_pid) :
    (k.setProc cur (some pr')).idents = k.idents := by
  refine Idents.ext (funext fun p => ?_) rfl rfl rfl
  simp only [Kernel.idents, Kernel.family, Kernel.setProc, Function.update_apply]
  split
  next e => simp [e, hp, hpid]
  next => rfl

theorem setProc_map_idents {f : Kproc → Kproc} (hf : ∀ pr, (f pr).p_pid = pr.p_pid) :
    (k.setProc cur ((k.procs cur).map f)).idents = k.idents := by
  refine Idents.ext (funext fun p => ?_) rfl rfl rfl
  simp only [Kernel.idents, Kernel.family, Kernel.setProc, Function.update_apply]
  split
  next e =>
    rw [e, Option.map_map]
    exact congrArg (Option.map · (k.procs cur)) (funext hf)
  next => rfl

theorem addChildren_idents (k : Kernel) (p : Nat) (cs : List Nat) : (k.addChildren p cs).idents = k.idents :=
  setProc_map_idents fun _ => rfl

theorem proc_create_idents (h : proc_create MAX k cur = some (k', c)) :
    k'.idents = k.idents.create (proc_getid MAX k).1 (proc_getid MAX k).2 := by
  simp only [proc_create, bind, Option.bind_eq_some_iff, KASSERT_eq_some, Option.some.injEq, Prod.mk.injEq] at h
  obtain ⟨pr, -, -, -, -, -, rfl, rfl⟩ := h
  generalize hk₁ : k.addProc { p_pid := (proc_getid MAX k).1, p_pproc := cur } (proc_getid MAX k).2 = k₁
  have hadd : k₁.idents = k.idents.create (proc_getid MAX k).1 (proc_getid MAX k).2 := by
    rw [← hk₁]
    refine Idents.ext ?_ rfl rfl rfl
    exact congrArg Family.pid (addProc_family _ _)
  have hinit : (if (proc_getid MAX k).1 = PID_INIT then k₁.setInit k.nprocs else k₁).idents = k₁.idents := by
    split <;> rfl
  exact ((addChildren_idents _ _ _).trans hinit).trans hadd

theorem kthread_clone_table {t : Nat} (h : kthread_clone k t c = some k') : k'.table = k.table := by
  simp only [kthread_clone, bind, Option.bind_eq_some_iff] at h
  obtain ⟨thr, -, -, -, -, -, h⟩ := h
  split at h <;> cases h <;> rfl

theorem reparent_idents {cs : List Nat} : ∀ {k k' : Kernel}, reparent ini k cs = some k' → k'.idents = k.idents := by
  induction cs with
  | nil =>
    intro k k' h
    cases h
    rfl
  | cons c cs ih =>
    intro k k' h
    simp only [reparent, bind, Option.bind_eq_some_iff] at h
    obtain ⟨pr, -, par, hpar, h⟩ := h
    refine ((ih h).trans (addChildren_idents _ _ _)).trans ?_
    refine Eq.trans (setProc_map_idents fun _ => rfl) ?_
    exact setProc_idents hpar rfl

theorem kthread_exit_idents {retval : Int} (h : kthread_exit k cur retval = some k') : k'.idents = k.idents := by
  simp only [kthread_exit, proc_cleanup, bind, Option.bind_eq_some_iff, Option.some.injEq] at h
  obtain ⟨thr, -, -, -, _, ⟨ini, -, pr, -, -, -, k₂, h2, -, -, k₃, h3, pr', hpr', rfl⟩, rfl⟩ := h
  calc (k₃.setProc cur (some { pr' with p_state := .dead })).idents = k₃.idents := setProc_idents hpr' rfl
    _ = k₂.idents := reparent_idents h3
    _ = k.idents := idents_table (sched_wakeup_on_table h2 :)

/-- What an event does to the identifiers. -/
inductive IdentStep (MAX : Nat) (k : Kernel) (e : Event) (i : Idents) : Prop
  | quiet : i = k.idents → IdentStep MAX k e i
  | created : e = .proc_create ∨ e = .fork → i = k.idents.create (proc_getid MAX k).1 (proc_getid MAX k).2 →
      IdentStep MAX k e i
  | reaped (z : Nat) : i = k.idents.drop z → IdentStep MAX k e i

theorem reap_idents (h : reap k cur z = some (k', w)) : k'.idents = k.idents.drop z := by
  simp only [reap, disposeZombie, bind, Option.bind_eq_some_iff, Option.some.injEq, Prod.mk.injEq] at h
  obtain ⟨zom, hzom, _, ⟨t, -, -, -, par, hpar, rfl⟩, rfl, rfl⟩ := h
  refine Idents.ext ?_ rfl rfl rfl
  exact congrArg Family.pid (bury_family (z := z) (show k.procs cur = some par from hpar))

/-- Up to here the event has changed no identifier. -/
theorem IdentStep.before {k₁ : Kernel} {i : Idents} (h : IdentStep MAX k₁ .dispatch i) (he : k₁.idents = k.idents) :
    IdentStep MAX k .dispatch i := by
  cases h with
  | quiet hi => exact .quiet (hi.trans he)
  | created hc =>
    rcases hc with hc | hc <;> cases hc
  | reaped z hi => exact .reaped z (he ▸ hi)

theorem waitAny_idents (h : waitAny k cur = some (k', w)) : IdentStep MAX k e k'.idents := by
  rcases waitAny_family h with ⟨z, -, -, hreap⟩ | ⟨-, -, hsleep⟩
  · exact .reaped z (reap_idents hreap)
  · exact .quiet (idents_table (sched_sleep_on_table hsleep))

theorem waitFor_idents (h : waitFor k cur c = some (k', w)) : IdentStep MAX k e k'.idents := by
  rcases waitFor_family h with ⟨-, hreap⟩ | ⟨-, -, hsleep⟩
  · exact .reaped c (reap_idents hreap)
  · exact .quiet (idents_table (sched_sleep_on_table hsleep))

theorem step_idents (h : step MAX k e = some (k', w)) : IdentStep MAX k e k'.idents := by
  cases e with simp only [step, bind, Option.bind_eq_some_iff, Option.some.injEq, Prod.mk.injEq, Prod.exists] at h
  | wakeup n =>
    obtain ⟨k₁, h1, rfl, -⟩ := h
    exact .quiet (idents_table (sched_wakeup_on_table h1))
  | broadcast n =>
    obtain ⟨k₁, h1, rfl, -⟩ := h
    exact .quiet (idents_table (broadcast_from_table wakeTail_table h1))
  | dispatch =>
    simp only [dispatch, bind, Option.bind_eq_some_iff, Prod.exists] at h
    obtain ⟨k₁, t, h1, h⟩ := h
    have hswitch := idents_table (sched_switch_to_table h1)
    split at h
    · cases h
      exact .quiet hswitch
    · exact (waitAny_idents h).before hswitch
    · exact (waitFor_idents h).before hswitch
  | proc_create =>
    obtain ⟨cur, -, k₁, c, h1, rfl, -⟩ := h
    exact .created (.inl rfl) (proc_create_idents h1)
  | start p =>
    simp only [kthread_create, kthread_create_as, bind, Option.bind_eq_some_iff, Option.some.injEq] at h
    obtain ⟨cur, -, _, ⟨-, -, -, -, rfl⟩, k₂, h2, rfl, -⟩ := h
    exact .quiet (idents_table (sched_make_runnable_table h2 :))
  | fork =>
    simp only [do_fork, bind, Option.bind_eq_some_iff, Option.some.injEq, Prod.mk.injEq, Prod.exists] at h
    obtain ⟨cur, -, _, _, ⟨k₁, c, h1, k₂, h2, k₃, h3, rfl, rfl⟩, rfl, -⟩ := h
    have hclone := idents_table ((sched_make_runnable_table h3).trans (kthread_clone_table h2))
    exact .created (.inr rfl) (hclone.trans (proc_create_idents h1))
  | do_exit addr status =>
    obtain ⟨cur, -, k₁, h0, rfl, -⟩ := h
    have h1 := do_exit_exits h0
    exact .quiet (kthread_exit_idents h1)
  | fault addr =>
    simp only [fault, bind, Option.bind_eq_some_iff] at h
    obtain ⟨cur, -, k₁, ⟨pr, hpr, h1⟩, rfl, -⟩ := h
    exact .quiet ((kthread_exit_idents h1).trans (setProc_idents hpr rfl))
  | kthread_exit retval =>
    obtain ⟨cur, -, k₁, h1, rfl, -⟩ := h
    exact .quiet (kthread_exit_idents h1)
  | kthread_cancel t retval =>
    obtain ⟨cur, -, k₁, ex, h0, rfl, -⟩ := h
    obtain ⟨-, h1, -⟩ | ⟨-, kthr, -, h1, -⟩ := kthread_cancel_cases h0
    · exact .quiet (kthread_exit_idents h1)
    · exact .quiet (idents_table (sched_cancel_table h1 :))
  | do_waitpid pid =>
    obtain ⟨cur, -, h⟩ := h
    obtain ⟨pr, -, ⟨rfl, -⟩ | ⟨-, h⟩ | ⟨c, -, -, h⟩⟩ := do_waitpid_cases h
    · exact .quiet rfl
    · exact waitAny_idents h
    · exact waitFor_idents h
  | sleep n =>
    obtain ⟨cur, -, k₁, h1, rfl, -⟩ := h
    exact .quiet (idents_table (sched_sleep_on_table h1))
  | cancellable_sleep n =>
    obtain ⟨cur, -, h⟩ := h
    obtain ⟨thr, -, ⟨-, rfl, -⟩ | ⟨-, h1, -⟩⟩ := sched_cancellable_sleep_on_cases h
    · exact .quiet rfl
    · exact .quiet (idents_table (sleepOn_table h1))
  | yield =>
    obtain ⟨cur, -, k₁, h1, rfl, -⟩ := h
    exact .quiet (idents_table (sched_make_runnable_table h1 :))

/-! ## Runs -/

/-- A process is created only while there is an identifier that is not in use. -/
def NotExhausted (MAX : Nat) (k : Kernel) (e : Event) : Prop :=
  e = .proc_create ∨ e = .fork → ∃ pid < MAX, (pid : Int) ∉ k.pids

instance (MAX : Nat) (k : Kernel) (e : Event) : Decidable (NotExhausted MAX k e) := by
  unfold NotExhausted; infer_instance

theorem step_ok (hi : k.idents.Ok MAX) (hfree : NotExhausted MAX k e) (h : step MAX k e = some (k', w)) : k'.idents.Ok MAX := by
  cases step_idents h with
  | quiet he =>
    rw [he]
    exact hi
  | reaped z he =>
    rw [he]
    exact hi.drop z
  | created hcreates he =>
    have hgiven := (proc_getid_given hi.next).2
    rw [he]
    generalize proc_getid MAX k = r at hgiven
    cases hgiven with
    | full hall =>
      obtain ⟨pid, hlt, hnot⟩ := hfree hcreates
      exact absurd (hall pid hlt) hnot
    | fresh pid hlt hnot => exact hi.create hlt hnot

/-- `_proc_getid` comes to an end: with -1 when all identifiers are in use, and else with one that is not. -/
structure GetidFinds (MAX : Nat) (k : Kernel) : Prop where
  ends : ∀ r, Getid MAX k.next_pid k.pids k.next_pid r ↔ r = proc_getid MAX k
  full : (proc_getid MAX k).1 = -1 ↔ ∀ pid < MAX, (pid : Int) ∈ k.pids
  free : (proc_getid MAX k).1 ≠ -1 →
    0 ≤ (proc_getid MAX k).1 ∧ (proc_getid MAX k).1 < MAX ∧ (proc_getid MAX k).1 ∉ k.pids

theorem getid_finds (hnext : k.next_pid < MAX) : GetidFinds MAX k := by
  obtain ⟨hgetid, hgiven⟩ := proc_getid_given hnext
  refine ⟨fun r => ⟨fun hr => hr.unique hgetid, fun hr => hr ▸ hgetid⟩, ?_, ?_⟩
  all_goals generalize proc_getid MAX k = r at hgiven
  · cases hgiven with
    | full hall => exact ⟨fun _ => hall, fun _ => rfl⟩
    | fresh pid hlt hnot =>
      refine ⟨fun h => ?_, fun hall => absurd (hall pid hlt) hnot⟩
      have h : (pid : Int) = -1 := h
      omega
  · intro hne
    cases hgiven with
    | full => exact absurd rfl hne
    | fresh pid hlt hnot => exact ⟨Int.natCast_nonneg pid, Int.ofNat_lt.2 hlt, hnot⟩

/-- From a state in which the identifiers are different and in range the search
comes to an end, and they are so after every run that leaves one for each new process. -/
theorem pids_distinct {k₀ : Kernel} (hi : k₀.idents.Ok MAX) : GetidFinds MAX k₀ ∧
    ∀ k tr, Run (step MAX) (NotExhausted MAX) k₀ k tr →
      k.pids.Nodup ∧ (∀ pid ∈ k.pids, 0 ≤ pid ∧ pid < MAX) ∧ GetidFinds MAX k := by
  refine ⟨getid_finds hi.next, fun k tr hr => ?_⟩
  have hok : k.idents.Ok MAX := hr.inv (fun k => k.idents.Ok MAX) hi fun _ _ _ _ hi hfree hs => step_ok hi hfree hs
  exact ⟨hok.distinct, hok.range, getid_finds hok.next⟩

theorem boot_idents : Kernel.boot.idents.Ok 3 := ⟨by decide, by decide, by decide, by decide⟩

/-- Of three identifiers the idle process keeps 0 and process 2 has 2; process 1 exits, and process 3 gets 1 again. -/
def wrapAround : List Event :=
  [.proc_create, .start 1, .proc_create, .do_waitpid (-1), .dispatch, .do_exit 100 0, .dispatch, .proc_create]

theorem wrapAround_distinct : ∃ k tr, Run (step 3) (NotExhausted 3) Kernel.boot k tr ∧ k.pids = [0, 2, 1] ∧ k.pids.Nodup ∧
    (proc_getid 3 k).1 = -1 := by
  have h : (exec (step 3) (fun k e => decide (NotExhausted 3 k e)) Kernel.boot wrapAround).map
      (fun x => (x.1.pids, (proc_getid 3 x.1).1)) = some ([0, 2, 1], -1) := by decide +kernel
  simp only [Option.map_eq_some_iff, Prod.exists, Prod.mk.injEq] at h
  obtain ⟨k, tr, hex, hpids, hfull⟩ := h
  have hr := Run.of_exec (fun _ _ h => of_decide_eq_true h) hex
  obtain ⟨hdistinct, -⟩ := (pids_distinct boot_idents).2 k tr hr
  exact ⟨k, tr, hr, hpids, hdistinct, hfull⟩

end VmSubmit

end Weenix.Proc
