import Mathlib.Logic.Relation
import Weenix.Proc.VmSched
import Weenix.Vm.Frames
/-!
# Waiting for a busy page (`mm/pframe.c`, `proc/sched.c`)

`pframe_get` step by step, in a thread beside others. Threads switch only in
`sched_switch`; an interrupt may make a sleeping thread runnable, and then the
thread that was interrupted goes on. The loop of `pframe_get` looks the page up
again and again and does not call the scheduler.
-/

namespace Weenix.Vm

/-- How far `pframe_get` has come. -/
inductive GetPc
  | enter
  /-- At the test of the loop; `none` is a `pframe_temp` that is `NULL`. -/
  | test (pframe_temp : Option Pframe)
  | done (result : Pframe) (ok : Bool)

/-- From one test of the loop to the next, or the filling of a new page. -/
def getStep (E : Env) (o pn : Nat) : State × GetPc → Option (State × GetPc)
  | (s, .enter) =>
    match pframe_get_resident s o pn with
    | (s, none) => do
      let (s, pf) ← pframe_alloc E s o pn
      let (s, ok) ← pframe_fill (fillpage E) s pf
      some (s, .done pf ok)
    | (s, some pf) => some (s, .test (some pf))
  -- the flags of `NULL` are read
  | (_, .test none) => none
  | (s, .test (some pf)) =>
    if s.pf_busy pf.pf_addr then
      let (s, pframe_temp) := pframe_get_resident s o pn
      some (s, .test pframe_temp)
    else some (s, .done pf true)
  | (_, .done _ _) => none

/-- The memory and the threads; one of them is in `pframe_get`. -/
structure Threads where
  sched : Proc.Kernel
  vm : State
  pc : GetPc

section
variable (E : Env) (o pn t : Nat)

/-- The thread is not in `pframe_get` at all, or it is not the one that runs. -/
def Threads.Elsewhere (w : Threads) : Prop := w.sched.curthr = some t → ∃ pf ok, w.pc = .done pf ok

inductive Step : Threads → Threads → Prop
  | get {w : Threads} {vm : State} {pc : GetPc} : w.sched.curthr = some t → getStep E o pn (w.vm, w.pc) = some (vm, pc) →
      Step w ⟨w.sched, vm, pc⟩
  /-- Any other code. -/
  | code {w : Threads} (vm : State) : w.Elsewhere t → Step w { w with vm := vm }
  | call {w : Threads} {c : Proc.VmSubmit.SchedCall} {k : Proc.Kernel} : w.Elsewhere t →
      Proc.VmSubmit.schedStep w.sched c = some (k, ()) → Step w { w with sched := k }
  | interrupt {w : Threads} {u : Nat} {k : Proc.Kernel} : Proc.sched_make_runnable w.sched u = some k →
      Step w { w with sched := k }

/-- All that happens from `w` on. -/
structure Schedule (w : Threads) (r : Nat → Threads) : Prop where
  start : r 0 = w
  next : ∀ n, Step E o pn t (r n) (r (n + 1))

end

/-- The thread `u`, whenever it has run, clears the busy bit of the frame. -/
def Clears (u : Nat) (pf : Pframe) (r : Nat → Threads) : Prop :=
  ∀ n, (r n).sched.curthr = some u → ∃ m, n ≤ m ∧ (r m).vm.pf_busy pf.pf_addr = false

/-- `pframe_get` returns a frame of the page that is not busy. -/
def Gets (o pn : Nat) (r : Nat → Threads) : Prop :=
  ∃ n pf, (r n).pc = .done pf true ∧ pf.pf_obj = o ∧ pf.pf_pagenum = pn ∧ (r n).vm.pf_busy pf.pf_addr = false

/-- The page that the thread `t` asks for is resident, and busy. -/
structure Spinning (o pn t : Nat) (pf : Pframe) (w : Threads) : Prop where
  running : w.sched.curthr = some t
  resident : w.vm.frame? o pn = some pf
  busy : w.vm.pf_busy pf.pf_addr = true
  at_test : w.pc = .enter ∨ w.pc = .test (some pf)

/-- `pframe_get` gets the page in every schedule in which `u` clears the busy bit. -/
def Progress (E : Env) (o pn t u : Nat) (pf : Pframe) (w : Threads) : Prop :=
  ∀ r, Schedule E o pn t w r → Clears u pf r → Gets o pn r

variable {E : Env} {o pn t u : Nat} {pf : Pframe} {w w' : Threads} {s s' : State}

/-! ## Alone -/

theorem get_resident_some (h : s.frame? o pn = some pf) : ∃ s', pframe_get_resident s o pn = (s', some pf) ∧
    s'.frame? o pn = some pf ∧ s'.pf_busy = s.pf_busy := by
  simp only [pframe_get_resident, h]
  split
  · exact ⟨_, rfl, h, rfl⟩
  · exact ⟨_, rfl, h, rfl⟩

/-- The steps that `pframe_get` takes when no other thread runs. -/
abbrev GetSteps (E : Env) (o pn : Nat) : State × GetPc → State × GetPc → Prop :=
  Relation.ReflTransGen fun a b => getStep E o pn a = some b

theorem done_steps {ok ok' : Bool} {pf' : Pframe} (h : GetSteps E o pn (s, .done pf ok) (s', .done pf' ok')) :
    s = s' ∧ pf = pf' ∧ ok = ok' := by
  rcases h.cases_head with h | ⟨x, hx, -⟩
  · cases h
    exact ⟨rfl, rfl, rfl⟩
  · cases hx

/-- A page that is busy is tested again. -/
theorem busy_steps {x : State × GetPc} (hres : s.frame? o pn = some pf) (hbusy : s.pf_busy pf.pf_addr = true)
    (h : GetSteps E o pn (s, .test (some pf)) x) :
    x.1.frame? o pn = some pf ∧ x.1.pf_busy pf.pf_addr = true ∧ x.2 = .test (some pf) := by
  induction h with
  | refl => exact ⟨hres, hbusy, rfl⟩
  | @tail x y _ hxy ih =>
    obtain ⟨s₁, pc⟩ := x
    obtain ⟨hres₁, hbusy₁, rfl⟩ := ih
    dsimp only at hres₁ hbusy₁
    obtain ⟨s₂, hr, hres₂, hbusy₂⟩ := get_resident_some hres₁
    simp only [getStep, hbusy₁, if_true, hr, Option.some.injEq] at hxy
    subst hxy
    exact ⟨hres₂, by rw [hbusy₂, hbusy₁], rfl⟩

/-- Step by step, and alone, `pframe_get` does what it does in one step. -/
theorem getSteps_iff {ok : Bool} : GetSteps E o pn (s, .enter) (s', .done pf ok) ↔ pframe_get E s o pn = some (s', pf, ok) := by
  cases hres : s.frame? o pn with
  | none =>
    have hr : pframe_get_resident s o pn = (s, none) := by simp only [pframe_get_resident, hres]
    simp only [pframe_get, pframe_get_by, hr]
    constructor
    · intro h
      rcases h.cases_head with h | ⟨⟨s₁, pc⟩, hx, h⟩
      · cases h
      simp only [getStep, hr, bind, Option.bind_eq_some_iff, Prod.exists, Option.some.injEq, Prod.mk.injEq] at hx
      obtain ⟨s₂, pf₂, ha, s₃, ok₃, hf, rfl, rfl⟩ := hx
      obtain ⟨rfl, rfl, rfl⟩ := done_steps h
      simp only [ha, hf, bind, Option.bind_some]
    · intro h
      refine .single ?_
      simp only [bind, Option.bind_eq_some_iff, Prod.exists, Option.some.injEq, Prod.mk.injEq] at h
      obtain ⟨s₂, pf₂, ha, s₃, ok₃, hf, rfl, rfl, rfl⟩ := h
      simp only [getStep, hr, ha, hf, bind, Option.bind_some]
  | some pf₁ =>
    obtain ⟨s₁, hr, hres₁, hbusy₁⟩ := get_resident_some hres
    have henter : getStep E o pn (s, .enter) = some (s₁, .test (some pf₁)) := by simp only [getStep, hr]
    simp only [pframe_get, pframe_get_by, hr]
    by_cases hb : s₁.pf_busy pf₁.pf_addr = true
    · rw [if_pos hb]
      refine iff_of_false (fun h => ?_) (by simp)
      rcases h.cases_head with h | ⟨x, hx, h⟩
      · cases h
      cases henter.symm.trans hx
      cases (busy_steps hres₁ hb h).2.2
    · rw [if_neg hb]
      have htest : getStep E o pn (s₁, .test (some pf₁)) = some (s₁, .done pf₁ true) := by simp only [getStep, if_neg hb]
      constructor
      · intro h
        rcases h.cases_head with h | ⟨x, hx, h⟩
        · cases h
        cases henter.symm.trans hx
        rcases h.cases_head with h | ⟨x, hx, h⟩
        · cases h
        cases htest.symm.trans hx
        obtain ⟨rfl, rfl, rfl⟩ := done_steps h
        rfl
      · intro h
        cases h
        exact .head henter (.single htest)

/-! ## Beside other threads -/

theorem Spinning.step (h : Spinning o pn t pf w) (hs : Step E o pn t w w') : Spinning o pn t pf w' := by
  obtain ⟨hrun, hres, hbusy, hpc⟩ := h
  -- the thread has not returned
  have hhere : ¬ w.Elsewhere t := by
    intro h
    obtain ⟨pf', ok, he⟩ := h hrun
    rcases hpc with hpc | hpc <;> simp [hpc] at he
  cases hs with
  | get _ hget =>
    obtain ⟨s', hr, hres', hbusy'⟩ := get_resident_some hres
    have hbusy' : s'.pf_busy pf.pf_addr = true := by rw [hbusy', hbusy]
    rcases hpc with hpc | hpc
    · rw [hpc] at hget
      simp only [getStep, hr, Option.some.injEq, Prod.mk.injEq] at hget
      obtain ⟨rfl, rfl⟩ := hget
      exact ⟨hrun, hres', hbusy', .inr rfl⟩
    · rw [hpc] at hget
      simp only [getStep, hbusy, if_true, hr, Option.some.injEq, Prod.mk.injEq] at hget
      obtain ⟨rfl, rfl⟩ := hget
      exact ⟨hrun, hres', hbusy', .inr rfl⟩
  | code vm helse => exact absurd helse hhere
  | call helse _ => exact absurd helse hhere
  | interrupt hu => exact ⟨(Proc.make_runnable_curthr hu).trans hrun, hres, hbusy, hpc⟩

/-- There is a next test. -/
theorem Spinning.goes_on (h : Spinning o pn t pf w) : ∃ w', Step E o pn t w w' := by
  obtain ⟨hrun, hres, hbusy, hpc⟩ := h
  obtain ⟨s', hr, -⟩ := get_resident_some hres
  refine ⟨⟨w.sched, s', .test (some pf)⟩, .get hrun ?_⟩
  rcases hpc with hpc | hpc
  · simp only [hpc, getStep, hr]
  · simp only [hpc, getStep, hbusy, if_true, hr]

theorem Schedule.spins {r : Nat → Threads} (h : Spinning o pn t pf w) (hr : Schedule E o pn t w r) (n : Nat) :
    Spinning o pn t pf (r n) := by
  induction n with
  | zero => exact hr.start ▸ h
  | succ n ih => exact ih.step (hr.next n)

/-- The loop goes on for ever. -/
theorem Spinning.schedule (h : Spinning o pn t pf w) : ∃ r, Schedule E o pn t w r := by
  have hnext : ∀ x : { w // Spinning o pn t pf w }, ∃ y : { w // Spinning o pn t pf w }, Step E o pn t x.1 y.1 := by
    intro x
    obtain ⟨w', hs⟩ := x.2.goes_on (E := E)
    exact ⟨⟨w', x.2.step hs⟩, hs⟩
  choose f hf using hnext
  refine ⟨fun n => (f^[n] ⟨w, h⟩).1, rfl, fun n => ?_⟩
  rw [Function.iterate_succ_apply']
  exact hf _

theorem Spinning.not_gets {r : Nat → Threads} (h : Spinning o pn t pf w) (hr : Schedule E o pn t w r) : ¬ Gets o pn r := by
  rintro ⟨n, pf', he, -⟩
  rcases (hr.spins h n).at_test with hpc | hpc <;> rw [hpc] at he <;> cases he

/-- The thread that is to clear the bit never runs. -/
theorem Spinning.clears {r : Nat → Threads} (h : Spinning o pn t pf w) (hu : u ≠ t) (hr : Schedule E o pn t w r) : Clears u pf r := by
  intro n hn
  rw [(hr.spins h n).running] at hn
  exact absurd (Option.some.inj hn).symm hu

/-- `pframe_get` on a page that is busy keeps the processor, whatever else there is to run. -/
theorem busy_page_spins (hu : u ≠ t) (hrun : w.sched.curthr = some t) (hpc : w.pc = .enter) (hres : w.vm.frame? o pn = some pf)
    (hbusy : w.vm.pf_busy pf.pf_addr = true) : ¬ Progress E o pn t u pf w ∧
    ∀ r, Schedule E o pn t w r → (∀ n, (r n).sched.curthr = some t) ∧ ¬ Gets o pn r := by
  have h : Spinning o pn t pf w := ⟨hrun, hres, hbusy, .inl hpc⟩
  refine ⟨fun hp => ?_, fun r hr => ⟨fun n => (hr.spins h n).running, h.not_gets hr⟩⟩
  obtain ⟨r, hr⟩ := h.schedule (E := E)
  exact h.not_gets hr (hp r hr (h.clears hu hr))

/-- Page 0 of object 0 is busy. Thread 1, which is to clear the bit, waits on the run queue. -/
def oneBusy : Threads where
  sched := { Proc.Kernel.boot with
    threads := fun t => if t = 0 then some ⟨.run, none, 0, false⟩ else if t = 1 then some ⟨.run, some .runq, 0, false⟩ else none
    tq_list := fun q => if q = .runq then [1] else []
    tq_size := fun q => if q = .runq then 1 else 0 }
  vm := { State.bare with pframes := [⟨7, 0, 0⟩], alloc_list := [7], pf_busy := (· = 7) }
  pc := .enter

theorem one_busy_page : ¬ Progress .simple 0 0 0 1 ⟨7, 0, 0⟩ oneBusy := (busy_page_spins (by decide) rfl rfl rfl rfl).1

/-- The other thread would clear the bit, and never runs. -/
theorem runnable_never_runs : ∃ r, Schedule .simple 0 0 0 oneBusy r ∧ Clears 1 ⟨7, 0, 0⟩ r ∧ ¬ Gets 0 0 r := by
  have h : Spinning 0 0 0 ⟨7, 0, 0⟩ oneBusy := ⟨rfl, rfl, rfl, .inl rfl⟩
  obtain ⟨r, hr⟩ := h.schedule (E := .simple)
  exact ⟨r, hr, h.clears (by decide) hr, h.not_gets hr⟩

end Weenix.Vm
