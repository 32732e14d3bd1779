import Weenix.Proc.Queues
/-!
# The status a process ends with

A step creates a process, ends one, takes one away or does none of this.
`Fates` follows each process through this: it runs with status 0, ends once,
keeps the status it ended with, and is taken away with that status.
-/

namespace Weenix.Proc

/-- What a step does to processes, with the status left or read. -/
inductive Change
  | quiet
  | created
  | ended (c : Nat) (st : Int)
  | reaped (c : Nat) (st : Int)

/-- `x` is the status process `p` is left with when it was 0. -/
inductive Effect (k k' : Kernel) : Change → Prop
  | quiet : ends k' = ends k → k'.nprocs = k.nprocs → Effect k k' .quiet
  | created : ends k' = Function.update (ends k) k.nprocs (some (0, .running)) → k'.nprocs = k.nprocs + 1 →
      Effect k k' .created
  | ended {p st st' x} : ends k p = some (st, .running) → (st = 0 → st' = x) →
      ends k' = Function.update (ends k) p (some (st', .dead)) → k'.nprocs = k.nprocs → Effect k k' (.ended p x)
  | reaped {p st s} : ends k p = some (st, s) → ends k' = Function.update (ends k) p none → k'.nprocs = k.nprocs →
      Effect k k' (.reaped p st)

/-- Process `c` by what happened to it: is there such a process, and `ends` of it. -/
inductive Fate (hist : List Change) (c : Nat) : Prop → Option (Int × ProcState) → Prop
  | unborn {b} : ¬ b → (∀ x, .ended c x ∉ hist) → (∀ x, .reaped c x ∉ hist) → Fate hist c b none
  | running {b} : b → (∀ x, .ended c x ∉ hist) → (∀ x, .reaped c x ∉ hist) → Fate hist c b (some (0, .running))
  | dead {b st} : b → .ended c st ∈ hist → (∀ x, .ended c x ∈ hist → x = st) → (∀ x, .reaped c x ∉ hist) →
      Fate hist c b (some (st, .dead))
  | gone {b} (st) : b → (∀ x, .ended c x ∈ hist → x = st) → (∀ x, .reaped c x ∈ hist → x = st) → Fate hist c b none

/-- Every process has a fate. -/
def Fates (k : Kernel) (hist : List Change) : Prop := ∀ c, Fate hist c (c < k.nprocs) (ends k c)

variable {k k' : Kernel} {hist : List Change} {ch : Change} {c : Nat}

/-- A change of another process. -/
theorem Fate.other {b b' : Prop} {o : Option (Int × ProcState)} (h : Fate hist c b o) (hb : b' ↔ b)
    (h1 : ∀ x, ch ≠ .ended c x) (h2 : ∀ x, ch ≠ .reaped c x) : Fate (hist ++ [ch]) c b' o := by
  have m1 (x) : .ended c x ∈ hist ++ [ch] ↔ .ended c x ∈ hist := by simp [Ne.symm (h1 x)]
  have m2 (x) : .reaped c x ∈ hist ++ [ch] ↔ .reaped c x ∈ hist := by simp [Ne.symm (h2 x)]
  cases h with
  | unborn hb' e r => exact .unborn (fun h => hb' (hb.1 h)) (by simpa only [m1] using e) (by simpa only [m2] using r)
  | running hb' e r => exact .running (hb.2 hb') (by simpa only [m1] using e) (by simpa only [m2] using r)
  | dead hb' e e' r => exact .dead (hb.2 hb') ((m1 _).2 e) (by simpa only [m1] using e') (by simpa only [m2] using r)
  | gone st hb' e r => exact .gone st (hb.2 hb') (by simpa only [m1] using e) (by simpa only [m2] using r)

theorem Fates.effect (hf : Fates k hist) (he : Effect k k' ch) : Fates k' (hist ++ [ch]) := by
  intro c
  have hc := hf c
  cases he with
  | quiet h1 h2 => rw [h1, h2]; exact hc.other .rfl (by simp) (by simp)
  | created h1 h2 =>
    rw [h1, h2]
    by_cases e : c = k.nprocs
    · subst e
      rw [Function.update_self]
      cases hh : ends k k.nprocs with
      | none =>
        rw [hh] at hc
        cases hc with
        | unborn _ e r => exact .running (Nat.lt_succ_self _) (by simpa using e) (by simpa using r)
        | gone st hb => exact absurd hb (Nat.lt_irrefl _)
      | some o =>
        rw [hh] at hc
        cases hc with
        | running hb => exact absurd hb (Nat.lt_irrefl _)
        | dead hb => exact absurd hb (Nat.lt_irrefl _)
    · rw [Function.update_of_ne e]
      exact hc.other (by omega) (by simp) (by simp)
  | @ended p st st' x h1 h2 h3 h4 =>
    rw [h3, h4]
    by_cases e : c = p
    · subst e
      rw [Function.update_self]
      rw [h1] at hc
      cases hc with
      | running hb e r =>
        rw [h2 rfl]
        exact .dead hb (by simp) (fun y hy => by simpa [e y] using hy) (by simpa using r)
    · rw [Function.update_of_ne e]
      exact hc.other .rfl (fun y h => e (by cases h; rfl)) (by simp)
  | @reaped p st s h1 h2 h3 =>
    rw [h2, h3]
    by_cases e : c = p
    · subst e
      rw [Function.update_self]
      rw [h1] at hc
      cases hc with
      | running hb e r =>
        exact .gone 0 hb (fun y hy => by simp [e y] at hy) (fun y hy => by simpa [r y] using hy)
      | dead hb e e' r =>
        exact .gone st hb (fun y hy => e' y (by simpa using hy)) (fun y hy => by simpa [r y] using hy)
    · rw [Function.update_of_ne e]
      exact hc.other .rfl (by simp) (fun y h => e (by cases h; rfl))

/-- The status read is the status the process ended with. -/
theorem Fates.reaped_eq (hf : Fates k hist) {x y : Int} (hr : .reaped c x ∈ hist) (he : .ended c y ∈ hist) : x = y := by
  cases hc : ends k c with
  | none =>
    have := hf c
    rw [hc] at this
    cases this with
    | unborn _ _ r => exact absurd hr (r x)
    | gone st _ e r => rw [r x hr, e y he]
  | some o =>
    have := hf c
    rw [hc] at this
    cases this with
    | running _ _ r => exact absurd hr (r x)
    | dead _ _ _ r => exact absurd hr (r x)

/-- A dead process has the status it ended with, once. -/
theorem Fates.dead_status (hf : Fates k hist) {st : Int} (hd : ends k c = some (st, .dead)) :
    .ended c st ∈ hist ∧ ∀ x, .ended c x ∈ hist → x = st := by
  have := hf c
  rw [hd] at this
  cases this with
  | dead _ e e' => exact ⟨e, e'⟩

theorem boot_ends (p : Nat) : ends Kernel.boot p = if p = 0 then some (0, .running) else none := by
  by_cases h : p = 0 <;> simp [ends, Kernel.boot, h]

theorem boot_fates : Fates Kernel.boot [] := by
  intro c
  rw [boot_ends]
  by_cases h : c = 0
  · subst h
    exact .running Nat.one_pos (by simp) (by simp)
  · rw [if_neg h]
    exact .unborn (by simp only [Kernel.boot]; omega) (by simp) (by simp)

theorem boot_alive (p : Nat) : ¬ Dead Kernel.boot p := by
  rw [dead_iff_ends, boot_ends]
  split <;> simp

theorem boot_queues : Queues Kernel.boot where
  nodup _ := List.nodup_nil
  linked _ _ h := nomatch h
  dead p h := absurd h (boot_alive p)
  cur t _ := boot_alive t

/-! ## Effects of the operations both versions share -/

variable {MAX cur : Nat}

/-- A step on queues and threads only. -/
theorem Effect.of_table (h : k'.table = k.table) : Effect k k' .quiet := .quiet (ends_table h) (nprocs_table h)

/-- The state before a step may differ in queues and threads. -/
theorem Effect.after {k₁ : Kernel} (ht : k₁.table = k.table) (h : Effect k₁ k' ch) : Effect k k' ch := by
  have he := ends_table ht
  have hp := nprocs_table ht
  cases h with
  | quiet h1 h2 => exact .quiet (h1.trans he) (h2.trans hp)
  | created h1 h2 => rw [hp] at h1 h2; exact .created (he ▸ h1) h2
  | ended h1 h2 h3 h4 => exact .ended (he ▸ h1) h2 (he ▸ h3) (h4.trans hp)
  | reaped h1 h2 h3 => exact .reaped (he ▸ h1) (he ▸ h2) (h3.trans hp)

/-- And so may the state after it. -/
theorem Effect.before {k₁ : Kernel} (ht : k'.table = k₁.table) (h : Effect k k₁ ch) : Effect k k' ch := by
  have he := ends_table ht
  have hp := nprocs_table ht
  cases h with
  | quiet h1 h2 => exact .quiet (he.trans h1) (hp.trans h2)
  | created h1 h2 => exact .created (he.trans h1) (hp.trans h2)
  | ended h1 h2 h3 h4 => exact .ended h1 h2 (he.trans h3) (hp.trans h4)
  | reaped h1 h2 h3 => exact .reaped h1 (he.trans h2) (hp.trans h3)

theorem proc_create_changes (h : proc_create MAX k cur = some (k', c)) : Effect k k' .created := by
  obtain ⟨rfl, pr, n, h1, h2, hs⟩ := proc_create_effect h
  refine .created ?_ hs.nprocs
  rw [hs.ends, addProc_ends, h1, h2]

/-- The current process ends. -/
theorem Effect.exit {st st' x : Int} {s : ProcState} (hk : Queues k) (hc : k.curthr = some cur)
    (h1 : ends k cur = some (st, s)) (hx : st = 0 → st' = x)
    (h2 : ends k' = Function.update (ends k) cur (some (st', .dead))) (h3 : k'.nprocs = k.nprocs) :
    Effect k k' (.ended cur x) := by
  cases s with
  | running => exact .ended h1 hx h2 h3
  | dead => exact absurd (dead_iff_ends.2 ⟨st, h1⟩) (hk.cur cur hc)

end Weenix.Proc
