import Weenix.Vm.Brk
/-!
# How `do_brk` ends the run

`do_brk` looks up the area that has the break and uses it without a check, and
asks `vmmap_is_range_empty` about a number of pages that need not be positive.
`brk_safe_iff` says for which addresses it does neither, and refuses what it
cannot satisfy.
-/

namespace Weenix.Vm

open Lib Lib.Intervals

variable {C : Config} {s s' t : State} {p addr start brk : Nat} {l : List VmArea} {pr : Proc} {held : Nat → Int}

/-! ## `do_brk` with the place where the run ends -/

inductive BrkCrash
  /-- `vmmap_lookup` gives `NULL`, which is used. -/
  | null
  /-- An assertion of `vmmap_is_range_empty` fails. -/
  | assertion
  /-- The call to `do_mmap` does not return. -/
  | mmap
  /-- The call to `vmmap_remove` does not return. -/
  | remove
  deriving DecidableEq

def orCrash {α : Type} (c : BrkCrash) : Option α → Except BrkCrash α
  | none => .error c
  | some x => .ok x

/-- `do_brk` of the process `pr`. -/
def brk_run (C : Config) (s : State) (p : Nat) (pr : Proc) (addr : Nat) : Except BrkCrash (State × Except Errno Nat) :=
  let m := pr.p_vmmap
  if addr = 0 then .ok (s, .ok (s.p_brk p))
  else if pr.p_start_brk > addr then .ok (s, .error .ENOMEM)
  else if C.USER_MEM_HIGH < addr then .ok (s, .error .ENOMEM)
  else
    let finalbrkPg := ADDR_TO_PN addr
    let initialbrkPg := ADDR_TO_PN pr.p_start_brk
    match vmmap_lookup (s.vmm_list m) initialbrkPg with
    | none => do
      let (s, r) ← orCrash .mmap (do_mmap C s p (PN_TO_ADDR initialbrkPg) (PN_TO_ADDR (usub finalbrkPg initialbrkPg))
        { read := true, write := true } { priv := true, anon := true } (-1) 0)
      match r with
      | .error e => .ok (s, .error e)
      | .ok _ => .ok (setBrk s p addr, .ok addr)
    | some _ =>
      let uintInitPg := ADDR_TO_PN (s.p_brk p)
      if uintInitPg = finalbrkPg then .ok (setBrk s p addr, .ok addr)
      else if uintInitPg < finalbrkPg then do
        let a ← orCrash .null (vmmap_lookup (s.vmm_list m) uintInitPg)
        let e ← orCrash .assertion (vmmap_is_range_empty C (s.vmm_list m) a.vma_end (usub (1 + finalbrkPg) a.vma_end))
        if e then
          .ok (setBrk (s.modArea m a.vma_id (VmArea.cutEnd (1 + finalbrkPg))) p addr, .ok addr)
        else .ok (s, .error .ENOMEM)
      else do
        let s ← orCrash .remove (vmmap_remove C s p m (finalbrkPg + 1) (uintInitPg - finalbrkPg))
        .ok (setBrk s p addr, .ok addr)

theorem orCrash_bind {α β : Type} (c : BrkCrash) (x : Option α) {f : α → Except BrkCrash β} {g : α → Option β}
    (h : ∀ a, (f a).toOption = g a) : ((orCrash c x).bind f).toOption = x.bind g := by
  cases x with
  | none => rfl
  | some a => exact h a

/-- Without the place, `brk_run` is `do_brk`. -/
theorem brk_run_eq (hpr : s.procs p = some pr) : (brk_run C s p pr addr).toOption = do_brk C s p addr := by
  unfold brk_run do_brk
  simp only [hpr, bind, Option.bind_some]
  split
  · rfl
  split
  · rfl
  split
  · rfl
  cases vmmap_lookup (s.vmm_list pr.p_vmmap) (ADDR_TO_PN pr.p_start_brk) with
  | none =>
    apply orCrash_bind
    rintro ⟨t, r⟩
    cases r <;> rfl
  | some c =>
    simp only
    split
    · rfl
    split
    · apply orCrash_bind
      intro a
      apply orCrash_bind
      intro e
      cases e <;> rfl
    · exact orCrash_bind _ _ fun _ => rfl

/-! ## How it should end -/

/-- An area starts above the page of the break and below `addr`. -/
def Blocked (l : List VmArea) (brk addr : Nat) : Prop := ∃ c ∈ l, ADDR_TO_PN brk < c.vma_start ∧ c.vma_start * PAGE_SIZE < addr

/-- The break cannot be `addr`: its limits are where it starts, the next area and the end of user memory. -/
def Unsatisfiable (C : Config) (l : List VmArea) (start brk addr : Nat) : Prop :=
  addr ≠ 0 ∧ (addr < start ∨ C.USER_MEM_HIGH < addr ∨ Blocked l brk addr)

/-- No assertion of `vmmap_is_range_empty` fails, no `NULL` is used, and an address that is no break is refused. -/
structure BrkEnds (C : Config) (s : State) (p : Nat) (pr : Proc) (addr : Nat) : Prop where
  null : brk_run C s p pr addr ≠ .error .null
  assertion : brk_run C s p pr addr ≠ .error .assertion
  mmap : brk_run C s p pr addr ≠ .error .mmap
  refused : Unsatisfiable C (s.vmm_list pr.p_vmmap) pr.p_start_brk (s.p_brk p) addr → ∃ e, brk_run C s p pr addr = .ok (s, .error e)

/-- The address is no break in an obvious way; or nothing is mapped where the break starts, and the pages of the first
growth would not be blocked or have no room; or the break does not grow, or grows past the end of the area it is in, to an
address below the end of user memory. -/
def BrkSafe (C : Config) (l : List VmArea) (start brk addr : Nat) : Prop :=
  addr = 0 ∨ addr < start ∨ C.USER_MEM_HIGH < addr ∨
    match vmmap_lookup l (ADDR_TO_PN start) with
    | none => ¬ (ADDR_TO_PN start < ADDR_TO_PN addr ∧ Gap C l (ADDR_TO_PN addr - ADDR_TO_PN start) ∧ Blocked l brk addr)
    | some _ => ADDR_TO_PN addr ≤ ADDR_TO_PN brk ∨
        ∃ a, vmmap_lookup l (ADDR_TO_PN brk) = some a ∧ a.vma_end ≤ ADDR_TO_PN addr ∧ ADDR_TO_PN addr < C.high

/-! ## When it does -/

/-- The pages a growing break asks about are free if they are there to ask about. -/
theorem range_empty_none_iff {a : VmArea} (hlow : C.low ≤ a.vma_end) (hend : a.vma_end ≤ C.high) (hF : ADDR_TO_PN addr ≤ C.high) :
    vmmap_is_range_empty C l a.vma_end (usub (1 + ADDR_TO_PN addr) a.vma_end) = none ↔
      ¬ (a.vma_end ≤ ADDR_TO_PN addr ∧ ADDR_TO_PN addr < C.high) := by
  have hC := C.high_lt
  unfold vmmap_is_range_empty KASSERT
  simp only [bind]
  split
  next h =>
    simp only [Option.bind_some, reduceCtorEq, false_iff, not_not]
    unfold u32 usub at h
    omega
  next h =>
    simp only [Option.bind_none, true_iff]
    unfold u32 usub at h
    omega

/-- A call that returns ends as it should when there is a break at the address, or it fails. -/
theorem brk_ends_of_returns {t : State} {w : Except Errno Nat} (hr : brk_run C s p pr addr = .ok (t, w)) :
    BrkEnds C s p pr addr ↔
      (Unsatisfiable C (s.vmm_list pr.p_vmmap) pr.p_start_brk (s.p_brk p) addr → ∃ e, (t, w) = (s, .error e)) := by
  constructor
  · intro h hu
    obtain ⟨e, he⟩ := h.refused hu
    rw [hr] at he
    exact ⟨e, Except.ok.inj he⟩
  · intro h
    refine ⟨by simp [hr], by simp [hr], by simp [hr], fun hu => ?_⟩
    obtain ⟨e, he⟩ := h hu
    exact ⟨e, by rw [hr, he]⟩

/-- What `do_brk` returns after its call to `do_mmap`. -/
def brkMapped (p addr : Nat) : State × Except Errno Nat → Except BrkCrash (State × Except Errno Nat)
  | (s, .error e) => .ok (s, .error e)
  | (s, .ok _) => .ok (setBrk s p addr, .ok addr)

/-- Where nothing is mapped at the start of the break. -/
theorem brk_ends_unmapped (h : AtRest C held s) (hpr : s.procs p = some pr) (hin : BrkInside C pr addr)
    (hnone : vmmap_lookup (s.vmm_list pr.p_vmmap) (ADDR_TO_PN pr.p_start_brk) = none) : BrkEnds C s p pr addr ↔
      ¬ (ADDR_TO_PN pr.p_start_brk < ADDR_TO_PN addr ∧
        Gap C (s.vmm_list pr.p_vmmap) (ADDR_TO_PN addr - ADDR_TO_PN pr.p_start_brk) ∧
        Blocked (s.vmm_list pr.p_vmmap) (s.p_brk p) addr) := by
  have hC := C.high_lt
  obtain ⟨hS, hF⟩ := hin.pages
  have hrun : brk_run C s p pr addr = (orCrash .mmap (do_mmap C s p (PN_TO_ADDR (ADDR_TO_PN pr.p_start_brk))
      (PN_TO_ADDR (ADDR_TO_PN addr - ADDR_TO_PN pr.p_start_brk)) heapProt heapFlags (-1) 0)).bind
      (brkMapped p addr) := by
    unfold brk_run
    rw [if_neg hin.set, if_neg (Nat.not_lt.2 hin.start), if_neg (Nat.not_lt.2 hin.high)]
    simp only [hnone, usub_of_le hS (show ADDR_TO_PN addr < 2 ^ 32 by omega), bind]
    congr 1
    funext ⟨t, w⟩
    cases w <;> rfl
  rcases brk_mmap (PN_TO_ADDR (ADDR_TO_PN pr.p_start_brk)) h hpr
    (show ADDR_TO_PN addr - ADDR_TO_PN pr.p_start_brk ≤ C.high by omega) with ⟨e, he, hno⟩ | ⟨u, start, he, hpos, hg⟩
  · rw [he] at hrun
    rw [brk_ends_of_returns hrun]
    exact ⟨fun _ hb => hno ⟨by omega, hb.2.1⟩, fun _ _ => ⟨e, rfl⟩⟩
  · rw [he] at hrun
    rw [brk_ends_of_returns hrun]
    have hgap : Gap C (s.vmm_list pr.p_vmmap) (ADDR_TO_PN addr - ADDR_TO_PN pr.p_start_brk) := ⟨start, hg.1, hg.2.1, hg.2.2.1⟩
    constructor
    · rintro hu ⟨-, -, hb⟩
      obtain ⟨e, he⟩ := hu ⟨hin.set, .inr (.inr hb)⟩
      cases he
    · intro hno hu
      have hb := (hu.2.resolve_left (Nat.not_lt.2 hin.start)).resolve_left (Nat.not_lt.2 hin.high)
      exact absurd ⟨by omega, hgap, hb⟩ hno

/-- Where the start of the break is mapped. -/
theorem brk_ends_mapped {c : VmArea} (h : AtRest C held s) (hin : BrkInside C pr addr)
    (hc : vmmap_lookup (s.vmm_list pr.p_vmmap) (ADDR_TO_PN pr.p_start_brk) = some c) : BrkEnds C s p pr addr ↔
      (ADDR_TO_PN addr ≤ ADDR_TO_PN (s.p_brk p) ∨ ∃ a, vmmap_lookup (s.vmm_list pr.p_vmmap) (ADDR_TO_PN (s.p_brk p)) = some a ∧
        a.vma_end ≤ ADDR_TO_PN addr ∧ ADDR_TO_PN addr < C.high) := by
  have hok := h.backing.layout.areas pr.p_vmmap
  obtain ⟨hS, hF⟩ := hin.pages
  have habove : Unsatisfiable C (s.vmm_list pr.p_vmmap) pr.p_start_brk (s.p_brk p) addr →
      ∃ b ∈ s.vmm_list pr.p_vmmap, ADDR_TO_PN (s.p_brk p) < b.vma_start ∧ b.vma_start ≤ ADDR_TO_PN addr := fun hu => by
    obtain ⟨b, hb, h1, h2⟩ := (hu.2.resolve_left (Nat.not_lt.2 hin.start)).resolve_left (Nat.not_lt.2 hin.high)
    refine ⟨b, hb, h1, ?_⟩
    unfold PAGE_SIZE at h2
    unfold ADDR_TO_PN PAGE_SIZE
    omega
  -- an area that starts above the page of the break starts behind the area the break is in
  have hblocked {a : VmArea} (ha : vmmap_lookup (s.vmm_list pr.p_vmmap) (ADDR_TO_PN (s.p_brk p)) = some a)
      (hfree : RangeFree (s.vmm_list pr.p_vmmap) a.vma_end (1 + ADDR_TO_PN addr)) :
      ¬ Unsatisfiable C (s.vmm_list pr.p_vmmap) pr.p_start_brk (s.p_brk p) addr := fun hu => by
    obtain ⟨b, hb, h1, h2⟩ := habove hu
    obtain ⟨ham, ha1, ha2⟩ := hok.sorted.find_iff.1 ha
    have hne := hok.sorted.nonempty b hb
    rcases hfree b hb with hle | hle
    · have h3 := hok.sorted.find_iff.2 ⟨hb, Nat.le_refl _, hne⟩
      have h4 := hok.sorted.find_iff.2 ⟨ham, ha1.trans h1.le, Nat.lt_of_lt_of_le hne hle⟩
      rw [h3] at h4
      cases h4
      omega
    · omega
  have hrun : brk_run C s p pr addr =
      if ADDR_TO_PN (s.p_brk p) = ADDR_TO_PN addr then .ok (setBrk s p addr, .ok addr)
      else if ADDR_TO_PN (s.p_brk p) < ADDR_TO_PN addr then
        (orCrash .null (vmmap_lookup (s.vmm_list pr.p_vmmap) (ADDR_TO_PN (s.p_brk p)))).bind fun a =>
          (orCrash .assertion (vmmap_is_range_empty C (s.vmm_list pr.p_vmmap) a.vma_end
            (usub (1 + ADDR_TO_PN addr) a.vma_end))).bind fun e =>
            if e then .ok (setBrk (s.modArea pr.p_vmmap a.vma_id (VmArea.cutEnd (1 + ADDR_TO_PN addr))) p addr, .ok addr)
            else .ok (s, .error .ENOMEM)
      else (orCrash .remove (vmmap_remove C s p pr.p_vmmap (ADDR_TO_PN addr + 1)
        (ADDR_TO_PN (s.p_brk p) - ADDR_TO_PN addr))).bind fun s => .ok (setBrk s p addr, .ok addr) := by
    unfold brk_run
    rw [if_neg hin.set, if_neg (Nat.not_lt.2 hin.start), if_neg (Nat.not_lt.2 hin.high)]
    simp only [hc, bind]
  rcases Nat.lt_trichotomy (ADDR_TO_PN (s.p_brk p)) (ADDR_TO_PN addr) with hlt | heq | hgt
  · rw [if_neg hlt.ne, if_pos hlt] at hrun
    rw [or_iff_right (Nat.not_le.2 hlt)]
    cases ha : vmmap_lookup (s.vmm_list pr.p_vmmap) (ADDR_TO_PN (s.p_brk p)) with
    | none =>
      rw [ha] at hrun
      exact ⟨fun he => absurd hrun he.null, fun ⟨a, he, _⟩ => by cases he⟩
    | some a =>
      rw [ha] at hrun
      simp only [Option.some.injEq, exists_eq_left']
      obtain ⟨ham, -⟩ := hok.sorted.find_iff.1 ha
      have hnone := range_empty_none_iff (l := s.vmm_list pr.p_vmmap) (((hok.low a ham).trans (hok.sorted.nonempty a ham).le))
        (hok.high a ham) hF
      cases he : vmmap_is_range_empty C (s.vmm_list pr.p_vmmap) a.vma_end (usub (1 + ADDR_TO_PN addr) a.vma_end) with
      | none =>
        rw [show (orCrash .null (some a) : Except BrkCrash VmArea) = .ok a from rfl] at hrun
        simp only [Except.bind, he] at hrun
        exact ⟨fun hb => absurd hrun hb.assertion, fun hb => absurd hb (hnone.1 he)⟩
      | some e =>
        have hsafe : a.vma_end ≤ ADDR_TO_PN addr ∧ ADDR_TO_PN addr < C.high := by
          by_contra hb
          rw [hnone.2 hb] at he
          cases he
        refine iff_of_true ?_ hsafe
        rw [show (orCrash .null (some a) : Except BrkCrash VmArea) = .ok a from rfl] at hrun
        simp only [Except.bind, he] at hrun
        cases e with
        | false => exact (brk_ends_of_returns hrun).2 fun _ => ⟨_, rfl⟩
        | true =>
          have hfree := (vmmap_is_range_empty_eq hok he).2.1 rfl
          have hend : u32 (a.vma_end + usub (1 + ADDR_TO_PN addr) a.vma_end) = 1 + ADDR_TO_PN addr := by
            have := C.high_lt
            unfold u32 usub
            omega
          rw [hend] at hfree
          exact (brk_ends_of_returns hrun).2 fun hu => absurd hu (hblocked ha hfree)
  · rw [if_pos heq] at hrun
    refine iff_of_true ((brk_ends_of_returns hrun).2 fun hu => ?_) (.inl heq.ge)
    obtain ⟨b, -, h1, h2⟩ := habove hu
    omega
  · rw [if_neg hgt.ne', if_neg (Nat.not_lt.2 hgt.le)] at hrun
    refine iff_of_true ⟨?_, ?_, ?_, fun hu => ?_⟩ (.inl hgt.le)
    case refine_4 =>
      obtain ⟨b, -, h1, h2⟩ := habove hu
      omega
    all_goals
      rw [hrun]
      cases vmmap_remove C s p pr.p_vmmap (ADDR_TO_PN addr + 1) (ADDR_TO_PN (s.p_brk p) - ADDR_TO_PN addr) <;>
        simp [orCrash, Except.bind]

theorem brk_ends_iff (h : AtRest C held s) (hpr : s.procs p = some pr) :
    BrkEnds C s p pr addr ↔ BrkSafe C (s.vmm_list pr.p_vmmap) pr.p_start_brk (s.p_brk p) addr := by
  by_cases h0 : addr = 0
  · have hrun : brk_run C s p pr addr = .ok (s, .ok (s.p_brk p)) := by
      unfold brk_run
      rw [if_pos h0]
    exact ⟨fun _ => .inl h0, fun _ => (brk_ends_of_returns hrun).2 fun hu => absurd h0 hu.1⟩
  by_cases hstart : addr < pr.p_start_brk
  · have hrun : brk_run C s p pr addr = .ok (s, .error .ENOMEM) := by
      unfold brk_run
      rw [if_neg h0, if_pos hstart]
    exact ⟨fun _ => .inr (.inl hstart), fun _ => (brk_ends_of_returns hrun).2 fun _ => ⟨_, rfl⟩⟩
  by_cases hhigh : C.USER_MEM_HIGH < addr
  · have hrun : brk_run C s p pr addr = .ok (s, .error .ENOMEM) := by
      unfold brk_run
      rw [if_neg h0, if_neg hstart, if_pos hhigh]
    exact ⟨fun _ => .inr (.inr (.inl hhigh)), fun _ => (brk_ends_of_returns hrun).2 fun _ => ⟨_, rfl⟩⟩
  have hin : BrkInside C pr addr := ⟨h0, Nat.not_lt.1 hstart, Nat.not_lt.1 hhigh⟩
  unfold BrkSafe
  rw [or_iff_right h0, or_iff_right hstart, or_iff_right hhigh]
  cases hl : vmmap_lookup (s.vmm_list pr.p_vmmap) (ADDR_TO_PN pr.p_start_brk) with
  | none => exact brk_ends_unmapped h hpr hin hl
  | some c => exact brk_ends_mapped h hin hl

/-- Whatever `mmap`, `munmap` and `brk` left behind, wherever the break starts and stands: `do_brk` ends as it should
exactly for the safe addresses. -/
theorem brk_safe_iff {s₀ : State} {tr : List (HeapOp × Except Errno Nat)} (h₀ : AtRest C held s₀) (hbrk : s₀.p_brk p < 2 ^ 32)
    (hrun : Run (heapStep C p) (fun _ op => op.Bounded) s₀ t tr) (hpr : t.procs p = some pr) (start brk addr : Nat) :
    (brk_run C (t.withBreak p pr start brk) p { pr with p_start_brk := start } addr).toOption =
      do_brk C (t.withBreak p pr start brk) p addr ∧
    (BrkEnds C (t.withBreak p pr start brk) p { pr with p_start_brk := start } addr ↔
      BrkSafe C (t.vmm_list pr.p_vmmap) start brk addr) := by
  obtain ⟨ht, -⟩ := run_rest h₀ hbrk (fun _ _ h => h) hrun
  have hpr' : (t.withBreak p pr start brk).procs p = some { pr with p_start_brk := start } := Function.update_self ..
  refine ⟨brk_run_eq hpr', ?_⟩
  rw [brk_ends_iff (ht.withBreak hpr start brk) hpr', show (t.withBreak p pr start brk).p_brk p = brk from Function.update_self ..]
  rfl

/-- The break may grow by a page behind the data page. -/
theorem brk_grows_safely : ∃ t tr pr, Run (heapStep .stock 0) (fun _ op => op.Bounded) (loaded 0x402800) t tr ∧
    t.procs 0 = some pr ∧ BrkEnds .stock (t.withBreak 0 pr 0x402800 0x402800) 0 { pr with p_start_brk := 0x402800 } 0x403800 := by
  have hex : ((exec (heapStep .stock 0) (fun _ op => decide op.Bounded) (loaded 0x402800) [dataPage]).bind fun r =>
      (r.1.procs 0).bind fun pr => (vmmap_lookup (r.1.vmm_list pr.p_vmmap) 0x402).map fun a => a.vma_end) = some 0x403 := by
    decide +kernel
  simp only [Option.bind_eq_some_iff, Option.map_eq_some_iff, Prod.exists] at hex
  obtain ⟨t, tr, he, pr, hpr, a, ha, hend⟩ := hex
  have hrun : Run (heapStep .stock 0) (fun _ op => op.Bounded) (loaded 0x402800) t tr := Run.of_exec (fun _ _ => of_decide_eq_true) he
  obtain ⟨held, h⟩ := loaded_rest .stock 0x402800
  have hpage : ADDR_TO_PN 0x402800 = 0x402 ∧ ADDR_TO_PN 0x403800 = 0x403 := by decide
  refine ⟨t, tr, pr, hrun, hpr, (brk_safe_iff h (by decide +kernel) hrun hpr 0x402800 0x402800 0x403800).2.2 ?_⟩
  unfold BrkSafe
  rw [hpage.1, hpage.2, ha]
  exact .inr (.inr (.inr (.inr ⟨a, rfl, hend.le, by decide⟩)))

/-- The break of `p` is in user memory, and not below its start. -/
def BreakOk (C : Config) (s : State) (p : Nat) (pr : Proc) : Prop :=
  C.USER_MEM_LOW ≤ pr.p_start_brk ∧ pr.p_start_brk ≤ s.p_brk p ∧ s.p_brk p ≤ C.USER_MEM_HIGH

instance (C : Config) (s : State) (p : Nat) (pr : Proc) : Decidable (BreakOk C s p pr) := inferInstanceAs (Decidable (_ ∧ _ ∧ _))

/-- `do_brk` to the end of user memory fails an assertion; once the page of the break is unmapped the next growth uses a
`NULL`; and a break that starts at an unmapped page moves past the area that is in its way. -/
theorem brk_unsafe :
    (∃ t tr pr, Run (heapStep .stock 0) (fun _ op => op.Bounded) (loaded 0x402800) t tr ∧ t.procs 0 = some pr ∧
      BreakOk .stock t 0 pr ∧ brk_run .stock t 0 pr 0xc0000000 = .error .assertion) ∧
    (∃ t tr pr, Run (heapStep .stock 0) (fun _ op => op.Bounded) (loaded 0x402800) t tr ∧ t.procs 0 = some pr ∧
      BreakOk .stock t 0 pr ∧ brk_run .stock t 0 pr 0x405000 = .error .null) ∧
    ∃ t tr pr t', Run (heapStep .stock 0) (fun _ op => op.Bounded) (loaded 0x400000) t tr ∧ t.procs 0 = some pr ∧
      BreakOk .stock t 0 pr ∧ Unsatisfiable .stock (t.vmm_list pr.p_vmmap) pr.p_start_brk (t.p_brk 0) 0x404000 ∧
      brk_run .stock t 0 pr 0x404000 = .ok (t', .ok 0x404000) := by
  have hcrash (ops : List HeapOp) (addr : Nat) (c : BrkCrash)
      (hex : ((exec (heapStep .stock 0) (fun _ op => decide op.Bounded) (loaded 0x402800) ops).bind fun r =>
        (r.1.procs 0).map fun pr => (decide (BreakOk .stock r.1 0 pr),
          match brk_run .stock r.1 0 pr addr with
          | .error c => some c
          | .ok _ => none)) = some (true, some c)) :
      ∃ t tr pr, Run (heapStep .stock 0) (fun _ op => op.Bounded) (loaded 0x402800) t tr ∧ t.procs 0 = some pr ∧
        BreakOk .stock t 0 pr ∧ brk_run .stock t 0 pr addr = .error c := by
    simp only [Option.bind_eq_some_iff, Option.map_eq_some_iff, Prod.exists, Prod.mk.injEq, decide_eq_true_eq] at hex
    obtain ⟨t, tr, he, pr, hpr, hok, hc⟩ := hex
    refine ⟨t, tr, pr, Run.of_exec (fun _ _ => of_decide_eq_true) he, hpr, hok, ?_⟩
    split at hc
    next c' he =>
      cases hc
      exact he
    next => cases hc
  refine ⟨hcrash [dataPage] _ _ (by decide +kernel),
    hcrash [dataPage, .brk 0x403800, .munmap 0x403000 4096] _ _ (by decide +kernel), ?_⟩
  have hex : ((exec (heapStep .stock 0) (fun _ op => decide op.Bounded) (loaded 0x400000) [dataPage]).bind fun r =>
      (r.1.procs 0).bind fun pr => (vmmap_lookup (r.1.vmm_list pr.p_vmmap) 0x402).bind fun a =>
        (brk_run .stock r.1 0 pr 0x404000).toOption.map fun q =>
        (decide (BreakOk .stock r.1 0 pr), ADDR_TO_PN (r.1.p_brk 0), a.vma_start, q.2.toOption)) =
      some (true, 0x400, 0x402, some 0x404000) := by
    decide +kernel
  simp only [Option.bind_eq_some_iff, Option.map_eq_some_iff, Prod.exists, Prod.mk.injEq, decide_eq_true_eq] at hex
  obtain ⟨t, tr, he, pr, hpr, a, ha, t', w, hw, hok, hbrk, hstart, hret⟩ := hex
  refine ⟨t, tr, pr, t', Run.of_exec (fun _ _ => of_decide_eq_true) he, hpr, hok, ⟨by decide, .inr (.inr ⟨a, ?_, ?_, ?_⟩)⟩, ?_⟩
  · exact List.mem_of_find?_eq_some ha
  · omega
  · unfold PAGE_SIZE
    omega
  · cases hb : brk_run .stock t 0 pr 0x404000 with
    | error c =>
      rw [hb] at hw
      cases hw
    | ok r =>
      rw [hb] at hw
      cases hw
      cases w with
      | error e => cases hret
      | ok n =>
        cases hret
        rfl

end Weenix.Vm
