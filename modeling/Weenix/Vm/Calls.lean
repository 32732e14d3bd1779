import Weenix.Vm.Deliveries
import Weenix.Vfs.VmOpenFiles
/-!
# System calls with a buffer (`api/syscall.c`)

What the calls on descriptors share: the structure of arguments, which is copied
in first, and what they find outside the sources.
-/

namespace Weenix.Vm

open Lib

variable {C : Config} {E : Env} {mm mm' s s' : State} {p n m vaddr count : Nat} {held : Nat → Int} {α : Type} {kmem : Nat → UInt8} {pr : Proc}

/-- How a structure of arguments lies in memory. -/
structure ArgsLayout (α : Type) where
  size : Nat
  decode : (Nat → UInt8) → α

/-- The `copy_from_user` of the arguments at `arg`, to a place that held `stack`. -/
def copyArgs (E : Env) (L : ArgsLayout α) (stack : Nat → UInt8) (mm : State) (p arg : Nat) : Option (State × Except Errno α) := do
  let (mm, kmem, r) ← copy_from_user E mm p stack arg L.size
  some (mm, r.map fun _ => L.decode kmem)

/-- What the arguments at `arg` of map `m` are. -/
def argsAt (L : ArgsLayout α) (mm : State) (m arg : Nat) : α := L.decode fun i => mm.byteAt m (arg + i)

/-- `read_args_t` and `write_args_t`; `getdents_args_t` has `dirp` and `count` in the place of `buf` and `nbytes`. -/
structure BufArgs where
  fd : Int
  buf : Nat
  nbytes : Nat
  deriving DecidableEq

/-- The arguments as a call uses them: the copy, but for the buffer, which it takes
from `arg->buf`. No one changes `arg->buf` meanwhile. -/
def callArgs (E : Env) (L : ArgsLayout BufArgs) (stack : Nat → UInt8) (mm : State) (p arg : Nat) :
    Option (State × Except Errno BufArgs) := do
  let (mm, args) ← copyArgs E L stack mm p arg
  let curproc ← mm.procs p
  some (mm, args.map fun args => { args with buf := (argsAt L mm curproc.p_vmmap arg).buf })

/-- The number that a call returns, 0 for an error; the file system gives errors as negative numbers. -/
def returned : Except Errno Int → Nat
  | .ok val => val.toNat
  | .error _ => 0

/-- What the file system does to the page cache meanwhile. -/
structure CacheQuiet (C : Config) (cache : State → State) : Prop where
  backing : ∀ held mm, Backing C held mm → Backing C held (cache mm)
  quiet : ∀ held mm, Backing C held mm → Quiet mm (cache mm)

theorem CacheQuiet.id : CacheQuiet C id := ⟨fun _ _ h => h, fun _ _ _ => .refl _⟩

theorem callArgs_quiet {L : ArgsLayout BufArgs} {stack : Nat → UInt8} {arg : Nat} {r : Except Errno BufArgs} (hheld : ∀ o, 0 ≤ held o)
    (hio : ∀ n, E.io n = true) (hB : Backing C held mm) (hs : Settled mm) (h : callArgs E L stack mm p arg = some (mm', r)) :
    Backing C held mm' ∧ Quiet mm mm' := by
  simp only [callArgs, copyArgs, bind, Option.bind_eq_some_iff, Option.some.injEq, Prod.mk.injEq, Prod.exists] at h
  obtain ⟨mm₁, r', ⟨mm₂, kmem, r'', hcopy, rfl, -⟩, pr, -, rfl, -⟩ := h
  exact copy_from_user_quiet hheld hio hB hs hcopy

/-- Only the buffer is not from the copy. -/
theorem callArgs_ok {L : ArgsLayout BufArgs} {stack : Nat → UInt8} {arg : Nat} {args : BufArgs} (hpr : mm'.procs p = some pr)
    (h : callArgs E L stack mm p arg = some (mm', .ok args)) :
    ∃ buf, copyArgs E L stack mm p arg = some (mm', .ok { args with buf }) ∧ args.buf = (argsAt L mm' pr.p_vmmap arg).buf := by
  simp only [callArgs, bind, Option.bind_eq_some_iff, Option.some.injEq, Prod.mk.injEq, Prod.exists] at h
  obtain ⟨mm₁, r, hcopy, pr', hpr', rfl, hr⟩ := h
  rw [hpr] at hpr'
  cases hpr'
  cases r with
  | error _ => cases hr
  | ok copied =>
    cases hr
    exact ⟨copied.buf, hcopy, rfl⟩

/-- They are copied in only from where the check lets them be. -/
theorem callArgs_perm {L : ArgsLayout BufArgs} {stack : Nat → UInt8} {arg : Nat} {args : BufArgs} (hpr : mm.procs p = some pr)
    (h : callArgs E L stack mm p arg = some (mm', .ok args)) :
    range_perm (mm.vmm_list pr.p_vmmap) arg L.size { read := true } = true := by
  by_contra hno
  simp only [Bool.not_eq_true] at hno
  simp only [callArgs, copyArgs, copy_from_user, hpr, hno, bind, Option.bind_some, if_true, Except.map, Option.some.injEq,
    Prod.mk.injEq, reduceCtorEq, and_false] at h

/-- Copying out returns. -/
theorem copy_to_user_returns (hheld : ∀ o, 0 ≤ held o) (hio : ∀ n, E.io n = true) (hB : Backing C held s) (hs : Settled s)
    (hlt : C.USER_MEM_HIGH + count < 2 ^ 32) (hp : s.procs p ≠ none) (vaddr : Nat) (kmem : Nat → UInt8) :
    ∃ s' r, copy_to_user E s p vaddr kmem count = some (s', r) ∧ Backing C held s' := by
  obtain ⟨pr, hpr⟩ := Option.ne_none_iff_exists'.1 hp
  by_cases hperm : range_perm (s.vmm_list pr.p_vmmap) vaddr count { write := true } = true
  · have hlow := range_perm_low (hB.layout.areas _) hperm
    have hw : Walks C held s pr.p_vmmap (ADDR_TO_PN vaddr) (1 + ADDR_TO_PN (vaddr + count)) count kmem (fun k => k = kmem)
        fun _ t _ => Backing C held t :=
      ⟨fun _ _ _ _ _ _ h => h, fun _ _ _ _ _ _ _ _ _ _ _ _ hB' _ _ => ⟨fun k hk i _ => by rw [hk], hB'⟩⟩
    obtain ⟨s', -, hB', hrun⟩ := vmmap_write_walk hw hio hB hheld hs (by omega) hB
    exact ⟨s', .ok (), by simp only [copy_to_user, hpr, hperm, bind, Option.bind_some, Bool.true_eq_false, if_false, hrun kmem rfl],
      hB'⟩
  · exact ⟨s, .error .EFAULT, by simp only [copy_to_user, hpr, hperm, bind, Option.bind_some, if_true], hB⟩

theorem Quiet.delivered (h : Quiet s s') (m vaddr : Nat) (kmem : Nat → UInt8) : Delivered s s' m vaddr 0 kmem :=
  ⟨fun i hi => absurd hi (Nat.not_lt_zero i), fun o pn j => .inl (by rw [h.page]), h.spaces⟩

/-- Reading afterwards makes no difference. -/
theorem Delivered.quiet_iff (hq : Quiet mm mm') : Delivered s mm' m vaddr n kmem ↔ Delivered s mm m vaddr n kmem := by
  constructor
  · rintro ⟨h1, h2, h3⟩
    simp only [hq.page, hq.objPage] at h1 h2
    exact ⟨h1, h2, hq.spaces.symm.trans h3⟩
  · rintro ⟨h1, h2, h3⟩
    refine ⟨?_, ?_, hq.spaces.trans h3⟩
    · simpa only [hq.page, hq.objPage] using h1
    · simpa only [hq.page] using h2

theorem Delivered.congr {kmem' : Nat → UInt8} (h : Delivered s s' m vaddr n kmem) (hk : ∀ i < n, kmem i = kmem' i) :
    Delivered s s' m vaddr n kmem' := by
  refine ⟨fun i hi => ?_, fun o pn j => (h.shown o pn j).imp_right fun ⟨i, hi, hsh, hb⟩ => ⟨i, hi, hsh, hb.trans (hk i hi)⟩, h.spaces⟩
  obtain ⟨o, pn, hx, hb⟩ := h.bytes i hi
  exact ⟨o, pn, hx, hb.trans (hk i hi)⟩

/-- Where the check lets the bytes be copied and they are mapped, each may be written. -/
theorem AllMapped.writable {l : List VmArea} (hl : AreasOk C m l) (hlt : C.USER_MEM_HIGH + count < 2 ^ 32) (hn : n ≤ count)
    (hperm : range_perm l vaddr count { write := true } = true) (hm : AllMapped (l.map VmArea.span) vaddr n) :
    ∀ i < n, addr_perm l (vaddr + i) { write := true } = true := by
  intro i hi
  have hlow := range_perm_low hl hperm
  obtain ⟨-, hall⟩ := (range_perm_iff hl.sorted (by omega)).1 hperm
  refine addr_perm_iff.2 ⟨fun hno => ?_, hall _ (Nat.div_le_div_right (by omega)) (Nat.div_le_div_right (by omega))⟩
  obtain ⟨x, hx, hcov⟩ := hm i hi
  obtain ⟨a, ha, rfl⟩ := List.mem_map.1 hx
  exact Intervals.find_none_iff.1 hno a ha hcov

/-! ## A small process -/

/-- A word, lowest byte first. -/
def word (k : Nat → UInt8) (i : Nat) : Nat :=
  (k i).toNat + 2 ^ 8 * (k (i + 1)).toNat + 2 ^ 16 * (k (i + 2)).toNat + 2 ^ 24 * (k (i + 3)).toNat

/-- `fd`, `buf` and `nbytes`, a word each. -/
def bufLayout : ArgsLayout BufArgs := ⟨12, fun k => ⟨int32 (word k 0), word k 4, word k 8⟩⟩

/-- Descriptor 0, and 2 bytes at `0x400000`. -/
def twoBytes : List UInt8 := [0, 0, 0, 0, 0, 0, 0x40, 0, 2]

/-- `oneFile`, with `bytes` at 2048 of each page of the file. -/
def argsFile (bytes : List UInt8) : State :=
  { oneFile with disk := fun _ _ i => if 2048 ≤ i then bytes.getD (i - 2048) 0 else 0 }

theorem argsFile_booted (bytes : List UInt8) : Booted (argsFile bytes) := by
  obtain ⟨h1, h2, h3, h4, h5, h6, h7, h8, h9, h10, h11, h12, h13⟩ := oneFile_booted
  exact ⟨h1, h2, h3, h4, h5, h6, h7, h8, h9, h10, h11, h12, h13⟩

/-- A process maps a page of the file. -/
def mapIt : List RefOp := [.proc_create, .vmmap_map 0 0 (some 0) 0 1 { read := true, write := true } { priv := true } 0 .lohi]

/-- One process, whose descriptor 0 is open for a file. -/
def openSystem : Files.System (Nat → Vfs.Name → Option Nat) :=
  { Files.oneProc 1 with
    files := fun f => if f = 0 then some { f_refcount := 1, f_mode := { read := true, write := true }, f_vnode := some 2 } else none
    procs := fun p => if p = 0 then some { p_pid := 1, p_files := [some 0, none, none, none], p_cwd := 0 } else none }

theorem openSystem_accounted : Files.Accounted 4 [] openSystem := by
  refine ⟨fun p pr hp => ?_, fun f => ?_, fun f file hf => ?_⟩
  · simp only [openSystem] at hp
    split at hp
    next h => cases hp; exact ⟨by rw [h]; exact Nat.one_pos, rfl⟩
    next => cases hp
  · have hslots : Files.slots openSystem.procs openSystem.nprocs f = if f = 0 then 1 else 0 := by
      show 0 + [some 0, none, none, none].countP (· == some f) = _
      by_cases h : f = 0
      · simp [h]
      · simp [h, Ne.symm h]
    rw [hslots, List.count_nil]
    simp only [Files.refcount, openSystem]
    split <;> rfl
  · simp only [openSystem] at hf
    split at hf
    next => cases hf; exact Nat.one_pos
    next => cases hf

end Weenix.Vm
