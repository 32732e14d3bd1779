import Weenix.Lib.Runs
import Weenix.Vfs.VmOpenFiles
/-!
# Seeking and writing (`vfs_syscall.c`)

`do_lseek` moves the position anywhere that is not negative, past the end too.
`do_write` asserts, after a write that has not failed, that the position before
it is not past the end, and a write of no bytes leaves the end where it is.
-/

namespace Weenix.Files.VmSubmit
open Lib Vfs

variable {σ : Type}

/-- A regular file is no device. -/
structure Regular (F : Io σ) (fs : σ) (vn : Nat) : Prop where
  reg : F.isReg fs vn = true
  chr : F.isChr fs vn = false
  blk : F.isBlk fs vn = false

/-- A write of `n` bytes has returned `ret`. -/
def Wrote (F : Io σ) (vn : Nat) (fs fs' : σ) (pos : Int) (n : Nat) (ret : Int) : Prop :=
  if n = 0 then ret = 0 ∧ F.vn_len fs' vn = F.vn_len fs vn else ret < 0 ∨ (ret = n ∧ pos + n ≤ F.vn_len fs' vn)

/-- A length is an `int`. A write of no bytes returns 0 and leaves the length; another may fail, and else returns the
number of bytes, and the file reaches behind them. -/
structure Grows (F : Io σ) (vn : Nat) : Prop where
  len : ∀ fs, F.vn_len fs vn < 2 ^ 31
  write : ∀ fs pos n, Regular F fs vn → ∃ fs' ret, F.write fs vn pos n = some (fs', ret) ∧ Regular F fs' vn ∧ Wrote F vn fs fs' pos n ret

/-- The descriptor `fd` is for the regular file `vn`, and `k` more references to its `file_t` are held. -/
structure OnRegular (N : Nat) (F : Io σ) (p fd f vn k : Nat) (s : System σ) : Prop where
  lt : fd < N
  slot : s.slot p fd = some f
  regular : Regular F s.vfs.fs vn
  file : ∃ file, s.files f = some file ∧ k < file.f_refcount ∧ file.f_vnode = some vn

inductive SeekCall
  | do_lseek (offset whence : Int)
  | do_write (nbytes : Nat)
  deriving DecidableEq

/-- A call on the descriptor `fd` of the process `p`. -/
def SeekCall.run (N : Nat) (F : Io σ) (O : FileCalls σ) (p fd : Nat) (s : System σ) : SeekCall → Option (System σ × Except Errno Int)
  | .do_lseek offset whence => VmSubmit.do_lseek N F s p fd offset whence
  | .do_write nbytes => VmSubmit.do_write N F O s p fd nbytes

/-- No bytes are written, the file is not open for appending, and its position is past its end. -/
structure Stranded (F : Io σ) (f vn : Nat) (s : System σ) (c : SeekCall) : Prop where
  nothing : c = .do_write 0
  past : ∃ file, s.files f = some file ∧ file.f_mode.write = true ∧ file.f_mode.append = false ∧
    (F.vn_len s.vfs.fs vn : Int) < file.f_pos

variable {N p fd f vn k : Nat} {F : Io σ} {O : FileCalls σ} {s s' : System σ} {r : Except Errno Int}

/-! ## The file of the descriptor -/

theorem OnRegular.modify {g : File → File} (h : OnRegular N F p fd f vn k s)
    (hg : ∀ file, (g file).f_refcount = file.f_refcount ∧ (g file).f_vnode = file.f_vnode) : OnRegular N F p fd f vn k (s.modify f g) := by
  obtain ⟨hlt, hslot, hreg, file, hf, hk, hvn⟩ := h
  refine ⟨hlt, hslot, hreg, g file, ?_, by rw [(hg file).1]; exact hk, by rw [(hg file).2]; exact hvn⟩
  simp [System.modify, System.setFile, hf]

theorem OnRegular.setFs {fs : σ} (h : OnRegular N F p fd f vn k s) (hfs : Regular F fs vn) : OnRegular N F p fd f vn k (s.setFs fs) :=
  ⟨h.lt, h.slot, hfs, h.file⟩

theorem OnRegular.addRef (h : OnRegular N F p fd f vn k s) : OnRegular N F p fd f vn (k + 1) (s.addRef f) := by
  obtain ⟨hlt, hslot, hreg, file, hf, hk, hvn⟩ := h
  refine ⟨hlt, hslot, hreg, { file with f_refcount := file.f_refcount + 1 }, ?_, by simpa using hk, hvn⟩
  simp [System.addRef, System.modify, System.setFile, hf]

/-- A reference that is held is put. -/
theorem OnRegular.fput (hO : Lawful O) (h : OnRegular N F p fd f vn (k + 1) s) :
    ∃ s', O.fput s f = some s' ∧ OnRegular N F p fd f vn k s' := by
  obtain ⟨hlt, hslot, hreg, file, hf, hk, hvn⟩ := h
  obtain ⟨vfs, hput, hvfs⟩ := hO.fput s f file hf (by omega)
  obtain rfl := hvfs (by omega)
  refine ⟨_, hput, hlt, hslot, hreg, { file with f_refcount := file.f_refcount - 1 }, ?_, by simp; omega, hvn⟩
  have hlast : ¬ file.f_refcount = 1 := by omega
  simp [System.setFile, File.put, hlast]

/-- `do_lseek` returns, and moves only the position. -/
theorem do_lseek_returns (h : OnRegular N F p fd f vn k s) (offset whence : Int) :
    ∃ s' r, do_lseek N F s p fd offset whence = some (s', r) ∧ OnRegular N F p fd f vn k s' := by
  obtain ⟨file, hf, -, hvn⟩ := h.file
  have hfd : ¬ ((fd : Int) < 0 ∨ (N : Int) ≤ fd) := by have := h.lt; omega
  have hpos (pos : Int) : ∃ s' r, (if pos < 0 then some (s, (Except.error .EINVAL : Except Errno Int))
      else some (s.modify f fun file => { file with f_pos := pos }, .ok pos)) = some (s', r) ∧ OnRegular N F p fd f vn k s' := by
    split
    · exact ⟨_, _, rfl, h⟩
    · exact ⟨_, _, rfl, h.modify fun _ => ⟨rfl, rfl⟩⟩
  simp only [do_lseek, if_neg hfd, Int.toNat_natCast, h.slot, hf, hvn, bind, Option.bind_some, Option.map_some]
  split
  · exact ⟨_, _, rfl, h⟩
  split
  · exact hpos _
  split
  · exact hpos _
  · exact hpos _

/-- The end of the file. -/
theorem do_lseek_end (h : OnRegular N F p fd f vn k s) (hlen : F.vn_len s.vfs.fs vn < 2 ^ 31) :
    do_lseek N F s p fd 0 SEEK_END =
      some (s.modify f fun file => { file with f_pos := F.vn_len s.vfs.fs vn }, .ok (F.vn_len s.vfs.fs vn : Int)) := by
  obtain ⟨file, hf, -, hvn⟩ := h.file
  have hfd : ¬ ((fd : Int) < 0 ∨ (N : Int) ≤ fd) := by have := h.lt; omega
  have hend : sint (0 + (F.vn_len s.vfs.fs vn : Int)) = F.vn_len s.vfs.fs vn := by
    rw [Int.zero_add]
    exact sint_of_lt (by omega) (by omega)
  have hpos : ¬ ((F.vn_len s.vfs.fs vn : Int) < 0) := by omega
  have hwhence : ¬ ¬ (SEEK_END = 2 ∨ SEEK_END = 0 ∨ SEEK_END = 1) := by decide
  have hcur : ¬ SEEK_END = SEEK_CUR := by decide
  have hset : ¬ SEEK_END = SEEK_SET := by decide
  simp only [do_lseek, if_neg hwhence, if_neg hfd, if_neg hcur, if_neg hset, Int.toNat_natCast, h.slot, hf, hvn, hend, bind,
    Option.bind_some, Option.map_some, if_neg hpos]

/-! ## Writing -/

/-- The end of `do_write`, after the write has returned `retVal`. -/
def afterWrite (F : Io σ) (O : FileCalls σ) (vn f : Nat) (s : System σ) (retVal : Int) : Option (System σ × Except Errno Int) := do
  let ftemp ← s.files f
  KASSERT (retVal ≥ 0 → F.isBlk s.vfs.fs vn ∨ F.isChr s.vfs.fs vn ∨ (F.isReg s.vfs.fs vn ∧ ftemp.f_pos ≤ F.vn_len s.vfs.fs vn))
  let s := if retVal ≥ 0 then s.modify f fun file => { file with f_pos := sint (file.f_pos + retVal) } else s
  let s ← O.fput s f
  some (s, .ok retVal)

/-- It ends at the assertion, or returns. -/
theorem afterWrite_cases (hO : Lawful O) (h : OnRegular N F p fd f vn (k + 1) s) {file : File} (hf : s.files f = some file)
    (retVal : Int) : (retVal ≥ 0 ∧ F.vn_len s.vfs.fs vn < file.f_pos ∧ afterWrite F O vn f s retVal = none) ∨
      ((retVal ≥ 0 → file.f_pos ≤ F.vn_len s.vfs.fs vn) ∧
        ∃ s', afterWrite F O vn f s retVal = some (s', .ok retVal) ∧ OnRegular N F p fd f vn k s') := by
  obtain ⟨hr, hc, hb⟩ := h.regular
  by_cases hpos : retVal ≥ 0 → file.f_pos ≤ F.vn_len s.vfs.fs vn
  case neg =>
    rw [Classical.not_imp, Int.not_le] at hpos
    refine .inl ⟨hpos.1, hpos.2, ?_⟩
    have hno : ¬ (retVal ≥ 0 → F.isBlk s.vfs.fs vn = true ∨ F.isChr s.vfs.fs vn = true ∨
        (F.isReg s.vfs.fs vn = true ∧ file.f_pos ≤ F.vn_len s.vfs.fs vn)) := by
      intro hall
      rcases hall hpos.1 with e | e | ⟨-, hle⟩
      · simp [hb] at e
      · simp [hc] at e
      · omega
    simp only [afterWrite, hf, KASSERT, if_neg hno, bind, Option.bind_some, Option.bind_none]
  case pos =>
    have hyes : retVal ≥ 0 → F.isBlk s.vfs.fs vn = true ∨ F.isChr s.vfs.fs vn = true ∨
        (F.isReg s.vfs.fs vn = true ∧ file.f_pos ≤ F.vn_len s.vfs.fs vn) := fun h0 => .inr (.inr ⟨hr, hpos h0⟩)
    have hmoved : OnRegular N F p fd f vn (k + 1)
        (if retVal ≥ 0 then s.modify f fun file => { file with f_pos := sint (file.f_pos + retVal) } else s) := by
      split
      · exact h.modify fun _ => ⟨rfl, rfl⟩
      · exact h
    obtain ⟨s', hput, hs'⟩ := hmoved.fput hO
    refine .inr ⟨hpos, s', ?_, hs'⟩
    simp only [afterWrite, hf, KASSERT, if_pos hyes, bind, Option.bind_some, hput]

/-- `do_write` ends at its assertion exactly when it is stranded. -/
theorem do_write_cases (hO : Lawful O) (hF : Grows F vn) (h : OnRegular N F p fd f vn 0 s) (nbytes : Nat) :
    (Stranded F f vn s (.do_write nbytes) ∧ do_write N F O s p fd nbytes = none) ∨
      (¬ Stranded F f vn s (.do_write nbytes) ∧
        ∃ s' r, do_write N F O s p fd nbytes = some (s', r) ∧ OnRegular N F p fd f vn 0 s') := by
  obtain ⟨file, hf, hk, hvn⟩ := h.file
  have hneg : ¬ (fd : Int) < 0 := by omega
  have hbig : ¬ (N : Int) ≤ fd := by have := h.lt; omega
  have hget : O.fget s p fd = (s.addRef f, some f) := by rw [hO.fget_fd, h.slot]
  have h1 : OnRegular N F p fd f vn 1 (s.addRef f) := h.addRef
  have hf1 : (s.addRef f).files f = some { file with f_refcount := file.f_refcount + 1 } := by
    simp [System.addRef, System.modify, System.setFile, hf]
  simp only [do_write, if_neg hneg, if_neg hbig, hget, hf1, bind, Option.bind_some]
  cases hmode : file.f_mode.write with
  | false =>
    obtain ⟨s', hput, hs'⟩ := h1.fput hO
    refine .inr ⟨fun hst => ?_, s', .error .EBADF, ?_, hs'⟩
    · obtain ⟨file', hf', hwrite, -⟩ := hst.past
      rw [hf] at hf'
      cases hf'
      simp [hmode] at hwrite
    · simp only [Bool.not_false, if_true, hput, Option.bind_some]
  | true =>
    simp only [Bool.not_true, Bool.false_eq_true, if_false, hvn, Option.bind_some]
    cases happ : file.f_mode.append with
    | true =>
      obtain ⟨fs', ret, hwrite, hreg, hwrote⟩ := hF.write s.vfs.fs (F.vn_len s.vfs.fs vn) nbytes h.regular
      generalize hs₂ : (s.addRef f).modify f (fun file => { file with f_pos := F.vn_len s.vfs.fs vn }) = s₂
      have h2 : OnRegular N F p fd f vn 1 s₂ := hs₂ ▸ h1.modify fun _ => ⟨rfl, rfl⟩
      have hend : do_lseek N F (s.addRef f) p fd 0 SEEK_END = some (s₂, .ok (F.vn_len s.vfs.fs vn : Int)) := by
        rw [← hs₂]
        exact do_lseek_end h1 (hF.len _)
      have hvfs : s₂.vfs = s.vfs := by
        rw [← hs₂]
        rfl
      have hf2 : ∃ file', (s₂.setFs fs').files f = some file' ∧ file'.f_pos = F.vn_len s.vfs.fs vn := by
        refine ⟨{ file with f_refcount := file.f_refcount + 1, f_pos := F.vn_len s.vfs.fs vn }, ?_, rfl⟩
        rw [← hs₂]
        simp [System.setFs, System.addRef, System.modify, System.setFile, hf]
      obtain ⟨file', hf2, hpos⟩ := hf2
      simp only [if_true, hend, Option.bind_some, Except.toOption, hvfs, hwrite]
      rcases afterWrite_cases hO (h2.setFs hreg) hf2 ret with ⟨h0, hlt, -⟩ | ⟨-, s', hrun, hs'⟩
      · -- the position was at the end
        exfalso
        rw [hpos] at hlt
        have hlt : (F.vn_len fs' vn : Int) < F.vn_len s.vfs.fs vn := hlt
        unfold Wrote at hwrote
        split at hwrote <;> omega
      · refine .inr ⟨fun hst => ?_, s', .ok ret, hrun, hs'⟩
        obtain ⟨file'', hf', -, hno, -⟩ := hst.past
        rw [hf] at hf'
        cases hf'
        simp [happ] at hno
    | false =>
      obtain ⟨fs', ret, hwrite, hreg, hwrote⟩ := hF.write s.vfs.fs file.f_pos nbytes h.regular
      have hvfs : (s.addRef f).vfs = s.vfs := rfl
      have hstranded : Stranded F f vn s (.do_write nbytes) ↔ nbytes = 0 ∧ (F.vn_len s.vfs.fs vn : Int) < file.f_pos := by
        constructor
        · rintro ⟨hno, file', hf', -, -, hlt⟩
          rw [hf] at hf'
          cases hf'
          cases hno
          exact ⟨rfl, hlt⟩
        · rintro ⟨rfl, hlt⟩
          exact ⟨rfl, file, hf, hmode, happ, hlt⟩
      simp only [Bool.false_eq_true, if_false, Option.bind_some, Except.toOption, hvfs, hwrite]
      unfold Wrote at hwrote
      rcases afterWrite_cases hO (h1.setFs hreg) hf1 ret with ⟨h0, hlt, hrun⟩ | ⟨hle, s', hrun, hs'⟩
      · refine .inl ⟨hstranded.2 ?_, hrun⟩
        have hlt : (F.vn_len fs' vn : Int) < file.f_pos := hlt
        split at hwrote <;> omega
      · refine .inr ⟨fun hst => ?_, s', .ok ret, hrun, hs'⟩
        have hle : ret ≥ 0 → file.f_pos ≤ F.vn_len fs' vn := hle
        obtain ⟨rfl, hlt⟩ := hstranded.1 hst
        rw [if_pos rfl] at hwrote
        omega

theorem SeekCall.keeps (hO : Lawful O) (hF : Grows F vn) (h : OnRegular N F p fd f vn 0 s) {c : SeekCall}
    (hst : c.run N F O p fd s = some (s', r)) : OnRegular N F p fd f vn 0 s' := by
  cases c with
  | do_lseek offset whence =>
    obtain ⟨s₁, r₁, hrun, h₁⟩ := do_lseek_returns h offset whence
    cases hst.symm.trans hrun
    exact h₁
  | do_write nbytes =>
    rcases do_write_cases hO hF h nbytes with ⟨-, hno⟩ | ⟨-, s₁, r₁, hrun, h₁⟩
    · cases hst.symm.trans hno
    · cases hst.symm.trans hrun
      exact h₁

/-! ## Sequences of calls -/

/-- A file of less than 2 GB. -/
def lengthIo : Io (Fin (2 ^ 31)) where
  tree _ := { isDir := fun _ => false, hasLookup := fun _ => false, lookup := fun _ _ => .error .ENOTDIR }
  create s _ _ := (s, .error .ENOTDIR)
  link s _ _ _ := (s, .error .ENOTDIR)
  unlink s _ _ := (s, .error .ENOTDIR)
  mknod s _ _ _ _ := (s, .error .ENOTDIR)
  mkdir s _ _ := (s, .error .ENOTDIR)
  rmdir s _ _ := (s, .error .ENOTDIR)
  stat s _ := some (s, .ok ())
  isChr _ _ := false
  isBlk _ _ := false
  isReg _ _ := true
  vn_cdev _ _ := false
  vn_bdev _ _ := false
  vn_len s _ := s
  read s _ _ _ := some (s, 0)
  write s _ pos n :=
    if n = 0 then some (s, 0)
    else if h : pos + n < 2 ^ 31 then some (if pos + n ≤ (s : Nat) then s else ⟨(pos + n).toNat, by omega⟩, n)
    else some (s, -EFAULT)
  readdir s _ _ := some (s, 0)
  sizeof_dirent := 40

theorem lengthIo_grows (vn : Nat) : Grows lengthIo vn := by
  refine ⟨fun fs => fs.isLt, fun fs pos n _ => ?_⟩
  simp only [lengthIo, Wrote]
  split
  · exact ⟨fs, 0, rfl, ⟨rfl, rfl, rfl⟩, rfl, rfl⟩
  split
  next hlt =>
    refine ⟨_, _, rfl, ⟨rfl, rfl, rfl⟩, .inr ⟨rfl, ?_⟩⟩
    split
    next hle => exact hle
    next =>
      dsimp only
      omega
  next => exact ⟨fs, -EFAULT, rfl, ⟨rfl, rfl, rfl⟩, .inl (by decide)⟩

/-- A process with an empty file open. -/
def oneWriter : System (Fin (2 ^ 31)) where
  vfs := { fs := 0, refs := fun v => if v = 2 then 1 else 0 }
  files f := if f = 0 then some { f_refcount := 1, f_mode := { read := true, write := true }, f_vnode := some 2 } else none
  procs p := if p = 0 then some { p_pid := 1, p_files := [some 0, none, none, none], p_cwd := 0 } else none
  nprocs := 1
  initproc := true

theorem oneWriter_onRegular : OnRegular 4 lengthIo 0 0 0 2 0 oneWriter :=
  ⟨by decide, rfl, ⟨rfl, rfl, rfl⟩, _, rfl, by decide, rfl⟩

/-- It seeks to position 1, and the write of no bytes does not return. -/
theorem empty_write_panics : Grows lengthIo 2 ∧ OnRegular 4 lengthIo 0 0 0 2 0 oneWriter ∧
    ∃ s tr, Run (SeekCall.run 4 lengthIo slab 0 0) (fun _ _ => True) oneWriter s tr ∧
      SeekCall.run 4 lengthIo slab 0 0 s (.do_write 0) = none := by
  have h : (exec (SeekCall.run 4 lengthIo slab 0 0) (fun _ _ => true) oneWriter [.do_lseek 1 SEEK_SET]).map
      (fun x => (SeekCall.run 4 lengthIo slab 0 0 x.1 (.do_write 0)).isNone) = some true := by
    decide +kernel
  obtain ⟨⟨s, tr⟩, hex, hnone⟩ := Option.map_eq_some_iff.1 h
  exact ⟨lengthIo_grows 2, oneWriter_onRegular, s, tr, Run.of_exec (fun _ _ _ => trivial) hex, Option.isNone_iff_eq_none.1 hnone⟩

/-- In every run of calls that are not stranded, the next call returns exactly when it is not stranded. -/
theorem seeks_and_writes_return (hO : Lawful O) (hF : Grows F vn) {s₀ : System σ} (h0 : OnRegular N F p fd f vn 0 s₀)
    {tr : List (SeekCall × Except Errno Int)}
    (hrun : Run (SeekCall.run N F O p fd) (fun s c => ¬ Stranded F f vn s c) s₀ s tr) (c : SeekCall) :
    (∃ s' r, c.run N F O p fd s = some (s', r)) ↔ ¬ Stranded F f vn s c := by
  have h : OnRegular N F p fd f vn 0 s := hrun.inv (OnRegular N F p fd f vn 0) h0 fun s c s' r hs _ hst => SeekCall.keeps hO hF hs hst
  cases c with
  | do_lseek offset whence =>
    obtain ⟨s', r, hret, -⟩ := do_lseek_returns h offset whence
    exact iff_of_true ⟨s', r, hret⟩ fun hst => by cases hst.nothing
  | do_write nbytes =>
    rcases do_write_cases hO hF h nbytes with ⟨hst, hno⟩ | ⟨hst, s', r, hret, -⟩
    · exact iff_of_false (by rintro ⟨s', r, hret⟩; cases hret.symm.trans hno) (not_not_intro hst)
    · exact iff_of_true ⟨s', r, hret⟩ hst

/-- Three bytes are written, the position is set to 7, and five bytes are written there. -/
theorem write_after_seek : ∃ s tr s' r, Run (SeekCall.run 4 lengthIo slab 0 0) (fun s c => ¬ Stranded lengthIo 0 2 s c) oneWriter s tr ∧
    SeekCall.run 4 lengthIo slab 0 0 s (.do_write 5) = some (s', r) := by
  have h : (exec (SeekCall.run 4 lengthIo slab 0 0) (fun _ c => decide (c ≠ .do_write 0)) oneWriter
      [.do_write 3, .do_lseek 7 SEEK_SET]).isSome := by
    decide +kernel
  obtain ⟨⟨s, tr⟩, hex⟩ := Option.isSome_iff_exists.1 h
  have hok (s : System (Fin (2 ^ 31))) (c : SeekCall) (hc : decide (c ≠ .do_write 0) = true) : ¬ Stranded lengthIo 0 2 s c :=
    fun hst => of_decide_eq_true hc hst.nothing
  have hrun : Run (SeekCall.run 4 lengthIo slab 0 0) (fun s c => ¬ Stranded lengthIo 0 2 s c) oneWriter s tr := Run.of_exec hok hex
  obtain ⟨s', r, hret⟩ := (seeks_and_writes_return slab_lawful (lengthIo_grows 2) oneWriter_onRegular hrun (.do_write 5)).2
    fun hst => absurd hst.nothing (by decide)
  exact ⟨s, tr, s', r, hrun, hret⟩

end Weenix.Files.VmSubmit
