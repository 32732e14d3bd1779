import Weenix.Lib.Runs
import Weenix.Vfs.Files
/-!
# The position of an open file in vfs-submit (`vfs_syscall.c`)

`do_read` and `do_getdent` add what the vnode has returned to `f_pos`, also when
it is an error, and `do_getdent` returns success then. `do_lseek` sets the
position to 0 when it refuses a negative one. `do_write` moves it only when the
write has not failed.
-/

namespace Weenix.Files.VfsSubmit
open Lib Vfs

variable {σ : Type}

def SEEK_SET : Int := 0
def SEEK_CUR : Int := 1
def SEEK_END : Int := 2

section
variable (N : Nat) (F : Io σ) (O : FileCalls σ)

def do_read (s : System σ) (p : Nat) (fd : Int) (nbytes : Nat) : Option (System σ × Except Errno Int) :=
  if fd < 0 ∨ N ≤ fd ∨ s.slot p fd.toNat = none then some (s, .error .EBADF)
  else
    match O.fget s p fd with
    | (s, none) => some (s, .error .EBADF)
    | (s, some f) => do
      let file ← s.files f
      if !file.f_mode.read then do
        let s ← O.fput s f
        some (s, .error .EBADF)
      else do
        let vn ← file.f_vnode
        if (F.tree s.vfs.fs).isDir vn then do
          let s ← O.fput s f
          some (s, .error .EISDIR)
        else do
          let (fs, result) ← F.read s.vfs.fs vn file.f_pos nbytes
          let s := (s.setFs fs).modify f fun file => { file with f_pos := sint (file.f_pos + result) }
          let s ← O.fput s f
          some (s, .ok result)

def do_lseek (s : System σ) (p : Nat) (fd offset whence : Int) : Option (System σ × Except Errno Int) :=
  if fd < 0 ∨ N ≤ fd then some (s, .error .EBADF)
  else if whence ≠ SEEK_SET ∧ whence ≠ SEEK_CUR ∧ whence ≠ SEEK_END then some (s, .error .EINVAL)
  else
    match O.fget s p fd with
    | (s, none) => some (s, .error .EBADF)
    | (s, some f) => do
      let file ← s.files f
      let FileOffset ←
        if whence = SEEK_SET then some offset
        else if whence = SEEK_CUR then some (sint (file.f_pos + offset))
        else file.f_vnode.map fun vn => sint (F.vn_len s.vfs.fs vn + offset)
      let s ← O.fput s f
      if FileOffset < 0 then some (s.modify f fun file => { file with f_pos := 0 }, .error .EINVAL)
      else some (s.modify f fun file => { file with f_pos := FileOffset }, .ok FileOffset)

def do_write (s : System σ) (p : Nat) (fd : Int) (nbytes : Nat) : Option (System σ × Except Errno Int) :=
  if fd < 0 ∨ N ≤ fd ∨ s.slot p fd.toNat = none then some (s, .error .EBADF)
  else
    match O.fget s p fd with
    | (s, none) => some (s, .error .EBADF)
    | (s, some f) => do
      let file ← s.files f
      if !file.f_mode.write then do
        let s ← O.fput s f
        some (s, .error .EBADF)
      else do
        let s ←
          if file.f_mode.append then do
            let (s, pos) ← do_lseek N F O s p fd 0 SEEK_END
            -- the end of a file is not negative
            let pos ← pos.toOption
            some (s.modify f fun file => { file with f_pos := pos })
          else some s
        let vn ← file.f_vnode
        let file ← s.files f
        let (fs, result1) ← F.write s.vfs.fs vn file.f_pos nbytes
        let s := s.setFs fs
        KASSERT (¬ result1 < 0 → F.isChr fs vn ∨ F.isBlk fs vn ∨ (F.isReg fs vn ∧ file.f_pos ≤ F.vn_len fs vn))
        let s := if result1 < 0 then s else s.modify f fun file => { file with f_pos := sint (file.f_pos + result1) }
        let s ← O.fput s f
        some (s, .ok result1)

def do_getdent (s : System σ) (p : Nat) (fd : Int) : Option (System σ × Except Errno Int) :=
  if fd < 0 ∨ N ≤ fd ∨ s.slot p fd.toNat = none then some (s, .error .EBADF)
  else
    match O.fget s p fd with
    | (s, none) => some (s, .error .EBADF)
    | (s, some f) => do
      let file ← s.files f
      let vn ← file.f_vnode
      if !(F.tree s.vfs.fs).isDir vn then do
        let s ← O.fput s f
        some (s, .error .ENOTDIR)
      else do
        let (fs, result) ← F.readdir s.vfs.fs vn file.f_pos
        let s := (s.setFs fs).modify f fun file => { file with f_pos := sint (file.f_pos + result) }
        let s ← O.fput s f
        if result = 0 then some (s, .ok 0) else some (s, .ok F.sizeof_dirent)

end

/-! ## One call -/

/-- The file that `fd` stands for. -/
def behind (N : Nat) (s : System σ) (p : Nat) (fd : Int) : Option Nat := if fd < 0 ∨ N ≤ fd then none else s.slot p fd.toNat

/-- An open descriptor has a file, and the file a vnode. -/
def Opened (s : System σ) : Prop :=
  ∀ p fd f, s.slot p fd = some f → ∃ file vn, s.files f = some file ∧ 0 < file.f_refcount ∧ file.f_vnode = some vn

/-- The vnodes have changed, and the position of `f`. -/
def moved (s : System σ) (fs : σ) (f : Nat) (file : File) (pos : Int) : System σ :=
  { s.setFs fs with files := Function.update s.files f (some { file with f_pos := pos }) }

/-- What `whence` and `offset` ask for. -/
def seekTo (F : Io σ) (fs : σ) (file : File) (vn : Nat) (offset whence : Int) : Int :=
  if whence = SEEK_SET then offset
  else if whence = SEEK_CUR then sint (file.f_pos + offset)
  else sint (F.vn_len fs vn + offset)

variable {N p f vn : Nat} {F : Io σ} {O : FileCalls σ} {s s' : System σ} {r : Except Errno Int} {fd : Int} {file : File}

theorem behind_eq (h : behind N s p fd = some f) : ¬ fd < 0 ∧ ¬ N ≤ fd ∧ s.slot p fd.toNat = some f := by
  unfold behind at h
  split at h
  · cases h
  next hfd =>
    rw [not_or] at hfd
    exact ⟨hfd.1, hfd.2, h⟩

theorem behind_none : behind N s p fd = none ↔ fd < 0 ∨ N ≤ fd ∨ s.slot p fd.toNat = none := by
  unfold behind
  split
  next h => exact iff_of_true rfl (by tauto)
  next h => tauto

theorem fget_behind (hO : Lawful O) (h : behind N s p fd = some f) : O.fget s p fd = (s.addRef f, some f) := by
  obtain ⟨hneg, -, hslot⟩ := behind_eq h
  have := hO.fget_fd s p fd.toNat
  rw [Int.toNat_of_nonneg (by omega), hslot] at this
  exact this

theorem addRef_files (hf : s.files f = some file) :
    (s.addRef f).files = Function.update s.files f (some { file with f_refcount := file.f_refcount + 1 }) := by
  simp [System.addRef, System.modify, System.setFile, hf]

/-- The reference that `fget` took is put, and the position stays where it has been moved to. -/
theorem fput_moved (hO : Lawful O) (h0 : 0 < file.f_refcount) {t : System σ} (pos : Int)
    (ht : t.files = Function.update s.files f (some { file with f_refcount := file.f_refcount + 1, f_pos := pos })) :
    O.fput t f = some { t with files := Function.update s.files f (some { file with f_pos := pos }) } := by
  have htf : t.files f = some { file with f_refcount := file.f_refcount + 1, f_pos := pos } := by rw [ht, Function.update_self]
  obtain ⟨vfs, hput, hvfs⟩ := hO.fput t f _ htf (Nat.succ_pos _)
  have hlast : ¬ file.f_refcount + 1 = 1 := by omega
  obtain rfl := hvfs (by dsimp only; omega)
  rw [hput]
  simp only [System.setFile, File.put, if_neg hlast, Nat.add_sub_cancel, ht, Function.update_idem]

/-- The reference is put, and nothing has happened. -/
theorem fput_still (hO : Lawful O) (hf : s.files f = some file) (h0 : 0 < file.f_refcount) : O.fput (s.addRef f) f = some s := by
  rw [fput_moved hO h0 file.f_pos (addRef_files hf)]
  have hback : Function.update s.files f (some file) = s.files := by rw [← hf, Function.update_eq_self]
  have hsame : ({ file with f_pos := file.f_pos } : File) = file := rfl
  rw [hsame, hback]
  rfl

theorem do_read_eq (hO : Lawful O) (hb : behind N s p fd = some f) (hf : s.files f = some file) (h0 : 0 < file.f_refcount)
    (hvn : file.f_vnode = some vn) (nbytes : Nat) : do_read N F O s p fd nbytes =
      if !file.f_mode.read then some (s, .error .EBADF)
      else if (F.tree s.vfs.fs).isDir vn then some (s, .error .EISDIR)
      else (F.read s.vfs.fs vn file.f_pos nbytes).map fun x => (moved s x.1 f file (sint (file.f_pos + x.2)), .ok x.2) := by
  obtain ⟨hneg, hbig, hslot⟩ := behind_eq hb
  have hfd : ¬ (fd < 0 ∨ N ≤ fd ∨ s.slot p fd.toNat = none) := by simp [hneg, hbig, hslot]
  simp only [do_read, if_neg hfd, fget_behind hO hb, addRef_files hf, Function.update_self, bind, Option.bind_some, hvn]
  split
  · simp only [fput_still hO hf h0, Option.bind_some]
  split
  next h1 h2 =>
    have h2 : (F.tree s.vfs.fs).isDir vn = true := h2
    simp only [fput_still hO hf h0, Option.bind_some, h2, if_true]
  next h1 h2 =>
    have h2 : ¬ (F.tree s.vfs.fs).isDir vn = true := h2
    rw [if_neg h2]
    have hvfs : (s.addRef f).vfs = s.vfs := rfl
    rw [hvfs]
    cases F.read s.vfs.fs vn file.f_pos nbytes with
    | none => rfl
    | some x =>
      obtain ⟨fs, result⟩ := x
      simp only [Option.bind_some, Option.map_some]
      rw [fput_moved (s := s) hO h0 (sint (file.f_pos + result))]
      · rfl
      · simp [System.modify, System.setFile, System.setFs, addRef_files hf]

theorem do_getdent_eq (hO : Lawful O) (hb : behind N s p fd = some f) (hf : s.files f = some file) (h0 : 0 < file.f_refcount)
    (hvn : file.f_vnode = some vn) : do_getdent N F O s p fd =
      if !(F.tree s.vfs.fs).isDir vn then some (s, .error .ENOTDIR)
      else (F.readdir s.vfs.fs vn file.f_pos).map fun x =>
        (moved s x.1 f file (sint (file.f_pos + x.2)), .ok (if x.2 = 0 then 0 else F.sizeof_dirent)) := by
  obtain ⟨hneg, hbig, hslot⟩ := behind_eq hb
  have hfd : ¬ (fd < 0 ∨ N ≤ fd ∨ s.slot p fd.toNat = none) := by simp [hneg, hbig, hslot]
  have hvfs : (s.addRef f).vfs = s.vfs := rfl
  simp only [do_getdent, if_neg hfd, fget_behind hO hb, addRef_files hf, Function.update_self, bind, Option.bind_some, hvn, hvfs]
  split
  · simp only [fput_still hO hf h0, Option.bind_some]
  · cases F.readdir s.vfs.fs vn file.f_pos with
    | none => rfl
    | some x =>
      obtain ⟨fs, result⟩ := x
      simp only [Option.bind_some, Option.map_some]
      rw [fput_moved (s := s) hO h0 (sint (file.f_pos + result))]
      · simp only [Option.bind_some]
        split
        · rfl
        · rfl
      · simp [System.modify, System.setFile, System.setFs, addRef_files hf]

/-- `do_lseek` also when more references are held. -/
theorem do_lseek_eq (hO : Lawful O) (hb : behind N s p fd = some f) (hf : s.files f = some file) (h0 : 0 < file.f_refcount)
    (hvn : file.f_vnode = some vn) (offset whence : Int) : do_lseek N F O s p fd offset whence =
      if whence ≠ SEEK_SET ∧ whence ≠ SEEK_CUR ∧ whence ≠ SEEK_END then some (s, .error .EINVAL)
      else if seekTo F s.vfs.fs file vn offset whence < 0 then some (moved s s.vfs.fs f file 0, .error .EINVAL)
      else some (moved s s.vfs.fs f file (seekTo F s.vfs.fs file vn offset whence), .ok (seekTo F s.vfs.fs file vn offset whence)) := by
  obtain ⟨hneg, hbig, hslot⟩ := behind_eq hb
  have hfd : ¬ (fd < 0 ∨ N ≤ fd) := by simp [hneg, hbig]
  have hvfs : (s.addRef f).vfs = s.vfs := rfl
  have hmodify (pos : Int) : s.modify f (fun file => { file with f_pos := pos }) = moved s s.vfs.fs f file pos := by
    simp [System.modify, System.setFile, moved, System.setFs, hf]
  simp only [do_lseek, if_neg hfd, fget_behind hO hb, addRef_files hf, Function.update_self, bind, Option.bind_some, hvn, hvfs,
    fput_still hO hf h0, hmodify, seekTo]
  split
  · rfl
  · split
    · rfl
    · split
      · rfl
      · rfl

/-- The position that `do_write` writes at. -/
def writePos (F : Io σ) (fs : σ) (file : File) (vn : Nat) : Int := if file.f_mode.append then F.vn_len fs vn else file.f_pos

/-- The end of `do_write`, with the position at `pos`. -/
theorem write_rest (hO : Lawful O) (hf : s.files f = some file) (h0 : 0 < file.f_refcount) {pos : Int} {nbytes : Nat} {t : System σ}
    (ht : t = moved (s.addRef f) s.vfs.fs f { file with f_refcount := file.f_refcount + 1 } pos) :
    ((F.write s.vfs.fs vn pos nbytes).bind fun x =>
      (KASSERT (¬ x.2 < 0 → F.isChr x.1 vn ∨ F.isBlk x.1 vn ∨ (F.isReg x.1 vn ∧ pos ≤ F.vn_len x.1 vn))).bind fun _ =>
        (O.fput (if x.2 < 0 then t.setFs x.1 else (t.setFs x.1).modify f fun file => { file with f_pos := sint (file.f_pos + x.2) })
          f).bind fun s => some (s, (.ok x.2 : Except Errno Int))) =
    (F.write s.vfs.fs vn pos nbytes).bind fun x =>
      (KASSERT (¬ x.2 < 0 → F.isChr x.1 vn ∨ F.isBlk x.1 vn ∨ (F.isReg x.1 vn ∧ pos ≤ F.vn_len x.1 vn))).map
        fun _ => (moved s x.1 f file (if x.2 < 0 then pos else sint (pos + x.2)), .ok x.2) := by
  have hfiles : t.files = Function.update s.files f (some { file with f_refcount := file.f_refcount + 1, f_pos := pos }) := by
    rw [ht]
    simp only [moved, addRef_files hf, Function.update_idem]
  congr 1
  funext ⟨fs, result1⟩
  generalize KASSERT (¬ result1 < 0 → F.isChr fs vn ∨ F.isBlk fs vn ∨ (F.isReg fs vn ∧ pos ≤ F.vn_len fs vn)) = asserted
  cases asserted with
  | none => rfl
  | some u =>
    simp only [Option.bind_some, Option.map_some]
    rw [fput_moved (s := s) hO h0 (if result1 < 0 then pos else sint (pos + result1))]
    · rw [ht]
      split <;> rfl
    · split
      · exact hfiles
      · simp [System.modify, System.setFile, System.setFs, hfiles]

theorem do_write_eq (hO : Lawful O) (hb : behind N s p fd = some f) (hf : s.files f = some file) (h0 : 0 < file.f_refcount)
    (hvn : file.f_vnode = some vn) (hlen : F.vn_len s.vfs.fs vn < 2 ^ 31) (nbytes : Nat) : do_write N F O s p fd nbytes =
      if !file.f_mode.write then some (s, .error .EBADF)
      else (F.write s.vfs.fs vn (writePos F s.vfs.fs file vn) nbytes).bind fun x =>
        (KASSERT (¬ x.2 < 0 → F.isChr x.1 vn ∨ F.isBlk x.1 vn ∨ (F.isReg x.1 vn ∧ writePos F s.vfs.fs file vn ≤ F.vn_len x.1 vn))).map
          fun _ => (moved s x.1 f file (if x.2 < 0 then writePos F s.vfs.fs file vn
            else sint (writePos F s.vfs.fs file vn + x.2)), .ok x.2) := by
  obtain ⟨hneg, hbig, hslot⟩ := behind_eq hb
  have hfd : ¬ (fd < 0 ∨ N ≤ fd ∨ s.slot p fd.toNat = none) := by simp [hneg, hbig, hslot]
  have hf1 : (s.addRef f).files f = some { file with f_refcount := file.f_refcount + 1 } := by
    rw [addRef_files hf, Function.update_self]
  have hvfs : (s.addRef f).vfs = s.vfs := rfl
  simp only [do_write, if_neg hfd, fget_behind hO hb, hf1, bind, Option.bind_some, hvn]
  split
  · simp only [fput_still hO hf h0, Option.bind_some]
  cases happ : file.f_mode.append with
  | false =>
    have hpos : writePos F s.vfs.fs file vn = file.f_pos := by simp [writePos, happ]
    rw [hpos]
    refine Eq.trans ?_ (write_rest hO hf h0 (t := s.addRef f) ?_)
    · simp only [Bool.false_eq_true, if_false, hvfs]
    · simp only [moved, addRef_files hf, Function.update_idem]
      rw [← addRef_files hf]
      rfl
  | true =>
    have hpos : writePos F s.vfs.fs file vn = F.vn_len s.vfs.fs vn := by simp [writePos, happ]
    have hseek : do_lseek N F O (s.addRef f) p fd 0 SEEK_END =
        some (moved (s.addRef f) s.vfs.fs f { file with f_refcount := file.f_refcount + 1 } (F.vn_len s.vfs.fs vn),
          .ok (F.vn_len s.vfs.fs vn : Int)) := by
      have hend : seekTo F (s.addRef f).vfs.fs { file with f_refcount := file.f_refcount + 1 } vn 0 SEEK_END = F.vn_len s.vfs.fs vn := by
        have hset : ¬ SEEK_END = SEEK_SET := by decide
        have hcur : ¬ SEEK_END = SEEK_CUR := by decide
        simp only [seekTo, if_neg hset, if_neg hcur, hvfs, Int.add_zero]
        exact sint_of_lt (by omega) (by omega)
      have hnot : ¬ ((F.vn_len s.vfs.fs vn : Int) < 0) := by omega
      have hwhence : ¬ (SEEK_END ≠ SEEK_SET ∧ SEEK_END ≠ SEEK_CUR ∧ SEEK_END ≠ SEEK_END) := by decide
      rw [do_lseek_eq (s := s.addRef f) hO hb hf1 (Nat.succ_pos _) hvn 0 SEEK_END, hend, if_neg hwhence, if_neg hnot]
      rfl
    rw [hpos]
    refine Eq.trans ?_ (write_rest hO hf h0
      (t := moved (s.addRef f) s.vfs.fs f { file with f_refcount := file.f_refcount + 1 } (F.vn_len s.vfs.fs vn)) rfl)
    have hback : (moved (s.addRef f) s.vfs.fs f { file with f_refcount := file.f_refcount + 1 } (F.vn_len s.vfs.fs vn)).modify f
        (fun file => { file with f_pos := F.vn_len s.vfs.fs vn }) =
        moved (s.addRef f) s.vfs.fs f { file with f_refcount := file.f_refcount + 1 } (F.vn_len s.vfs.fs vn) := by
      simp only [System.modify, System.setFile, moved, Function.update_self, Option.map_some, Function.update_idem]
    simp only [if_true, hseek, Option.bind_some, Except.toOption, hback]
    simp only [moved, Function.update_self, Option.bind_some]
    rfl

/-! ## Calls that fail -/

inductive PosCall
  | do_read (fd : Int) (nbytes : Nat)
  | do_write (fd : Int) (nbytes : Nat)
  | do_getdent (fd : Int)
  | do_lseek (fd offset whence : Int)
  deriving DecidableEq

def fileOf (N : Nat) (s : System σ) (p : Nat) (fd : Int) : Option File := (behind N s p fd).bind s.files

def posOf (s : System σ) (f : Nat) : Option Int := (s.files f).map File.f_pos

namespace PosCall

def filedes : PosCall → Int
  | .do_read fd _ | .do_write fd _ | .do_getdent fd | .do_lseek fd _ _ => fd

section
variable (N : Nat) (F : Io σ) (O : FileCalls σ)

/-- A call of the process `p`. -/
def run (s : System σ) (p : Nat) : PosCall → Option (System σ × Except Errno Int)
  | .do_read fd nbytes => VfsSubmit.do_read N F O s p fd nbytes
  | .do_write fd nbytes => VfsSubmit.do_write N F O s p fd nbytes
  | .do_getdent fd => VfsSubmit.do_getdent N F O s p fd
  | .do_lseek fd offset whence => VfsSubmit.do_lseek N F O s p fd offset whence

/-- The error for a request that is invalid. -/
def refusal (s : System σ) (p : Nat) : PosCall → Option Errno
  | .do_read fd _ =>
    match fileOf N s p fd with
    | none => some .EBADF
    | some file =>
      if !file.f_mode.read then some .EBADF else if file.f_vnode.any (F.tree s.vfs.fs).isDir then some .EISDIR else none
  | .do_write fd _ =>
    match fileOf N s p fd with
    | none => some .EBADF
    | some file => if !file.f_mode.write then some .EBADF else none
  | .do_getdent fd =>
    match fileOf N s p fd with
    | none => some .EBADF
    | some file => if file.f_vnode.any (F.tree s.vfs.fs).isDir then none else some .ENOTDIR
  | .do_lseek fd offset whence =>
    if fd < 0 ∨ N ≤ fd then some .EBADF
    else if whence ≠ SEEK_SET ∧ whence ≠ SEEK_CUR ∧ whence ≠ SEEK_END then some .EINVAL
    else
      match fileOf N s p fd with
      | none => some .EBADF
      | some file => if file.f_vnode.any fun vn => seekTo F s.vfs.fs file vn offset whence < 0 then some .EINVAL else none

/-- The position at which the vnode is asked. -/
def start (s : System σ) (file : File) (vn : Nat) : PosCall → Int
  | .do_write _ _ => writePos F s.vfs.fs file vn
  | _ => file.f_pos

/-- What the vnode answers to a request that is valid. -/
def answer (s : System σ) (p : Nat) : PosCall → Option Int
  | .do_read fd nbytes => do
    let file ← fileOf N s p fd
    let vn ← file.f_vnode
    (F.read s.vfs.fs vn file.f_pos nbytes).map Prod.snd
  | .do_write fd nbytes => do
    let file ← fileOf N s p fd
    let vn ← file.f_vnode
    (F.write s.vfs.fs vn (writePos F s.vfs.fs file vn) nbytes).map Prod.snd
  | .do_getdent fd => do
    let file ← fileOf N s p fd
    let vn ← file.f_vnode
    (F.readdir s.vfs.fs vn file.f_pos).map Prod.snd
  | .do_lseek _ _ _ => none

/-- The file is open for appending, and is at its end now. -/
def AtEnd (s s' : System σ) (f : Nat) : Prop :=
  ∃ file vn, s.files f = some file ∧ file.f_mode.append = true ∧ file.f_vnode = some vn ∧ posOf s' f = some (F.vn_len s.vfs.fs vn : Int)

/-- No file has moved, but that `do_write` may have moved its file to the end. -/
def Still (s : System σ) (p : Nat) (c : PosCall) (s' : System σ) : Prop :=
  ∀ f, posOf s' f = posOf s f ∨ (∃ fd nbytes, c = .do_write fd nbytes ∧ behind N s p fd = some f) ∧ AtEnd F s s' f

/-- When the request is invalid or the vnode fails, the call returns that error, and the file has not moved. -/
structure Steady (s : System σ) (p : Nat) (c : PosCall) : Prop where
  refused : ∀ e, c.refusal N F s p = some e → ∃ s', c.run N F O s p = some (s', .error e) ∧ Still N F s p c s'
  failed : c.refusal N F s p = none → ∀ v, c.answer N F s p = some v → v < 0 →
    ∃ s', c.run N F O s p = some (s', .ok v) ∧ Still N F s p c s'

/-- The vnode fails in `do_read` or `do_getdent`, or a position other than 0 would become negative in `do_lseek`. -/
def Drifts (s : System σ) (p : Nat) : PosCall → Prop
  | .do_write _ _ => False
  | .do_lseek fd offset whence => ¬ (whence ≠ SEEK_SET ∧ whence ≠ SEEK_CUR ∧ whence ≠ SEEK_END) ∧
    ∃ file vn, fileOf N s p fd = some file ∧ file.f_vnode = some vn ∧ seekTo F s.vfs.fs file vn offset whence < 0 ∧ file.f_pos ≠ 0
  | c => c.refusal N F s p = none ∧ ∃ v, c.answer N F s p = some v ∧ v < 0

/-- The vnode's answer takes the position past the last `int`. -/
def Far (s : System σ) (p : Nat) (c : PosCall) : Prop :=
  ∃ file vn v, fileOf N s p c.filedes = some file ∧ file.f_vnode = some vn ∧ c.answer N F s p = some v ∧ 2 ^ 31 ≤ c.start F s file vn + v

end

end PosCall

/-- Lengths and what the vnodes answer are `int`s. -/
structure Ints (F : Io σ) : Prop where
  len : ∀ fs vn, F.vn_len fs vn < 2 ^ 31
  read : ∀ fs vn pos n fs' v, F.read fs vn pos n = some (fs', v) → -2 ^ 31 ≤ v
  readdir : ∀ fs vn pos fs' v, F.readdir fs vn pos = some (fs', v) → -2 ^ 31 ≤ v

theorem sint_ne {a v : Int} (h0 : -2 ^ 31 ≤ v) (h1 : v < 0) : sint (a + v) ≠ a := by
  simp only [sint, Int.bmod]
  omega

theorem posOf_moved {fs : σ} {pos : Int} : posOf (moved s fs f file pos) f = some pos := by
  simp [posOf, moved]

theorem posOf_moved_ne {fs : σ} {pos : Int} {g : Nat} (h : g ≠ f) : posOf (moved s fs f file pos) g = posOf s g := by
  simp [posOf, moved, System.setFs, Function.update_of_ne h]

namespace PosCall

variable {c : PosCall}

theorem still_refl : Still N F s p c s := fun _ => .inl rfl

/-- The file is at the position where it was. -/
theorem still_moved {fs : σ} (hf : s.files f = some file) : Still N F s p c (moved s fs f file file.f_pos) := by
  intro g
  by_cases e : g = f
  · subst e
    rw [posOf_moved, posOf, hf]
    exact .inl rfl
  · exact .inl (posOf_moved_ne e)

/-- It is at another. -/
theorem not_still {fs : σ} {pos : Int} (hf : s.files f = some file) (hpos : pos ≠ file.f_pos) (hc : ∀ fd nbytes, c ≠ .do_write fd nbytes) :
    ¬ Still N F s p c (moved s fs f file pos) := by
  intro h
  rcases h f with he | ⟨⟨fd, nbytes, e, -⟩, -⟩
  · rw [posOf_moved, posOf, hf] at he
    exact hpos (by simpa using he)
  · exact hc fd nbytes e

theorem steady_refused {e : Errno} (he : c.refusal N F s p = some e) {s' : System σ} (hrun : c.run N F O s p = some (s', .error e))
    (hs : Still N F s p c s') : Steady N F O s p c := by
  refine ⟨fun e' h => ?_, fun h => ?_⟩
  · rw [he] at h
    cases h
    exact ⟨s', hrun, hs⟩
  · rw [he] at h
    cases h

theorem steady_done (hn : c.refusal N F s p = none) (h : ∀ v, c.answer N F s p = some v → ¬ v < 0) : Steady N F O s p c :=
  ⟨fun e he => (by rw [hn] at he; cases he), fun _ v hv hneg => absurd hneg (h v hv)⟩

/-- A descriptor that is not open is refused. -/
theorem run_closed (hO : Lawful O) (hb : behind N s p c.filedes = none) :
    ∃ e, c.refusal N F s p = some e ∧ c.run N F O s p = some (s, .error e) := by
  have hfd := behind_none.1 hb
  have hfile : fileOf N s p c.filedes = none := by rw [fileOf, hb]; rfl
  cases c with
  | do_read fd nbytes | do_write fd nbytes | do_getdent fd =>
    refine ⟨.EBADF, ?_, if_pos hfd⟩
    simp only [PosCall.filedes] at hfile
    simp only [refusal, hfile]
  | do_lseek fd offset whence =>
    simp only [PosCall.filedes] at hfile hfd
    simp only [refusal, hfile, run, VfsSubmit.do_lseek]
    split
    · exact ⟨_, rfl, rfl⟩
    next hrange =>
      split
      · exact ⟨_, rfl, rfl⟩
      · have hslot : s.slot p fd.toNat = none := by tauto
        have hget := hO.fget_fd s p fd.toNat
        rw [Int.toNat_of_nonneg (by omega), hslot] at hget
        rw [hget]
        exact ⟨_, rfl, rfl⟩

/-- The file of a descriptor that is open. -/
theorem behind_file (hs : Opened s) (hb : behind N s p fd = some f) : ∃ file vn, s.files f = some file ∧ 0 < file.f_refcount ∧
    file.f_vnode = some vn ∧ fileOf N s p fd = some file := by
  obtain ⟨file, vn, hf, h0, hvn⟩ := hs p fd.toNat f (behind_eq hb).2.2
  exact ⟨file, vn, hf, h0, hvn, by rw [fileOf, hb, Option.bind_some, hf]⟩

/-- A call that adds what the vnode answers to the position. -/
theorem steady_adds {x : Option (σ × Int)} {g : Int → Except Errno Int} (hn : c.refusal N F s p = none)
    (ha : c.answer N F s p = x.map Prod.snd)
    (hrun : c.run N F O s p = x.map fun x => (moved s x.1 f file (sint (file.f_pos + x.2)), g x.2)) (hf : s.files f = some file)
    (hint : ∀ fs v, x = some (fs, v) → -2 ^ 31 ≤ v) (hc : ∀ fd nbytes, c ≠ .do_write fd nbytes) :
    Steady N F O s p c ↔ ¬ (c.refusal N F s p = none ∧ ∃ v, c.answer N F s p = some v ∧ v < 0) := by
  cases x with
  | none =>
    refine iff_of_true (steady_done hn fun v hv => by cases ha.symm.trans hv) ?_
    rintro ⟨-, v, hv, -⟩
    cases ha.symm.trans hv
  | some x =>
    obtain ⟨fs, v⟩ := x
    by_cases hneg : v < 0
    · refine iff_of_false (fun h => ?_) (not_not_intro ⟨hn, v, ha, hneg⟩)
      obtain ⟨s', hrun', hs⟩ := h.failed hn v ha hneg
      obtain rfl : moved s fs f file (sint (file.f_pos + v)) = s' := congrArg Prod.fst (Option.some.inj (hrun.symm.trans hrun'))
      exact not_still hf (sint_ne (hint fs v rfl) hneg) hc hs
    · refine iff_of_true (steady_done hn fun v' hv => ?_) ?_
      · cases ha.symm.trans hv
        exact hneg
      · rintro ⟨-, v', hv, hlt⟩
        cases ha.symm.trans hv
        exact hneg hlt

theorem do_read_refusal (hfile : fileOf N s p fd = some file) (hvn : file.f_vnode = some vn) (nbytes : Nat) :
    (PosCall.do_read fd nbytes).refusal N F s p =
      if !file.f_mode.read then some .EBADF else if (F.tree s.vfs.fs).isDir vn then some .EISDIR else none := by
  simp only [refusal, hfile, hvn, Option.any_some]

theorem do_read_answer (hfile : fileOf N s p fd = some file) (hvn : file.f_vnode = some vn) (nbytes : Nat) :
    (PosCall.do_read fd nbytes).answer N F s p = (F.read s.vfs.fs vn file.f_pos nbytes).map Prod.snd := by
  simp only [answer, hfile, hvn, bind, Option.bind_some]

theorem do_getdent_refusal (hfile : fileOf N s p fd = some file) (hvn : file.f_vnode = some vn) :
    (PosCall.do_getdent fd).refusal N F s p = if (F.tree s.vfs.fs).isDir vn then none else some .ENOTDIR := by
  simp only [refusal, hfile, hvn, Option.any_some]

theorem do_getdent_answer (hfile : fileOf N s p fd = some file) (hvn : file.f_vnode = some vn) :
    (PosCall.do_getdent fd).answer N F s p = (F.readdir s.vfs.fs vn file.f_pos).map Prod.snd := by
  simp only [answer, hfile, hvn, bind, Option.bind_some]

theorem do_read_steady (hO : Lawful O) (hF : Ints F) (hs : Opened s) (hb : behind N s p fd = some f) (nbytes : Nat) :
    Steady N F O s p (.do_read fd nbytes) ↔ ¬ (PosCall.do_read fd nbytes).Drifts N F s p := by
  obtain ⟨file, vn, hf, h0, hvn, hfile⟩ := behind_file hs hb
  have hrun : (PosCall.do_read fd nbytes).run N F O s p = _ := do_read_eq hO hb hf h0 hvn nbytes
  have hrefusal := do_read_refusal (F := F) hfile hvn nbytes
  by_cases hread : (!file.f_mode.read) = true
  · rw [if_pos hread] at hrun hrefusal
    exact iff_of_true (steady_refused hrefusal hrun still_refl) fun hd => by cases hrefusal.symm.trans hd.1
  rw [if_neg hread] at hrun hrefusal
  by_cases hdir : (F.tree s.vfs.fs).isDir vn = true
  · rw [if_pos hdir] at hrun hrefusal
    exact iff_of_true (steady_refused hrefusal hrun still_refl) fun hd => by cases hrefusal.symm.trans hd.1
  rw [if_neg hdir] at hrun hrefusal
  exact steady_adds hrefusal (do_read_answer hfile hvn nbytes) hrun hf (fun fs v hx => hF.read _ _ _ _ _ _ hx) (by simp)

theorem do_getdent_steady (hO : Lawful O) (hF : Ints F) (hs : Opened s) (hb : behind N s p fd = some f) :
    Steady N F O s p (.do_getdent fd) ↔ ¬ (PosCall.do_getdent fd).Drifts N F s p := by
  obtain ⟨file, vn, hf, h0, hvn, hfile⟩ := behind_file hs hb
  have hrun : (PosCall.do_getdent fd).run N F O s p = _ := do_getdent_eq hO hb hf h0 hvn
  have hrefusal := do_getdent_refusal (F := F) hfile hvn
  by_cases hdir : (F.tree s.vfs.fs).isDir vn = true
  case neg =>
    rw [if_neg hdir] at hrefusal
    rw [if_pos (by simpa using hdir)] at hrun
    exact iff_of_true (steady_refused hrefusal hrun still_refl) fun hd => by cases hrefusal.symm.trans hd.1
  rw [if_pos hdir] at hrefusal
  rw [if_neg (by simpa using hdir)] at hrun
  exact steady_adds (g := fun v => .ok (if v = 0 then 0 else F.sizeof_dirent)) hrefusal (do_getdent_answer hfile hvn) hrun hf
    (fun fs v hx => hF.readdir _ _ _ _ _ hx) (by simp)

theorem do_lseek_steady (hO : Lawful O) (hs : Opened s) (hb : behind N s p fd = some f) (offset whence : Int) :
    Steady N F O s p (.do_lseek fd offset whence) ↔ ¬ (PosCall.do_lseek fd offset whence).Drifts N F s p := by
  obtain ⟨file, vn, hf, h0, hvn, hfile⟩ := behind_file hs hb
  obtain ⟨hneg, hbig, -⟩ := behind_eq hb
  have hrun : (PosCall.do_lseek fd offset whence).run N F O s p = _ := do_lseek_eq hO hb hf h0 hvn offset whence
  have hrange : ¬ (fd < 0 ∨ N ≤ fd) := by simp [hneg, hbig]
  have hrefusal : (PosCall.do_lseek fd offset whence).refusal N F s p =
      if whence ≠ SEEK_SET ∧ whence ≠ SEEK_CUR ∧ whence ≠ SEEK_END then some .EINVAL
      else if seekTo F s.vfs.fs file vn offset whence < 0 then some .EINVAL else none := by
    simp only [refusal, if_neg hrange, hfile, hvn, Option.any_some, decide_eq_true_eq]
  by_cases hwhence : whence ≠ SEEK_SET ∧ whence ≠ SEEK_CUR ∧ whence ≠ SEEK_END
  · rw [if_pos hwhence] at hrun hrefusal
    exact iff_of_true (steady_refused hrefusal hrun still_refl) fun hd => hd.1 hwhence
  rw [if_neg hwhence] at hrun hrefusal
  by_cases hlt : seekTo F s.vfs.fs file vn offset whence < 0
  · rw [if_pos hlt] at hrun hrefusal
    by_cases hpos : file.f_pos = 0
    · refine iff_of_true (steady_refused hrefusal hrun ?_) ?_
      · rw [← hpos]
        exact still_moved hf
      · rintro ⟨-, file', vn', hfile', -, -, hne⟩
        cases hfile.symm.trans hfile'
        exact hne hpos
    · refine iff_of_false (fun h => ?_) (not_not_intro ⟨hwhence, file, vn, hfile, hvn, hlt, hpos⟩)
      obtain ⟨s', hrun', hst⟩ := h.refused _ hrefusal
      cases hrun.symm.trans hrun'
      exact not_still hf (Ne.symm hpos) (by simp) hst
  · rw [if_neg hlt] at hrefusal
    refine iff_of_true (steady_done hrefusal fun v hv => by cases hv) ?_
    rintro ⟨-, file', vn', hfile', hvn', hlt', -⟩
    cases hfile.symm.trans hfile'
    cases hvn.symm.trans hvn'
    exact hlt hlt'

/-- `do_write` is steady. -/
theorem do_write_steady (hO : Lawful O) (hF : Ints F) (hs : Opened s) (hb : behind N s p fd = some f) (nbytes : Nat) :
    Steady N F O s p (.do_write fd nbytes) := by
  obtain ⟨file, vn, hf, h0, hvn, hfile⟩ := behind_file hs hb
  have hrun : (PosCall.do_write fd nbytes).run N F O s p = _ := do_write_eq hO hb hf h0 hvn (hF.len _ _) nbytes
  have hrefusal : (PosCall.do_write fd nbytes).refusal N F s p = if !file.f_mode.write then some .EBADF else none := by
    simp only [refusal, hfile]
  by_cases hwrite : (!file.f_mode.write) = true
  · rw [if_pos hwrite] at hrun hrefusal
    exact steady_refused hrefusal hrun still_refl
  rw [if_neg hwrite] at hrun hrefusal
  refine ⟨fun e he => (by cases hrefusal.symm.trans he), fun _ v hv hneg => ?_⟩
  simp only [answer, hfile, hvn, bind, Option.bind_some, Option.map_eq_some_iff] at hv
  obtain ⟨⟨fs, v'⟩, hx, rfl⟩ := hv
  rw [hx, Option.bind_some] at hrun
  have hassert : ¬ v' < 0 → F.isChr fs vn = true ∨ F.isBlk fs vn = true ∨
      (F.isReg fs vn = true ∧ writePos F s.vfs.fs file vn ≤ F.vn_len fs vn) := fun h => absurd hneg h
  simp only [KASSERT, if_pos hassert, Option.map_some, if_pos hneg] at hrun
  refine ⟨_, hrun, fun g => ?_⟩
  by_cases e : g = f
  · subst e
    cases happ : file.f_mode.append with
    | true =>
      refine .inr ⟨⟨fd, nbytes, rfl, hb⟩, file, vn, hf, happ, hvn, ?_⟩
      rw [posOf_moved]
      simp [writePos, happ]
    | false =>
      refine .inl ?_
      rw [posOf_moved, posOf, hf]
      simp [writePos, happ]
  · exact .inl (posOf_moved_ne e)

/-- A call is steady exactly when it does not drift. -/
theorem steady_iff (hO : Lawful O) (hF : Ints F) (hs : Opened s) : Steady N F O s p c ↔ ¬ c.Drifts N F s p := by
  cases hb : behind N s p c.filedes with
  | none =>
    obtain ⟨e, he, hrun⟩ := run_closed (c := c) hO hb
    refine iff_of_true (steady_refused he hrun still_refl) fun hd => ?_
    cases c with
    | do_read fd nbytes | do_getdent fd => cases he.symm.trans hd.1
    | do_write fd nbytes => exact hd
    | do_lseek fd offset whence =>
      obtain ⟨-, file, vn, hfile, -⟩ := hd
      rw [fileOf] at hfile
      simp only [PosCall.filedes] at hb
      rw [hb] at hfile
      cases hfile
  | some f =>
    cases c with
    | do_read fd nbytes => exact do_read_steady hO hF hs hb nbytes
    | do_getdent fd => exact do_getdent_steady hO hF hs hb
    | do_lseek fd offset whence => exact do_lseek_steady hO hs hb offset whence
    | do_write fd nbytes => exact iff_of_true (do_write_steady hO hF hs hb nbytes) fun hd => hd

/-! ### Histories -/

theorem opened_moved (hs : Opened s) (hf : s.files f = some file) (fs : σ) (pos : Int) : Opened (moved s fs f file pos) := by
  intro q fd g hg
  obtain ⟨file', vn, hfile, h0, hvn⟩ := hs q fd g hg
  by_cases e : g = f
  · subst e
    rw [hf] at hfile
    cases hfile
    exact ⟨{ file with f_pos := pos }, vn, by simp [moved], h0, hvn⟩
  · exact ⟨file', vn, (Function.update_of_ne e _ _).trans hfile, h0, hvn⟩

theorem sint_nonneg {a v : Int} (ha : 0 ≤ a) (hv : 0 ≤ v) (hfar : ¬ 2 ^ 31 ≤ a + v) : 0 ≤ sint (a + v) := by
  rw [sint_of_lt (by omega) (by omega)]
  omega

/-- A call moves one file, and not to a negative position when it neither drifts nor goes too far. -/
theorem run_moves (hO : Lawful O) (hF : Ints F) (hs : Opened s) (hrun : c.run N F O s p = some (s', r)) : s' = s ∨
    ∃ f file fs pos, s.files f = some file ∧ s' = moved s fs f file pos ∧
      (¬ c.Drifts N F s p → ¬ c.Far N F s p → 0 ≤ file.f_pos → 0 ≤ pos) := by
  cases hb : behind N s p c.filedes with
  | none =>
    obtain ⟨e, -, h⟩ := run_closed (c := c) hO hb
    cases hrun.symm.trans h
    exact .inl rfl
  | some f =>
    obtain ⟨file, vn, hf, h0, hvn, hfile⟩ := behind_file hs hb
    -- what the vnode answers is added to the position
    have hadds {x : Option (σ × Int)} {g : Int → Except Errno Int} (hn : c.refusal N F s p = none)
        (ha : c.answer N F s p = x.map Prod.snd) (hstart : c.start F s file vn = file.f_pos)
        (hx : x.map (fun x => (moved s x.1 f file (sint (file.f_pos + x.2)), g x.2)) = some (s', r))
        (hdrift : ¬ c.Drifts N F s p → ¬ (c.refusal N F s p = none ∧ ∃ v, c.answer N F s p = some v ∧ v < 0)) :
        ∃ f file fs pos, s.files f = some file ∧ s' = moved s fs f file pos ∧
          (¬ c.Drifts N F s p → ¬ c.Far N F s p → 0 ≤ file.f_pos → 0 ≤ pos) := by
      obtain ⟨⟨fs, v⟩, rfl, he⟩ := Option.map_eq_some_iff.1 hx
      refine ⟨f, file, fs, sint (file.f_pos + v), hf, (congrArg Prod.fst he).symm, fun hd hfar hpos => ?_⟩
      have hv : ¬ v < 0 := fun hlt => hdrift hd ⟨hn, v, ha, hlt⟩
      refine sint_nonneg hpos (by omega) fun hle => hfar ⟨file, vn, v, hfile, hvn, ha, ?_⟩
      rw [hstart]
      exact hle
    cases c with
    | do_read fd nbytes =>
      have heq : (PosCall.do_read fd nbytes).run N F O s p = _ := do_read_eq hO hb hf h0 hvn nbytes
      have hn := do_read_refusal (F := F) hfile hvn nbytes
      rw [hrun] at heq
      split at heq
      · cases heq
        exact .inl rfl
      next hread =>
        rw [if_neg hread] at hn
        split at heq
        · cases heq
          exact .inl rfl
        next hdir =>
          rw [if_neg hdir] at hn
          exact .inr (hadds hn (do_read_answer hfile hvn nbytes) rfl heq.symm id)
    | do_getdent fd =>
      have heq : (PosCall.do_getdent fd).run N F O s p = _ := do_getdent_eq hO hb hf h0 hvn
      have hn := do_getdent_refusal (F := F) hfile hvn
      rw [hrun] at heq
      split at heq
      · cases heq
        exact .inl rfl
      next hdir =>
        rw [if_pos (by simpa using hdir)] at hn
        exact .inr (hadds (g := fun v => .ok (if v = 0 then 0 else F.sizeof_dirent)) hn (do_getdent_answer hfile hvn) rfl heq.symm id)
    | do_lseek fd offset whence =>
      have heq : (PosCall.do_lseek fd offset whence).run N F O s p = _ := do_lseek_eq hO hb hf h0 hvn offset whence
      rw [hrun] at heq
      split at heq
      · cases heq
        exact .inl rfl
      · split at heq
        · cases heq
          exact .inr ⟨f, file, _, 0, hf, rfl, fun _ _ _ => Int.le_refl 0⟩
        next hlt =>
          cases heq
          exact .inr ⟨f, file, _, _, hf, rfl, fun _ _ _ => by omega⟩
    | do_write fd nbytes =>
      have heq : (PosCall.do_write fd nbytes).run N F O s p = _ := do_write_eq hO hb hf h0 hvn (hF.len _ _) nbytes
      rw [hrun] at heq
      split at heq
      · cases heq
        exact .inl rfl
      obtain ⟨⟨fs, v⟩, hx, heq⟩ := Option.bind_eq_some_iff.1 heq.symm
      obtain ⟨-, -, he⟩ := Option.map_eq_some_iff.1 heq
      refine .inr ⟨f, file, fs, _, hf, (congrArg Prod.fst he).symm, fun _ hfar hpos => ?_⟩
      have hstart : 0 ≤ writePos F s.vfs.fs file vn := by
        unfold writePos
        split <;> omega
      split
      · exact hstart
      next hv =>
        refine sint_nonneg hstart (by simpa using hv) fun hle => hfar ⟨file, vn, v, hfile, hvn, ?_, hle⟩
        simp only [answer, PosCall.filedes] at hfile ⊢
        simp only [hfile, hvn, hx, bind, Option.bind_some, Option.map_some]

/-- Vnode 2 cannot be read. -/
def brokenIo : Io (Nat → Name → Option Nat) := { flatIo with read := fun s _ _ _ => some (s, -EFAULT) }

/-- It is open in descriptor 0. -/
def oneReader : System (Nat → Name → Option Nat) where
  vfs := oneFile
  files f := if f = 0 then some { f_refcount := 1, f_mode := { read := true }, f_vnode := some 2 } else none
  procs p := if p = 0 then some { p_pid := 1, p_files := [some 0, none, none, none], p_cwd := 0 } else none
  nprocs := 1
  initproc := true

/-- The read fails, and the position is -14. -/
theorem failed_read_drifts :
    (∃ s', (PosCall.do_read 0 8).run 4 brokenIo slab oneReader 0 = some (s', .ok (-14)) ∧ posOf oneReader 0 = some 0 ∧
      posOf s' 0 = some (-14)) ∧ ¬ Steady 4 brokenIo slab oneReader 0 (.do_read 0 8) := by
  have h : ((PosCall.do_read 0 8).run 4 brokenIo slab oneReader 0).map (fun x => (x.2, posOf x.1 0)) =
      some (.ok (-14), some (-14)) := by decide +kernel
  obtain ⟨⟨s', r⟩, hrun, hr⟩ := Option.map_eq_some_iff.1 h
  obtain ⟨rfl, hpos⟩ := Prod.mk.inj hr
  refine ⟨⟨s', hrun, rfl, hpos⟩, fun hst => ?_⟩
  obtain ⟨s'', hrun', hstill⟩ := hst.failed (by decide +kernel) (-14) (by decide +kernel) (by decide)
  cases hrun.symm.trans hrun'
  rcases hstill 0 with he | ⟨⟨fd, nbytes, e, -⟩, -⟩
  · rw [hpos] at he
    cases he
  · cases e

/-- In every run of calls that do not drift and do not go too far no position becomes negative, and from every state
reached a call that fails returns its error and leaves the file exactly when it does not drift. -/
theorem positions_hold (hO : Lawful O) (hF : Ints F) {s₀ : System σ} (h0 : Opened s₀) {tr : List ((Nat × PosCall) × Except Errno Int)}
    (hrun : Run (fun s e => e.2.run N F O s e.1) (fun s e => ¬ e.2.Drifts N F s e.1 ∧ ¬ e.2.Far N F s e.1) s₀ s tr) :
    ((∀ f file, s₀.files f = some file → 0 ≤ file.f_pos) → ∀ f file, s.files f = some file → 0 ≤ file.f_pos) ∧
      ∀ p c, Steady N F O s p c ↔ ¬ c.Drifts N F s p := by
  have hopened : Opened s := hrun.inv Opened h0 fun s e s' r hs _ hst => by
    rcases run_moves hO hF hs hst with rfl | ⟨f, file, fs, pos, hf, rfl, -⟩
    · exact hs
    · exact opened_moved hs hf fs pos
  refine ⟨fun hpos => ?_, fun p c => steady_iff hO hF hopened⟩
  have hinv : Opened s ∧ ∀ f file, s.files f = some file → 0 ≤ file.f_pos := by
    refine hrun.inv (fun s => Opened s ∧ ∀ f file, s.files f = some file → 0 ≤ file.f_pos) ⟨h0, hpos⟩ ?_
    rintro s e s' r ⟨hs, hnn⟩ ⟨hd, hfar⟩ hst
    rcases run_moves hO hF hs hst with rfl | ⟨f, file, fs, pos, hf, rfl, hmove⟩
    · exact ⟨hs, hnn⟩
    · refine ⟨opened_moved hs hf fs pos, fun g file' hg => ?_⟩
      by_cases e : g = f
      · subst e
        simp only [moved, Function.update_self, Option.some.injEq] at hg
        subst hg
        exact hmove hd hfar (hnn g file hf)
      · exact hnn g file' ((Function.update_of_ne e _ _).symm.trans hg)
  exact hinv.2

theorem flatIo_ints : Ints flatIo := by
  refine ⟨fun _ _ => Nat.two_pow_pos 31, fun _ _ _ _ _ _ h => ?_, fun _ _ _ _ _ h => ?_⟩
  · cases h
    decide
  · cases h
    decide

theorem oneReader_opened : Opened oneReader := by
  intro p fd f h
  have hf : f = 0 := by
    simp only [System.slot, oneReader] at h
    split at h
    · rcases fd with _ | _ | _ | _ | n
      · simpa using h.symm
      all_goals simp at h
    · cases h
  subst hf
  exact ⟨_, 2, rfl, by decide, rfl⟩

/-- The position is set to 5. -/
theorem seek_holds : ∃ s', (PosCall.do_lseek 0 5 SEEK_SET).run 4 flatIo slab oneReader 0 = some (s', .ok 5) ∧
    (∀ f file, s'.files f = some file → 0 ≤ file.f_pos) ∧ Steady 4 flatIo slab s' 0 (.do_write 0 3) := by
  have h : ((PosCall.do_lseek 0 5 SEEK_SET).run 4 flatIo slab oneReader 0).map Prod.snd = some (.ok 5) := by decide +kernel
  obtain ⟨⟨s', r⟩, hst, rfl⟩ := Option.map_eq_some_iff.1 h
  have hok : ¬ (PosCall.do_lseek 0 5 SEEK_SET).Drifts 4 flatIo oneReader 0 ∧ ¬ (PosCall.do_lseek 0 5 SEEK_SET).Far 4 flatIo oneReader 0 := by
    constructor
    · rintro ⟨-, file, vn, -, -, hlt, -⟩
      rw [seekTo, if_pos rfl] at hlt
      omega
    · rintro ⟨file, vn, v, -, -, hv, -⟩
      cases hv
  have hrun : Run (fun s (e : Nat × PosCall) => e.2.run 4 flatIo slab s e.1)
      (fun s e => ¬ e.2.Drifts 4 flatIo s e.1 ∧ ¬ e.2.Far 4 flatIo s e.1) oneReader s' _ :=
    Run.snoc (e := (0, PosCall.do_lseek 0 5 SEEK_SET)) .nil hok hst
  obtain ⟨hpos, hsteady⟩ := positions_hold slab_lawful flatIo_ints oneReader_opened hrun
  refine ⟨s', hst, hpos fun f file hf => ?_, (hsteady 0 _).2 fun hd => hd⟩
  simp only [oneReader] at hf
  split at hf
  · cases hf
    decide
  · cases hf

end PosCall

end Weenix.Files.VfsSubmit
