import Weenix.Vfs.Files
import Weenix.Vfs.VmNames
/-!
# Open files in vm-submit (`open.c`, `vfs_syscall.c`, `fork.c`, `proc.c`)

What the calls on descriptors, `do_fork` and an exit do with open files and the
working directory; the memory of a process is in `Weenix.Vm`. A process that has
exited is not there any more.
-/

namespace Weenix.Files.VmSubmit
open Lib Vfs

variable {σ : Type}

section
variable (N : Nat) (L : Limits) (F : Io σ) (O : FileCalls σ) (root : Nat)

/-- The `f_mode` that the flags ask for. -/
def openMode (oflags : OFlags) : FMode :=
  let f_mode : FMode := if oflags.wronly then { write := true } else { read := true }
  let f_mode := if oflags.rdwr then { f_mode with write := true } else f_mode
  if oflags.append then { f_mode with append := true } else f_mode

open Errno in
def do_open (s : System σ) (p : Nat) (filename : Name) (oflags : OFlags) : Option (System σ × Except Errno Int) :=
  match get_empty_fd N s p with
  | none => some (s, .error .EMFILE)
  | some fd =>
    match O.fget s p (-1) with
    | (s, none) => some (s, .error .ENOMEM)
    | (s, some newFile) =>
      -- the new file is not put
      if oflags.rdwr && oflags.wronly then some (s, .error .EINVAL)
      else do
        let s := s.setSlot p fd (some newFile)
        let s := s.modify newFile fun file => { file with f_mode := openMode oflags }
        let curproc ← s.procs p
        let (vfs, r) ← VmSubmit.open_namev L F.toFs curproc.p_cwd root s.vfs filename oflags.creat
        let s := { s with vfs := vfs }
        match r with
        | .error e => do
          let s ← O.fput s newFile
          some (s.setSlot p fd none, .error e)
        | .ok vn =>
          if (oflags.rdwr || oflags.wronly) && (F.tree s.vfs.fs).isDir vn then do
            let s := s.setSlot p fd none
            let vfs ← s.vfs.vput vn
            let s ← O.fput { s with vfs := vfs } newFile
            some (s, .error .EISDIR)
          else if (!F.vn_bdev s.vfs.fs vn && F.isBlk s.vfs.fs vn) || (!F.vn_cdev s.vfs.fs vn && F.isChr s.vfs.fs vn) then do
            let s := s.setSlot p fd none
            let vfs ← s.vfs.vput vn
            let s ← O.fput { s with vfs := vfs } newFile
            some (s, .error ENXIO)
          else some (s.modify newFile fun file => { file with f_vnode := some vn }, .ok fd)

def do_close (s : System σ) (p : Nat) (fd : Int) : Option (System σ × Except Errno Int) :=
  if fd < 0 then some (s, .error .EBADF)
  else if N ≤ fd then some (s, .error .EBADF)
  else
    match s.slot p fd.toNat with
    | none => some (s, .error .EBADF)
    | some ftemp => do
      let s ← O.fput (s.setSlot p fd.toNat none) ftemp
      some (s, .ok 0)

def do_dup (s : System σ) (p : Nat) (fd : Int) : Option (System σ × Except Errno Int) :=
  if fd < 0 then some (s, .error .EBADF)
  else if N ≤ fd then some (s, .error .EBADF)
  else if s.slot p fd.toNat = none then some (s, .error .EBADF)
  -- the loop tests `p_files[fd]` each time
  else if ((List.range N).filter fun _ => s.slot p fd.toNat ≠ none).length = N - 1 then some (s, .error .EMFILE)
  else
    match O.fget s p fd with
    | (s, none) => some (s, .error .EBADF)
    | (s, some fOld) =>
      match get_empty_fd N s p with
      | none => do
        let s ← O.fput s fOld
        some (s, .error .EMFILE)
      | some fdNew => some (s.setSlot p fdNew (some fOld), .ok fdNew)

def do_dup2 (s : System σ) (p : Nat) (ofd nfd : Int) : Option (System σ × Except Errno Int) :=
  if ofd < 0 then some (s, .error .EBADF)
  else if nfd < 0 then some (s, .error .EBADF)
  else if N ≤ ofd then some (s, .error .EBADF)
  else if s.slot p ofd.toNat = none then some (s, .error .EBADF)
  else if N ≤ nfd then some (s, .error .EBADF)
  else
    match O.fget s p ofd with
    | (s, none) => some (s, .error .EBADF)
    | (s, some fOld) =>
      if ofd = nfd then do
        let s ← O.fput s fOld
        some (s, .ok nfd)
      else do
        let (s, _) ← if s.slot p nfd.toNat ≠ none then do_close N O s p nfd else some (s, .ok 0)
        some (s.setSlot p nfd.toNat (some fOld), .ok nfd)

def do_read (s : System σ) (p : Nat) (fd : Int) (nbytes : Nat) : Option (System σ × Except Errno Int) :=
  if fd < 0 then some (s, .error .EBADF)
  else if N ≤ fd then some (s, .error .EBADF)
  else
    match O.fget s p fd with
    | (s, none) => some (s, .error .EBADF)
    | (s, some f) => do
      let ftemp ← s.files f
      if !ftemp.f_mode.read then do
        let s ← O.fput s f
        some (s, .error .EBADF)
      else do
        let vn ← ftemp.f_vnode
        if (F.tree s.vfs.fs).isDir vn then do
          let s ← O.fput s f
          some (s, .error .EISDIR)
        else do
          let (fs, nretVal) ← F.read s.vfs.fs vn ftemp.f_pos nbytes
          let s := s.setFs fs
          let s := if nretVal > 0 then s.modify f fun file => { file with f_pos := sint (file.f_pos + nretVal) } else s
          let s ← O.fput s f
          some (s, .ok nretVal)

def SEEK_SET : Int := 0
def SEEK_CUR : Int := 1
def SEEK_END : Int := 2

def do_lseek (s : System σ) (p : Nat) (fd offset whence : Int) : Option (System σ × Except Errno Int) :=
  if ¬ (whence = 2 ∨ whence = 0 ∨ whence = 1) then some (s, .error .EINVAL)
  else if fd < 0 ∨ N ≤ fd then some (s, .error .EBADF)
  else
    match s.slot p fd.toNat with
    | none => some (s, .error .EBADF)
    | some f => do
      let file ← s.files f
      let pos ←
        if whence = SEEK_CUR then some (sint (file.f_pos + offset))
        else if whence = SEEK_SET then some offset
        else file.f_vnode.map fun vn => sint (offset + F.vn_len s.vfs.fs vn)
      if pos < 0 then some (s, .error .EINVAL)
      else some (s.modify f fun file => { file with f_pos := pos }, .ok pos)

def do_write (s : System σ) (p : Nat) (fd : Int) (nbytes : Nat) : Option (System σ × Except Errno Int) :=
  if fd < 0 then some (s, .error .EBADF)
  else if N ≤ fd then some (s, .error .EBADF)
  else
    match O.fget s p fd with
    | (s, none) => some (s, .error .EBADF)
    | (s, some f) => do
      let ftemp ← s.files f
      if !ftemp.f_mode.write then do
        let s ← O.fput s f
        some (s, .error .EBADF)
      else do
        let vn ← ftemp.f_vnode
        let (s, pos) ←
          if ftemp.f_mode.append then do_lseek N F s p fd 0 SEEK_END else some (s, .ok ftemp.f_pos)
        -- the end of a file is not negative
        let pos ← pos.toOption
        let (fs, retVal) ← F.write s.vfs.fs vn pos nbytes
        let s := s.setFs fs
        let ftemp ← s.files f
        KASSERT (retVal ≥ 0 → F.isBlk fs vn ∨ F.isChr fs vn ∨ (F.isReg fs vn ∧ ftemp.f_pos ≤ F.vn_len fs vn))
        let s := if retVal ≥ 0 then s.modify f fun file => { file with f_pos := sint (file.f_pos + retVal) } else s
        let s ← O.fput s f
        some (s, .ok retVal)

def do_getdent (s : System σ) (p : Nat) (fd : Int) : Option (System σ × Except Errno Int) :=
  if N ≤ fd then some (s, .error .EBADF)
  else if fd < 0 then some (s, .error .EBADF)
  else
    match O.fget s p fd with
    | (s, none) => some (s, .error .EBADF)
    | (s, some f) => do
      let ptr2File ← s.files f
      let vn ← ptr2File.f_vnode
      if !(F.tree s.vfs.fs).isDir vn then do
        let s ← O.fput s f
        some (s, .error .ENOTDIR)
      else do
        let (fs, val) ← F.readdir s.vfs.fs vn ptr2File.f_pos
        let s := s.setFs fs
        if 0 < val then do
          let s ← O.fput (s.modify f fun file => { file with f_pos := sint (file.f_pos + val) }) f
          some (s, .ok F.sizeof_dirent)
        else do
          let s ← O.fput s f
          some (s, .ok val)

/-! ### Processes -/

def PID_IDLE : Int := 0
def PID_INIT : Int := 1

/-- The part of `proc_create` with files; `pid` is what `_proc_getid` gave. -/
def proc_create (s : System σ) (p : Nat) (pid : Int) : Option (System σ) := do
  let curproc ← s.procs p
  KASSERT (PID_IDLE ≠ pid)
  KASSERT (PID_INIT ≠ pid ∨ PID_IDLE = curproc.p_pid)
  let pObj : Fproc := { p_pid := pid, p_files := List.replicate N none, p_cwd := root }
  let s := { s with nprocs := s.nprocs + 1, initproc := s.initproc || pid == PID_INIT }
  if pid ≠ 0 ∧ curproc.p_pid ≠ 0 then do
    -- `vref`
    KASSERT (0 < s.vfs.refs curproc.p_cwd)
    some ({ s with vfs := s.vfs.vget curproc.p_cwd }.setProc (s.nprocs - 1) (some { pObj with p_cwd := curproc.p_cwd }))
  else some (s.setProc (s.nprocs - 1) (some pObj))

/-- The loop of `do_fork` over `p_files`. -/
def copyFiles (s : System σ) (p newproc : Nat) : List Nat → System σ
  | [] => s
  | fd :: fds =>
    let s' := s.setSlot newproc fd (s.slot p fd)
    match s.slot p fd with
    | none => copyFiles s' p newproc fds
    | some f => copyFiles (O.fref s' f) p newproc fds

/-- The result is the pid of the new process. -/
def do_fork (s : System σ) (p : Nat) (pid : Int) : Option (System σ × Except Errno Int) := do
  let newproc := s.nprocs
  let s ← proc_create N root s p pid
  let s := copyFiles O s p newproc (List.range N)
  let curproc ← s.procs p
  let child ← s.procs newproc
  let s := s.setProc newproc (some { child with p_cwd := curproc.p_cwd })
  some ({ s with vfs := s.vfs.vget curproc.p_cwd }, .ok pid)

/-- The loop of `proc_cleanup` over `p_files`. -/
def putFiles (s : System σ) (p : Nat) : List Nat → Option (System σ)
  | [] => some s
  | fd :: fds =>
    match s.slot p fd with
    | none => putFiles s p fds
    | some f => do
      let s ← O.fput s f
      putFiles s p fds

/-- The part of `proc_cleanup` with files. -/
def proc_cleanup (s : System σ) (p : Nat) : Option (System σ) := do
  KASSERT (s.initproc = true)
  let curproc ← s.procs p
  KASSERT (0 < curproc.p_pid)
  let s ← putFiles O s p (List.range N)
  let vfs ← s.vfs.vput curproc.p_cwd
  some ({ s with vfs := vfs }.setProc p none)

end

variable {N : Nat} {L : Limits} {F : Io σ} {O : FileCalls σ} {root p : Nat} {s s' : System σ} {r : Except Errno Int} {fd : Int}

/-! ## Calls on descriptors -/

/-- `do_open` forgets the new file only when it is asked for both access modes. -/
theorem do_open_keeps {held : List Nat} (hO : Lawful O) (h : Accounted N held s) {filename : Name} {oflags : OFlags}
    (hp : (s.procs p).isSome) (hf : (oflags.rdwr && oflags.wronly) = false)
    (hc : do_open N L F O root s p filename oflags = some (s', r)) : Accounted N held s' := by
  simp only [do_open] at hc
  split at hc
  next => cases hc; exact h
  next fd hfd =>
    obtain ⟨hlt, hempty⟩ := get_empty_fd_some hfd
    split at hc
    next s₁ hg => exact h.fget_out hO (.inl rfl) hg hc
    next s₁ newFile hg =>
      obtain ⟨h1, hprocs⟩ := h.fget_new hO hg
      -- the slot takes the reference to the new file
      have h2 : Accounted N held (s₁.setSlot p fd (some newFile)) :=
        h1.fill (by rw [hprocs]; exact hp) hlt (by rw [Accounted.procs_slot hprocs]; exact hempty)
      have hslot : (s₁.setSlot p fd (some newFile)).slot p fd = some newFile :=
        h1.slot_setSlot (by rw [hprocs]; exact hp) hlt _
      simp only [hf, Bool.false_eq_true, if_false, bind, Option.bind_eq_some_iff, Prod.exists] at hc
      obtain ⟨curproc, -, vfs, res, -, hc⟩ := hc
      have h3 : Accounted N held { (s₁.setSlot p fd (some newFile)).modify newFile
          (fun file => { file with f_mode := openMode oflags }) with vfs := vfs } :=
        h2.modify newFile fun _ => rfl
      split at hc
      next e =>
        obtain ⟨s₄, hput, hc⟩ := Option.bind_eq_some_iff.1 hc
        cases hc
        exact h3.fput_clear hO hslot hput
      next vn =>
        -- on both errors the slot is emptied, and then the file is put
        have hclear {vfs' : State σ} {s₄ : System σ} (hput : O.fput { ({ (s₁.setSlot p fd (some newFile)).modify newFile
            (fun file => { file with f_mode := openMode oflags }) with vfs := vfs } : System σ).setSlot p fd none with
              vfs := vfs' } newFile = some s₄) : Accounted N held s₄ := by
          refine (Accounted.fput_keeps hO ?_ hput).1
          exact h3.clear hslot
        split at hc
        next =>
          simp only [Option.bind_eq_some_iff] at hc
          obtain ⟨vfs', -, s₄, hput, hc⟩ := hc
          cases hc
          exact hclear hput
        next =>
          split at hc
          next =>
            simp only [Option.bind_eq_some_iff] at hc
            obtain ⟨vfs', -, s₄, hput, hc⟩ := hc
            cases hc
            exact hclear hput
          next =>
            cases hc
            exact h3.modify newFile fun _ => rfl

theorem do_close_keeps {held : List Nat} (hO : Lawful O) (h : Accounted N held s) (hc : do_close N O s p fd = some (s', r)) :
    Accounted N held s' := by
  simp only [do_close] at hc
  iterate 2
    split at hc
    · cases hc; exact h
  split at hc
  next => cases hc; exact h
  next f hs =>
    exact (h.clear hs).fput_out hO hc

/-- A descriptor that was open is empty after `do_close`. -/
theorem do_close_empties {held : List Nat} (hO : Lawful O) (h : Accounted N held s) (hfd : ¬ fd < 0) (hlt : ¬ N ≤ fd)
    (hs : s.slot p fd.toNat ≠ none) (hc : do_close N O s p fd = some (s', r)) :
    s'.slot p fd.toNat = none ∧ (s'.procs p).isSome := by
  simp only [do_close, if_neg hfd, if_neg hlt] at hc
  split at hc
  next he => exact absurd he hs
  next f he =>
    obtain ⟨s₁, hput, hc⟩ := Option.bind_eq_some_iff.1 hc
    cases hc
    obtain ⟨pr, hpr, -⟩ := Accounted.slot_some he
    obtain ⟨-, hprocs⟩ := Accounted.fput_keeps hO (h.clear he) hput
    constructor
    · rw [Accounted.procs_slot hprocs]
      exact h.slot_setSlot (by simp [hpr]) (by omega) none
    · rw [hprocs]
      simp [System.setSlot, System.setProc, hpr]

theorem do_dup_keeps {held : List Nat} (hO : Lawful O) (h : Accounted N held s) (hp : (s.procs p).isSome)
    (hc : do_dup N O s p fd = some (s', r)) : Accounted N held s' := by
  simp only [do_dup] at hc
  split at hc
  next => cases hc; exact h
  next hneg =>
    iterate 3
      split at hc
      · cases hc; exact h
    split at hc
    next s₁ hg => exact h.fget_out hO (.inr hneg) hg hc
    next s₁ f hg =>
      obtain ⟨h1, hprocs⟩ := h.fget_fd hO hneg hg
      split at hc
      next => exact h1.fput_out hO hc
      next fdNew hfd =>
        cases hc
        obtain ⟨hlt, hempty⟩ := get_empty_fd_some hfd
        exact h1.fill (by rw [hprocs]; exact hp) hlt hempty

theorem do_dup2_keeps {held : List Nat} (hO : Lawful O) (h : Accounted N held s) (hp : (s.procs p).isSome) {ofd nfd : Int}
    (hc : do_dup2 N O s p ofd nfd = some (s', r)) : Accounted N held s' := by
  simp only [do_dup2] at hc
  split at hc
  next => cases hc; exact h
  next hofd =>
    split at hc
    next => cases hc; exact h
    next hnfd =>
      iterate 2
        split at hc
        · cases hc; exact h
      split at hc
      next => cases hc; exact h
      next hlt =>
        split at hc
        next s₁ hg => exact h.fget_out hO (.inr hofd) hg hc
        next s₁ fOld hg =>
          obtain ⟨h1, hprocs⟩ := h.fget_fd hO hofd hg
          split at hc
          next => exact h1.fput_out hO hc
          next =>
            split at hc
            next hs =>
              -- the old descriptor is closed
              obtain ⟨⟨s₂, r₂⟩, hclose, hc⟩ := Option.bind_eq_some_iff.1 hc
              cases hc
              obtain ⟨hempty, hp₂⟩ := do_close_empties hO h1 hnfd hlt hs hclose
              exact (do_close_keeps hO h1 hclose).fill hp₂ (by omega) hempty
            next hs =>
              cases hc
              exact h1.fill (by rw [hprocs]; exact hp) (by omega) (by simpa using hs)

theorem do_lseek_keeps {held : List Nat} (h : Accounted N held s) {offset whence : Int}
    (hc : do_lseek N F s p fd offset whence = some (s', r)) : Accounted N held s' := by
  simp only [do_lseek] at hc
  iterate 2
    split at hc
    · cases hc; exact h
  split at hc
  next => cases hc; exact h
  next f hs =>
    obtain ⟨file, -, hc⟩ := Option.bind_eq_some_iff.1 hc
    -- whatever the new position is
    have hpos {pos : Int} (hc : (if pos < 0 then some (s, .error .EINVAL)
        else some (s.modify f fun file => { file with f_pos := pos }, .ok pos)) = some (s', r)) : Accounted N held s' := by
      split at hc
      next => cases hc; exact h
      next =>
        cases hc
        exact h.modify f fun _ => rfl
    split at hc
    next => exact hpos hc
    next =>
      split at hc
      next => exact hpos hc
      next =>
        obtain ⟨pos, -, hc⟩ := Option.bind_eq_some_iff.1 hc
        exact hpos hc

theorem do_read_keeps {held : List Nat} (hO : Lawful O) (h : Accounted N held s) {nbytes : Nat}
    (hc : do_read N F O s p fd nbytes = some (s', r)) : Accounted N held s' := by
  simp only [do_read] at hc
  split at hc
  next => cases hc; exact h
  next hneg =>
    split at hc
    next => cases hc; exact h
    next =>
      split at hc
      next s₁ hg => exact h.fget_out hO (.inr hneg) hg hc
      next s₁ f hg =>
        obtain ⟨h1, -⟩ := h.fget_fd hO hneg hg
        simp only [bind, Option.bind_eq_some_iff] at hc
        obtain ⟨ftemp, -, hc⟩ := hc
        split at hc
        next => exact h1.fput_out hO hc
        next =>
          obtain ⟨vn, -, hc⟩ := Option.bind_eq_some_iff.1 hc
          split at hc
          next => exact h1.fput_out hO hc
          next =>
            simp only [Option.bind_eq_some_iff, Prod.exists] at hc
            obtain ⟨fs, n, -, s₂, hput, hc⟩ := hc
            cases hc
            have h2 : Accounted N (f :: held) (if n > 0 then (s₁.setFs fs).modify f fun file => { file with f_pos := sint (file.f_pos + n) }
                else s₁.setFs fs) := by
              split
              · exact (h1.setFs fs).modify f fun _ => rfl
              · exact h1.setFs fs
            exact (h2.fput_keeps hO hput).1

/-- The end of `do_write`, at the position `pos`. -/
theorem write_at_keeps {held : List Nat} {vn f : Nat} {pos : Int} {nbytes : Nat} (hO : Lawful O) (h : Accounted N (f :: held) s)
    (hc : (do
        let (fs, retVal) ← F.write s.vfs.fs vn pos nbytes
        let s := s.setFs fs
        let ftemp ← s.files f
        KASSERT (retVal ≥ 0 → F.isBlk fs vn ∨ F.isChr fs vn ∨ (F.isReg fs vn ∧ ftemp.f_pos ≤ F.vn_len fs vn))
        let s := if retVal ≥ 0 then s.modify f fun file => { file with f_pos := sint (file.f_pos + retVal) } else s
        let s ← O.fput s f
        some (s, .ok retVal)) = some (s', r)) : Accounted N held s' := by
  simp only [bind, Option.bind_eq_some_iff, Prod.exists] at hc
  obtain ⟨fs, n, -, ftemp, -, -, -, s₁, hput, hc⟩ := hc
  cases hc
  have h1 : Accounted N (f :: held) (if n ≥ 0 then (s.setFs fs).modify f fun file => { file with f_pos := sint (file.f_pos + n) }
      else s.setFs fs) := by
    split
    · exact (h.setFs fs).modify f fun _ => rfl
    · exact h.setFs fs
  exact (h1.fput_keeps hO hput).1

theorem do_write_keeps {held : List Nat} (hO : Lawful O) (h : Accounted N held s) {nbytes : Nat}
    (hc : do_write N F O s p fd nbytes = some (s', r)) : Accounted N held s' := by
  simp only [do_write] at hc
  split at hc
  next => cases hc; exact h
  next hneg =>
    split at hc
    next => cases hc; exact h
    next =>
      split at hc
      next s₁ hg => exact h.fget_out hO (.inr hneg) hg hc
      next s₁ f hg =>
        obtain ⟨h1, -⟩ := h.fget_fd hO hneg hg
        obtain ⟨ftemp, -, hc⟩ := Option.bind_eq_some_iff.1 hc
        split at hc
        next => exact h1.fput_out hO hc
        next =>
          obtain ⟨vn, -, hc⟩ := Option.bind_eq_some_iff.1 hc
          split at hc
          next =>
            obtain ⟨⟨s₂, pos⟩, hseek, hc⟩ := Option.bind_eq_some_iff.1 hc
            obtain ⟨pos', -, hc⟩ := Option.bind_eq_some_iff.1 hc
            exact write_at_keeps hO (do_lseek_keeps h1 hseek) hc
          next =>
            obtain ⟨_, ⟨⟩, hc⟩ := Option.bind_eq_some_iff.1 hc
            obtain ⟨pos', -, hc⟩ := Option.bind_eq_some_iff.1 hc
            exact write_at_keeps hO h1 hc

theorem do_getdent_keeps {held : List Nat} (hO : Lawful O) (h : Accounted N held s) (hc : do_getdent N F O s p fd = some (s', r)) :
    Accounted N held s' := by
  simp only [do_getdent] at hc
  split at hc
  next => cases hc; exact h
  next =>
    split at hc
    next => cases hc; exact h
    next hneg =>
      split at hc
      next s₁ hg => exact h.fget_out hO (.inr hneg) hg hc
      next s₁ f hg =>
        obtain ⟨h1, -⟩ := h.fget_fd hO hneg hg
        simp only [bind, Option.bind_eq_some_iff] at hc
        obtain ⟨file, -, vn, -, hc⟩ := hc
        split at hc
        next => exact h1.fput_out hO hc
        next =>
          simp only [Option.bind_eq_some_iff, Prod.exists] at hc
          obtain ⟨fs, val, -, hc⟩ := hc
          have h2 := h1.setFs fs
          split at hc
          next =>
            refine Accounted.fput_out hO ?_ hc
            exact h2.modify f fun _ => rfl
          next => exact h2.fput_out hO hc

end Weenix.Files.VmSubmit
