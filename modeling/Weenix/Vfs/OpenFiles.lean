import Weenix.Lib.Runs
import Weenix.Vfs.Files
/-!
# Open files in vfs-submit (`open.c`, `vfs_syscall.c`, `proc.c`)

When `open_namev` fails, or has found a directory that is to be written,
`do_open` puts the new file and leaves the slot that points to it. `do_dup2` asks
with `fget` whether the new descriptor is open, and forgets the reference.
Without these two every slot has a file, and every file its slots.
-/

namespace Weenix.Files.VfsSubmit
open Lib Vfs

variable {σ : Type}

section
variable (N : Nat) (L : Limits) (F : Io σ) (O : FileCalls σ) (root : Nat)

/-- The `f_mode` that the flags ask for; `O_APPEND` counts without `O_TRUNC`. -/
def openMode (oflags : OFlags) : FMode :=
  let f_mode : FMode := { append := oflags.append && !oflags.trunc }
  if !oflags.wronly && !oflags.rdwr then { f_mode with read := true }
  else if oflags.wronly && !oflags.rdwr then { f_mode with write := true }
  else { f_mode with read := true, write := true }

def do_open (s : System σ) (p : Nat) (filename : Name) (oflags : OFlags) : Option (System σ × Except Errno Int) :=
  if oflags.wronly && oflags.rdwr then some (s, .error .EINVAL)
  else if filename.length = 0 then some (s, .error .EINVAL)
  else if L.MAXPATHLEN < filename.length then some (s, .error .ENAMETOOLONG)
  else
    match get_empty_fd N s p with
    | none => some (s, .error .EMFILE)
    | some filedesc =>
      match O.fget s p (-1) with
      | (s, none) => some (s, .error .ENOMEM)
      | (s, some f) => do
        let s := s.setSlot p filedesc (some f)
        let s := s.modify f fun file => { file with
          f_mode := openMode oflags
          f_pos := if oflags.append && !oflags.trunc then file.f_pos else 0 }
        let curproc ← s.procs p
        let (vfs, value) ← open_namev L F.toFs curproc.p_cwd root s.vfs filename oflags.creat
        let s := { s with vfs := vfs }
        match value with
        | .error e => do
          -- the slot is not emptied, here and below
          let s ← O.fput s f
          some (s, .error e)
        | .ok res_vnode =>
          if (F.tree s.vfs.fs).isDir res_vnode && (oflags.rdwr || oflags.wronly) then do
            let s ← O.fput s f
            let vfs ← s.vfs.vput res_vnode
            some ({ s with vfs := vfs }, .error .EISDIR)
          else
            let s := if oflags.trunc then s.modify f fun file => { file with f_pos := 0 } else s
            some (s.modify f fun file => { file with f_vnode := some res_vnode }, .ok filedesc)

def do_close (s : System σ) (p : Nat) (fd : Int) : Option (System σ × Except Errno Int) :=
  if fd < 0 ∨ N ≤ fd then some (s, .error .EBADF)
  else
    match s.slot p fd.toNat with
    | none => some (s, .error .EBADF)
    | some f => do
      let s ← O.fput s f
      some (s.setSlot p fd.toNat none, .ok 0)

def do_dup (s : System σ) (p : Nat) (fd : Int) : Option (System σ × Except Errno Int) :=
  if fd < 0 ∨ N ≤ fd ∨ s.slot p fd.toNat = none then some (s, .error .EBADF)
  else
    match O.fget s p fd with
    | (s, none) => some (s, .error .EBADF)
    | (s, some file) =>
      match get_empty_fd N s p with
      | none => do
        let s ← O.fput s file
        some (s, .error .EMFILE)
      | some fd1 => some (s.setSlot p fd1 (some file), .ok fd1)

def do_dup2 (s : System σ) (p : Nat) (ofd nfd : Int) : Option (System σ × Except Errno Int) :=
  if ofd < 0 ∨ N ≤ ofd ∨ s.slot p ofd.toNat = none then some (s, .error .EBADF)
  else if nfd < 0 ∨ N ≤ nfd then some (s, .error .EBADF)
  else
    match O.fget s p ofd with
    | (s, none) => some (s, .error .EBADF)
    | (s, some file) =>
      if nfd = ofd then do
        let s ← O.fput s file
        some (s, .ok nfd)
      else
        match O.fget s p nfd with
        | (s, none) => some (s.setSlot p nfd.toNat (some file), .ok nfd)
        -- the reference is not put
        | (s, some _) => do
          match ← do_close N O s p nfd with
          | (s, .error ret) => do
            let s ← O.fput s file
            some (s, .error ret)
          | (s, .ok _) => some (s.setSlot p nfd.toNat (some file), .ok nfd)

/-- The loop of `proc_cleanup` over `p_files`. -/
def closeFiles (s : System σ) (p : Nat) : List Nat → Option (System σ)
  | [] => some s
  | fd :: fds =>
    match s.slot p fd with
    | none => closeFiles s p fds
    | some f => do
      let file ← s.files f
      if 0 < file.f_refcount then do
        let (s, _) ← do_close N O s p fd
        closeFiles s p fds
      else closeFiles s p fds

/-- The part of `proc_cleanup` with files. -/
def proc_cleanup (s : System σ) (p : Nat) : Option (System σ) := do
  KASSERT (s.initproc = true)
  let curproc ← s.procs p
  KASSERT (1 ≤ curproc.p_pid)
  let s := s.setProc p (some { curproc with dead := true })
  let vfs ← s.vfs.vput curproc.p_cwd
  closeFiles N O { s with vfs := vfs } p (List.range N)

inductive FileCall
  | do_open (filename : Name) (oflags : OFlags)
  | do_close (fd : Int)
  | do_dup (fd : Int)
  | do_dup2 (ofd nfd : Int)
  | exit

def FileCall.run (s : System σ) (p : Nat) : FileCall → Option (System σ × Except Errno Int)
  | do_open filename oflags => VfsSubmit.do_open N L F O root s p filename oflags
  | do_close fd => VfsSubmit.do_close N O s p fd
  | do_dup fd => VfsSubmit.do_dup N O s p fd
  | do_dup2 ofd nfd => VfsSubmit.do_dup2 N O s p ofd nfd
  | exit => (proc_cleanup N O s p).map fun s => (s, .ok 0)

/-- A call of a process that has not exited. -/
def step (s : System σ) : Nat × FileCall → Option (System σ × Except Errno Int)
  | (p, c) => if ((s.procs p).map Fproc.dead) = some false then c.run N L F O root s p else none

/-- What `open_namev` has returned is a vnode that the flags may open. -/
def MayOpen (oflags : OFlags) : Option (State σ × Except Errno Nat) → Prop
  | some (vfs, .ok v) => ((F.tree vfs.fs).isDir v && (oflags.rdwr || oflags.wronly)) = false
  | some (_, .error _) => False
  | none => True

instance (oflags : OFlags) : DecidablePred (MayOpen F oflags)
  | some (_, .ok _) => inferInstanceAs (Decidable (_ = _))
  | some (_, .error _) => inferInstanceAs (Decidable False)
  | none => inferInstanceAs (Decidable True)

/-- An open that stores a file finds a vnode it may open, and a descriptor is
doubled onto one that is not open. -/
def Careful (s : System σ) : Nat × FileCall → Prop
  | (p, .do_open filename oflags) =>
    (oflags.wronly && oflags.rdwr) = true ∨ filename.length = 0 ∨ L.MAXPATHLEN < filename.length ∨
      get_empty_fd N s p = none ∨ (O.fget s p (-1)).2 = none ∨
      MayOpen F oflags ((s.procs p).bind fun curproc =>
        open_namev L F.toFs curproc.p_cwd root s.vfs filename oflags.creat)
  | (p, .do_dup2 ofd nfd) =>
    ofd < 0 ∨ N ≤ ofd ∨ s.slot p ofd.toNat = none ∨ nfd < 0 ∨ N ≤ nfd ∨ nfd = ofd ∨ s.slot p nfd.toNat = none
  | _ => True

instance (s : System σ) : DecidablePred (Careful N L F O root s)
  | (_, .do_open _ _) => inferInstanceAs (Decidable (_ ∨ _))
  | (_, .do_dup2 _ _) => inferInstanceAs (Decidable (_ ∨ _))
  | (_, .do_close _) | (_, .do_dup _) | (_, .exit) => inferInstanceAs (Decidable True)

end

/-- Every slot has a file, and every file as many references as slots. -/
def Sound (s : System σ) : Prop :=
  (∀ p fd f, s.slot p fd = some f → (s.files f).isSome) ∧
  ∀ f file, s.files f = some file → file.f_refcount = slots s.procs s.nprocs f

variable {N : Nat} {L : Limits} {F : Io σ} {O : FileCalls σ} {root p : Nat} {s s' : System σ} {r : Except Errno Int} {fd : Int}

/-! ## Calls on descriptors -/

theorem do_open_keeps (hO : Lawful O) (h : Accounted N [] s) (hp : (s.procs p).isSome) {filename : Name} {oflags : OFlags}
    (hok : Careful N L F O root s (p, .do_open filename oflags))
    (hc : do_open N L F O root s p filename oflags = some (s', r)) : Accounted N [] s' := by
  simp only [do_open] at hc
  split at hc
  next => cases hc; exact h
  next h1 =>
    split at hc
    next => cases hc; exact h
    next h2 =>
      split at hc
      next => cases hc; exact h
      next h3 =>
        cases hfd : get_empty_fd N s p with
        | none =>
          rw [hfd] at hc
          cases hc
          exact h
        | some fd =>
          obtain ⟨hlt, hempty⟩ := get_empty_fd_some hfd
          rw [hfd] at hc
          rcases hO.fget_new s p with hg | ⟨f, file, hf, hcount, hg⟩
          · rw [hg] at hc
            cases hc
            exact h
          · rw [hg] at hc
            obtain ⟨curproc, hcur⟩ := Option.isSome_iff_exists.1 hp
            have hnew : Accounted N [f] (s.setFile f (some file)) := Counted.create h hf hcount
            have hcur' : ((s.setFile f (some file)).setSlot p fd (some f)).procs p =
                some { curproc with p_files := curproc.p_files.set fd (some f) } := by
              simp [System.setSlot, System.setProc, System.setFile, hcur]
            obtain ⟨_, hcur₂, hc⟩ := Option.bind_eq_some_iff.1 hc
            cases hcur₂.symm.trans hcur'
            obtain ⟨⟨vfs, value⟩, hopen, hc⟩ := Option.bind_eq_some_iff.1 hc
            have hmay : MayOpen F oflags (some (vfs, value)) := by
              rcases hok with e | e | e | e | e | e
              · exact absurd e h1
              · exact absurd e h2
              · exact absurd e h3
              · rw [hfd] at e; cases e
              · rw [hg] at e; cases e
              · rw [hcur, Option.bind_some] at e
                exact hopen ▸ e
            cases value with
            | error e => cases hmay
            | ok v =>
              -- only a vnode that may be opened is left
              simp only [MayOpen] at hmay
              simp only [hmay, Bool.false_eq_true, if_false, Option.some.injEq, Prod.mk.injEq] at hc
              obtain ⟨rfl, -⟩ := hc
              have hstored := (hnew.fill (p := p) hp hlt hempty).modify f (g := fun file => { file with
                f_mode := openMode oflags
                f_pos := if oflags.append && !oflags.trunc then file.f_pos else 0 }) fun _ => rfl
              refine Accounted.modify ?_ f fun _ => rfl
              split
              · exact hstored.modify f fun _ => rfl
              · exact hstored

theorem do_close_keeps {held : List Nat} (hO : Lawful O) (h : Accounted N held s) (hc : do_close N O s p fd = some (s', r)) :
    Accounted N held s' := by
  simp only [do_close] at hc
  split at hc
  next => cases hc; exact h
  next =>
    split at hc
    next => cases hc; exact h
    next f hs =>
      obtain ⟨s₁, hput, hc⟩ := Option.bind_eq_some_iff.1 hc
      cases hc
      exact h.fput_clear hO hs hput

theorem do_dup_keeps (hO : Lawful O) (h : Accounted N [] s) (hp : (s.procs p).isSome)
    (hc : do_dup N O s p fd = some (s', r)) : Accounted N [] s' := by
  simp only [do_dup] at hc
  split at hc
  next => cases hc; exact h
  next hfd =>
    have hneg : ¬ fd < 0 := fun e => hfd (.inl e)
    split at hc
    next s₁ hg => exact h.fget_out hO (.inr hneg) hg hc
    next s₁ f hg =>
      obtain ⟨h1, hprocs⟩ := h.fget_fd hO hneg hg
      split at hc
      next => exact h1.fput_out hO hc
      next fd1 hfd1 =>
        cases hc
        obtain ⟨hlt, hempty⟩ := get_empty_fd_some hfd1
        exact h1.fill (by rw [hprocs]; exact hp) hlt hempty

theorem do_dup2_keeps (hO : Lawful O) (h : Accounted N [] s) (hp : (s.procs p).isSome) {ofd nfd : Int}
    (hok : Careful N L F O root s (p, .do_dup2 ofd nfd)) (hc : do_dup2 N O s p ofd nfd = some (s', r)) :
    Accounted N [] s' := by
  simp only [do_dup2] at hc
  split at hc
  next => cases hc; exact h
  next hofd =>
    split at hc
    next => cases hc; exact h
    next hnfd =>
      rw [not_or] at hofd hnfd
      split at hc
      next s₁ hg => exact h.fget_out hO (.inr hofd.1) hg hc
      next s₁ f hg =>
        obtain ⟨h1, hprocs⟩ := h.fget_fd hO hofd.1 hg
        split at hc
        next => exact h1.fput_out hO hc
        next hne =>
          have hempty : s₁.slot p nfd.toNat = none := by
            rw [Accounted.procs_slot hprocs]
            rcases hok with e | e | e | e | e | e | e <;> tauto
          obtain ⟨n, rfl⟩ := Int.eq_ofNat_of_zero_le (Int.not_lt.1 hnfd.1)
          rw [hO.fget_fd, show s₁.slot p n = none from hempty] at hc
          cases hc
          exact h1.fill (by rw [hprocs]; exact hp) (by omega) hempty

/-! ## Exit -/

theorem closeFiles_keeps (hO : Lawful O) (h : Accounted N [] s) {fds : List Nat} (hc : closeFiles N O s p fds = some s') :
    Accounted N [] s' := by
  induction fds generalizing s with
  | nil => cases hc; exact h
  | cons fd fds ih =>
    unfold closeFiles at hc
    split at hc
    next => exact ih h hc
    next f hs =>
      obtain ⟨file, -, hc⟩ := Option.bind_eq_some_iff.1 hc
      split at hc
      next =>
        obtain ⟨⟨s₁, r⟩, hclose, hc⟩ := Option.bind_eq_some_iff.1 hc
        exact ih (do_close_keeps hO h hclose) hc
      next => exact ih h hc

theorem proc_cleanup_keeps (hO : Lawful O) (h : Accounted N [] s) (hc : proc_cleanup N O s p = some s') : Accounted N [] s' := by
  simp only [proc_cleanup, bind, Option.bind_eq_some_iff] at hc
  obtain ⟨-, -, curproc, hp, -, -, vfs, -, hc⟩ := hc
  refine closeFiles_keeps hO ?_ hc
  exact Counted.setProc h hp rfl

/-! ## Sequences of calls -/

theorem step_keeps (hO : Lawful O) (h : Accounted N [] s) {e : Nat × FileCall} (hok : Careful N L F O root s e)
    (hst : step N L F O root s e = some (s', r)) : Accounted N [] s' := by
  obtain ⟨p, c⟩ := e
  simp only [step] at hst
  split at hst
  case isFalse => cases hst
  next hd =>
    have hp : (s.procs p).isSome := by
      cases hp : s.procs p with
      | none => simp [hp] at hd
      | some pr => rfl
    cases c with
    | do_open filename oflags => exact do_open_keeps hO h hp hok hst
    | do_close fd => exact do_close_keeps hO h hst
    | do_dup fd => exact do_dup_keeps hO h hp hst
    | do_dup2 ofd nfd => exact do_dup2_keeps hO h hp hok hst
    | exit =>
      obtain ⟨s₁, hc, he⟩ := Option.map_eq_some_iff.1 hst
      cases he
      exact proc_cleanup_keeps hO h hc

theorem sound_of_accounted (h : Accounted N [] s) : Sound s := by
  refine ⟨fun p fd f hs => ?_, fun f file hf => ?_⟩
  · obtain ⟨file, hf, -⟩ := h.slot_file hs
    rw [hf]
    rfl
  · have := h.counts f
    simpa [refcount, hf] using this

/-- `/d/b` is not there: its open fails, and descriptor 0 points to a file that has been freed. -/
theorem open_leaves_slot : ∃ s tr, Run (step 4 stock flatIo slab 0) (fun _ _ => True) (oneProc 1) s tr ∧
    s.slot 0 0 = some 0 ∧ s.files 0 = none ∧ ¬ Sound s := by
  have h : (exec (step 4 stock flatIo slab 0) (fun _ _ => true) (oneProc 1) [(0, .do_open "/d/b".toList {})]).map
      (fun x => (x.1.slot 0 0, x.1.files 0)) = some (some 0, none) := by
    decide +kernel
  obtain ⟨⟨s, tr⟩, hex, hs⟩ := Option.map_eq_some_iff.1 h
  obtain ⟨hslot, hfile⟩ := Prod.mk.inj hs
  refine ⟨s, tr, Run.of_exec (fun _ _ _ => trivial) hex, hslot, hfile, fun hsound => ?_⟩
  have := hsound.1 0 0 0 hslot
  rw [hfile] at this
  cases this

/-- In every run of careful calls the tables are sound in every state reached. -/
theorem careful_runs_sound (hO : Lawful O) {s₀ : System σ} (h0 : NoFiles N s₀) {tr : List ((Nat × FileCall) × Except Errno Int)}
    (h : Run (step N L F O root) (Careful N L F O root) s₀ s tr) : Sound s := by
  have hs : Accounted N [] s := h.inv (Accounted N []) h0.accounted fun s e s' w hs hok hst => step_keeps hO hs hok hst
  exact sound_of_accounted hs

/-- `/d/a` is opened and doubled onto descriptor 3, and the first one is closed. -/
theorem doubled_and_closed : ∃ s : System (Nat → Name → Option Nat),
    s.slot 0 0 = none ∧ s.slot 0 3 = some 0 ∧ (s.files 0).map File.f_refcount = some 1 ∧ Sound s := by
  have h : (exec (step 4 stock flatIo slab 0) (fun s e => decide (Careful 4 stock flatIo slab 0 s e)) (oneProc 1)
      [(0, .do_open "/d/a".toList {}), (0, .do_dup2 0 3), (0, .do_close 0)]).map
      (fun x => (x.1.slot 0 0, x.1.slot 0 3, (x.1.files 0).map File.f_refcount)) = some (none, some 0, some 1) := by
    decide +kernel
  obtain ⟨⟨s, tr⟩, hex, hs⟩ := Option.map_eq_some_iff.1 h
  simp only [Prod.mk.injEq] at hs
  have hrun : Run (step 4 stock flatIo slab 0) (Careful 4 stock flatIo slab 0) (oneProc 1) s tr :=
    Run.of_exec (fun _ _ => of_decide_eq_true) hex
  exact ⟨s, hs.1, hs.2.1, hs.2.2, careful_runs_sound slab_lawful (oneProc_noFiles 1) hrun⟩

end Weenix.Files.VfsSubmit
