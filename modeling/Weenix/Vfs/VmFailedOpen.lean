import Weenix.Vfs.VmNameLimit
/-!
# Opens that fail (`open.c`)

`do_open` acquires a `file_t`, a slot and a reference to the vnode. Before each
error it gives back what it has, but for flags with both access modes: the
`file_t` stays without a slot.
-/

namespace Weenix.Vfs.VmSubmit

variable {σ : Type} {L : Limits} {F : Fs σ} {cwd root : Nat}

/-- The references to `u` that come with a result. -/
def gained (r : Except Errno Nat) (u : Nat) : Nat :=
  match r with
  | .ok v => oneRef v u
  | .error _ => 0

theorem State.held_refs {s s' : State σ} {x r : Except Errno Nat} (h : s.held x = (s', r)) (u : Nat) :
    s'.refs u = s.refs u + gained r u := by
  cases x with
  | ok v =>
    cases h
    exact vget_refs s v u
  | error e =>
    cases h
    rfl

/-- The reference to the vnode that is returned is the only new one. -/
theorem open_namev_refs {s s' : State σ} {path : Name} {creat : Bool} {r : Except Errno Nat}
    (h : open_namev L F cwd root s path creat = some (s', r)) (u : Nat) : s'.refs u = s.refs u + gained r u := by
  by_cases hp : path.length < L.MAXPATHLEN
  case neg => simp [open_namev, dir_namev, KASSERT, hp] at h
  cases creat with
  | false =>
    rw [open_namev_eq s hp, Option.some.injEq] at h
    exact State.held_refs h u
  | true =>
    rw [open_namev_creat s hp, Option.some.injEq] at h
    split at h
    · cases h
      rfl
    · split at h
      next v _ => exact State.held_refs (x := .ok v) h u
      · rw [State.held_refs h u]
      · cases h
        rfl

end Weenix.Vfs.VmSubmit

namespace Weenix.Files.VmSubmit
open Lib Vfs

variable {σ : Type} {N : Nat} {L : Limits} {F : Io σ} {O : FileCalls σ} {root p : Nat} {s s' : System σ} {filename : Name}
  {oflags : OFlags}

/-- A new file has no vnode, and one without a vnode puts none. -/
structure Unattached (O : FileCalls σ) : Prop where
  fget_new : ∀ s p s' f file, O.fget s p (-1) = (s', some f) → s'.files f = some file → file.f_vnode = none
  fput : ∀ s f file s', s.files f = some file → file.f_vnode = none → O.fput s f = some s' → s'.vfs = s.vfs

/-- The open files, their slots and the references to vnodes are as they were. -/
structure Unchanged (s s' : System σ) : Prop where
  procs : s'.procs = s.procs
  files : s'.files = s.files
  refs : s'.vfs.refs = s.vfs.refs

/-- Whenever `do_open` fails it has changed nothing. -/
def FailsClean (N : Nat) (L : Limits) (F : Io σ) (O : FileCalls σ) (root : Nat) (s : System σ) (p : Nat) (filename : Name)
    (oflags : OFlags) : Prop :=
  ∀ s' e, do_open N L F O root s p filename oflags = some (s', .error e) → Unchanged s s'

/-- The flags ask for both access modes, and there are a descriptor and a file for them. -/
structure BothModes (N : Nat) (O : FileCalls σ) (s : System σ) (p : Nat) (oflags : OFlags) : Prop where
  flags : oflags.rdwr = true ∧ oflags.wronly = true
  slot : (get_empty_fd N s p).isSome
  file : (O.fget s p (-1)).2.isSome

/-! ## Giving back -/

theorem setSlot_back {fd : Nat} {x : Option Nat} (h : s.slot p fd = none) : ((s.setSlot p fd x).setSlot p fd none).procs = s.procs := by
  have htwice : ((s.setSlot p fd x).setSlot p fd none).procs = (s.setSlot p fd none).procs := by
    cases hp : s.procs p with
    | none => simp [System.setSlot, System.setProc, hp]
    | some pr => simp [System.setSlot, System.setProc, hp, List.set_set]
  rw [htwice, System.setSlot_none h]

theorem setSlot_procs {t : System σ} {fd : Nat} {x : Option Nat} (h : t.procs = s.procs) :
    (t.setSlot p fd x).procs = (s.setSlot p fd x).procs := by
  simp only [System.setSlot, System.setProc, h]

/-- The file is new, has a slot and no vnode, and is put. -/
theorem fput_new (hO : Lawful O) (hU : Unattached O) {f : Nat} {file : File} {t : System σ} (hf : s.files f = none)
    (h1 : file.f_refcount = 1) (hv : file.f_vnode = none) (ht : t.files = Function.update s.files f (some file))
    (hput : O.fput t f = some s') : s'.files = s.files ∧ s'.procs = t.procs ∧ s'.vfs = t.vfs := by
  have htf : t.files f = some file := by rw [ht, Function.update_self]
  obtain ⟨vfs, hput', -⟩ := hO.fput t f file htf (by omega)
  have hvfs := hU.fput t f file s' htf hv hput
  rw [hput] at hput'
  cases hput'
  refine ⟨?_, rfl, hvfs⟩
  show Function.update t.files f file.put = s.files
  rw [ht, Function.update_idem, File.put, if_pos h1, ← hf, Function.update_eq_self]

/-- The vnode has got a reference, and is put. -/
theorem refs_back {vfs vfs' vfs'' : State σ} {vn : Nat} (hget : ∀ u, vfs'.refs u = vfs.refs u + oneRef vn u)
    (hput : vfs'.vput vn = some vfs'') : vfs''.refs = vfs.refs := by
  funext u
  have := vput_refs hput u
  rw [hget u] at this
  omega

theorem do_open_fails (hO : Lawful O) (hU : Unattached O) {e : Errno} (h : do_open N L F O root s p filename oflags = some (s', .error e)) :
    Unchanged s s' ∨ BothModes N O s p oflags := by
  simp only [do_open] at h
  split at h
  next =>
    cases h
    exact .inl ⟨rfl, rfl, rfl⟩
  next fd hfd =>
    have hempty : s.slot p fd = none := (get_empty_fd_some hfd).2
    rcases hO.fget_new s p with hnew | ⟨f, file, hf, hcount, hnew⟩
    · rw [hnew] at h
      cases h
      exact .inl ⟨rfl, rfl, rfl⟩
    have hvn : file.f_vnode = none := hU.fget_new s p _ f file hnew (Function.update_self ..)
    rw [hnew] at h
    dsimp only at h
    split at h
    next hboth => exact .inr ⟨by simpa using hboth, by rw [hfd]; rfl, by rw [hnew]; rfl⟩
    next =>
      refine .inl ?_
      simp only [bind, Option.bind_eq_some_iff, Prod.exists] at h
      obtain ⟨curproc, -, vfs, r, hopen, h⟩ := h
      have hrefs := Vfs.VmSubmit.open_namev_refs hopen
      -- the new file has got its mode, and each error puts it
      have hback {t t' : System σ} (hput : O.fput t f = some t') (ht : t.files = (((s.setFile f (some file)).setSlot p fd
          (some f)).modify f fun file => { file with f_mode := openMode oflags }).files) :
          t'.files = s.files ∧ t'.procs = t.procs ∧ t'.vfs = t.vfs := by
        have hone : ({ file with f_mode := openMode oflags } : File).f_refcount = 1 := hcount
        refine fput_new hO hU hf hone hvn ?_ hput
        rw [ht]
        simp only [System.modify, System.setFile, System.setSlot, System.setProc, Function.update_self, Option.map_some,
          Function.update_idem]
      split at h
      next e =>
        obtain ⟨t, hput, h⟩ := Option.bind_eq_some_iff.1 h
        cases h
        obtain ⟨hfiles, hprocs, hvfs⟩ := hback hput rfl
        refine ⟨?_, hfiles, ?_⟩
        · rw [setSlot_procs hprocs]
          exact setSlot_back hempty
        · show t.vfs.refs = s.vfs.refs
          rw [hvfs]
          exact funext hrefs
      next vn =>
        -- on both errors the slot is emptied and the vnode is put first
        have hclear {vfs' : State σ} {t : System σ} (hv : vfs.vput vn = some vfs')
            (hput : O.fput { ({ ((s.setFile f (some file)).setSlot p fd (some f)).modify f
              (fun file => { file with f_mode := openMode oflags }) with vfs := vfs } : System σ).setSlot p fd none with
                vfs := vfs' } f = some t) : Unchanged s t := by
          obtain ⟨hfiles, hprocs, hvfs⟩ := hback hput rfl
          refine ⟨?_, hfiles, ?_⟩
          · rw [hprocs]
            exact setSlot_back hempty
          · rw [hvfs]
            exact refs_back hrefs hv
        split at h
        next =>
          simp only [Option.bind_eq_some_iff] at h
          obtain ⟨vfs', hv, t, hput, h⟩ := h
          cases h
          exact hclear hv hput
        next =>
          split at h
          next =>
            simp only [Option.bind_eq_some_iff] at h
            obtain ⟨vfs', hv, t, hput, h⟩ := h
            cases h
            exact hclear hv hput
          next => cases h

/-! ## Both access modes -/

/-- The new file is left. -/
theorem both_modes_leak (L : Limits) (F : Io σ) (root : Nat) (filename : Name) (hO : Lawful O)
    (h : BothModes N O s p oflags) : ∃ f file, s.files f = none ∧
      do_open N L F O root s p filename oflags = some (s.setFile f (some file), .error .EINVAL) := by
  obtain ⟨⟨hr, hw⟩, hslot, hfile⟩ := h
  obtain ⟨fd, hfd⟩ := Option.isSome_iff_exists.1 hslot
  rcases hO.fget_new s p with hnew | ⟨f, file, hf, -, hnew⟩
  · rw [hnew] at hfile
    cases hfile
  · refine ⟨f, file, hf, ?_⟩
    simp only [do_open, hfd, hnew, hr, hw, Bool.and_self, if_true]

/-- A failed open changes nothing exactly when it does not come to flags with both access modes. -/
theorem failed_open_clean_iff (hO : Lawful O) (hU : Unattached O) :
    FailsClean N L F O root s p filename oflags ↔ ¬ BothModes N O s p oflags := by
  constructor
  · intro hclean hboth
    obtain ⟨f, file, hf, hrun⟩ := both_modes_leak L F root filename hO hboth
    have := congrFun (hclean _ _ hrun).files f
    rw [hf] at this
    exact absurd this (by simp [System.setFile])
  · intro hboth s' e h
    exact (do_open_fails hO hU h).resolve_right hboth

theorem slab_unattached : Unattached (slab : FileCalls σ) := by
  refine ⟨fun s p s' f file h hf => ?_, fun s f file s' hf hv h => ?_⟩
  · simp only [slab, if_true] at h
    split at h
    · cases h
    · cases h
      have hnew := (Function.update_self f _ s.files).symm.trans hf
      cases hnew
      rfl
  · simp only [slab, hf, bind, Option.bind_some, Option.bind_eq_some_iff, Option.some.injEq] at h
    obtain ⟨-, -, rfl⟩ := h
    show file.release s.vfs = s.vfs
    simp [File.release, hv]

/-- `/d/a` is opened with `O_RDWR | O_WRONLY`: file 0 is live, and no slot has it. -/
theorem both_modes_leaks : (∃ s', do_open 4 stock flatIo slab 0 (oneProc 1) 0 "/d/a".toList { rdwr := true, wronly := true } =
      some (s', .error .EINVAL) ∧ (s'.files 0).map File.f_refcount = some 1 ∧ s'.slot 0 0 = none) ∧
    ¬ FailsClean 4 stock flatIo slab 0 (oneProc 1) 0 "/d/a".toList { rdwr := true, wronly := true } := by
  have hex : (do_open 4 stock flatIo slab 0 (oneProc 1) 0 "/d/a".toList { rdwr := true, wronly := true }).map
      (fun x => (x.2, (x.1.files 0).map File.f_refcount, x.1.slot 0 0)) = some (.error .EINVAL, some 1, none) := by
    decide +kernel
  obtain ⟨⟨s', r⟩, hrun, hr⟩ := Option.map_eq_some_iff.1 hex
  simp only [Prod.mk.injEq] at hr
  obtain ⟨rfl, hcount, hslot⟩ := hr
  refine ⟨⟨s', hrun, hcount, hslot⟩, fun hclean => ?_⟩
  rw [(hclean s' _ hrun).files] at hcount
  cases hcount

/-- `/d/b` is not there. -/
theorem missing_open_clean : FailsClean 4 stock flatIo slab 0 (oneProc 1) 0 "/d/b".toList { rdwr := true } :=
  (failed_open_clean_iff slab_lawful slab_unattached).2 fun h => absurd h.flags.2 (by decide)

end Weenix.Files.VmSubmit
