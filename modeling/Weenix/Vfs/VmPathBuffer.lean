import Weenix.Vfs.VmOpenFiles
import Weenix.Vfs.VmPaths
/-!
# The path buffer of `dir_namev` (`namev.c`)

`dir_namev` copies its path into `localPathArr`, which has `MAXPATHLEN` bytes, and
compares no length. `do_link` and `do_stat` refuse a longer path, and pass on one
of exactly `MAXPATHLEN` characters; the other calls refuse none.
-/

namespace Weenix.Vfs.VmSubmit

variable {σ : Type} {L : Limits} {F : VnodeOps σ} {cwd root : Nat} {s : State σ} {path : Name}

theorem dir_namev_long {F : Fs σ} (h : L.MAXPATHLEN ≤ path.length) : dir_namev L F cwd root s path = none := by
  have hp : ¬ path.length < L.MAXPATHLEN := by omega
  simp [dir_namev, KASSERT, hp]

theorem open_namev_long_path {F : Fs σ} {creat : Bool} (h : L.MAXPATHLEN ≤ path.length) :
    open_namev L F cwd root s path creat = none := by
  simp only [open_namev, dir_namev_long h, bind, Option.bind_none]

theorem withDir_long_path {α : Type} {k : State σ → Nat → Name → Option (State σ × Except Errno α)}
    (h : L.MAXPATHLEN ≤ path.length) : withDir L F cwd root s path k = none := by
  simp only [withDir, dir_namev_long h, bind, Option.bind_none]

/-- A path of `MAXPATHLEN` characters is passed on by `do_stat`. -/
theorem do_stat_long {buf : Bool} (h : L.MAXPATHLEN ≤ path.length) : (do_stat L F cwd root s path buf).map Prod.snd =
    if L.MAXPATHLEN < path.length then some (.error .ENAMETOOLONG) else if buf then none else some (.error .EFAULT) := by
  unfold do_stat
  split
  · rfl
  · cases buf with
    | false => rfl
    | true => simp only [Bool.not_true, Bool.false_eq_true, if_false, if_true, open_namev_long_path h, bind, Option.bind_none,
        Option.map_none]

/-- What `do_link` does with a path of `MAXPATHLEN` characters or more; the result of `do_rename` is the same. -/
def linkLong (L : Limits) (T : Tree) (root cwd : Nat) («from» «to» : Name) : Option (Except Errno Unit) :=
  if L.MAXPATHLEN < «to».length ∨ L.MAXPATHLEN < «from».length then some (.error .ENAMETOOLONG)
  else if «from».length = L.MAXPATHLEN then none
  else
    match named L root cwd T «from» with
    | .error e => some (.error e)
    | .ok f => if T.isDir f then some (.error .EISDIR) else none

section
variable {«from» «to» : Name}

theorem do_link_long_path (h : L.MAXPATHLEN ≤ «from».length ∨ L.MAXPATHLEN ≤ «to».length) :
    (do_link L F cwd root s «from» «to»).map Prod.snd = linkLong L (F.tree s.fs) root cwd «from» «to» := by
  unfold do_link linkLong
  split
  · rfl
  next hle =>
    rw [not_or] at hle
    split
    next he => simp only [open_namev_long_path he.ge, bind, Option.bind_none, Option.map_none]
    next hne =>
      have hfrom : «from».length < L.MAXPATHLEN := by omega
      have hto : L.MAXPATHLEN ≤ «to».length := by omega
      simp only [open_namev_eq s hfrom, State.held, bind, Option.bind_some]
      cases named L root cwd (F.tree s.fs) «from» with
      | error e => rfl
      | ok f =>
        dsimp only
        rw [State.vget_fs]
        split
        · simp
        · simp only [dir_namev_long hto, Option.bind_none, Option.map_none]

theorem linkLong_refuses {T : Tree} : linkLong L T root cwd «from» «to» = some (.error .ENAMETOOLONG) ↔
    L.MAXPATHLEN < «to».length ∨ L.MAXPATHLEN < «from».length ∨
      («from».length < L.MAXPATHLEN ∧ named L root cwd T «from» = .error .ENAMETOOLONG) := by
  unfold linkLong
  split
  next h => exact iff_of_true rfl (by tauto)
  next h =>
    rw [not_or] at h
    rw [or_iff_right h.1, or_iff_right h.2]
    split
    next he => simp [he]
    next hne =>
      have hlt : «from».length < L.MAXPATHLEN := by omega
      rw [and_iff_right hlt]
      cases named L root cwd T «from» with
      | error e => simp
      | ok f =>
        dsimp only
        split <;> simp

theorem linkLong_none {T : Tree} : linkLong L T root cwd «from» «to» = none ↔
    «to».length ≤ L.MAXPATHLEN ∧ «from».length ≤ L.MAXPATHLEN ∧
      («from».length = L.MAXPATHLEN ∨ ∃ f, named L root cwd T «from» = .ok f ∧ T.isDir f = false) := by
  unfold linkLong
  split
  next h => exact iff_of_false (by simp) (by omega)
  next h =>
    rw [not_or, Nat.not_lt, Nat.not_lt] at h
    rw [and_iff_right h.1, and_iff_right h.2]
    split
    next he => simp [he]
    next hne =>
      rw [or_iff_right hne]
      cases named L root cwd T «from» with
      | error e => simp
      | ok f => simp

theorem linkLong_ne_ok {T : Tree} : linkLong L T root cwd «from» «to» ≠ some (.ok ()) := by
  unfold linkLong
  split
  · simp
  split
  · simp
  split
  · simp
  · split <;> simp

theorem do_rename_long_path (h : L.MAXPATHLEN ≤ «from».length ∨ L.MAXPATHLEN ≤ «to».length) :
    (do_rename L F cwd root s «from» «to»).map Prod.snd = linkLong L (F.tree s.fs) root cwd «from» «to» := by
  have hlink := @do_link_long_path σ L F cwd root s «from» «to» h
  rw [← hlink]
  unfold do_rename
  cases hrun : do_link L F cwd root s «from» «to» with
  | none => rfl
  | some x =>
    obtain ⟨s', r⟩ := x
    cases r with
    | error e => rfl
    | ok u =>
      rw [hrun] at hlink
      exact absurd hlink.symm linkLong_ne_ok

end

/-! ## Calls on paths -/

def PathCall.paths : PathCall → List Name
  | .do_mknod path _ _ | .do_mkdir path | .do_rmdir path | .do_unlink path | .do_chdir path | .do_stat path _ => [path]
  | .do_link old new | .do_rename old new => [old, new]

/-- What a call does with a path of `MAXPATHLEN` characters or more. -/
def PathCall.long (L : Limits) (T : Tree) (root cwd : Nat) : PathCall → Option (Except Errno Unit)
  | .do_mknod _ mode _ => if mode.fmt ≠ .blk ∧ mode.fmt ≠ .chr then some (.error .EINVAL) else none
  | .do_mkdir _ | .do_rmdir _ | .do_unlink _ | .do_chdir _ => none
  | .do_link old new | .do_rename old new => linkLong L T root cwd old new
  | .do_stat path buf =>
    if L.MAXPATHLEN < path.length then some (.error .ENAMETOOLONG) else if buf then none else some (.error .EFAULT)

theorem PathCall.run_long {c : PathCall} (h : ∃ path ∈ c.paths, L.MAXPATHLEN ≤ path.length) :
    (c.run L F root cwd s).map (fun x => x.2.1) = c.long L (F.tree s.fs) root cwd := by
  cases c with
  | do_link old new =>
    rw [PathCall.run, Option.map_map]
    exact do_link_long_path (by simpa [PathCall.paths] using h)
  | do_rename old new =>
    rw [PathCall.run, Option.map_map]
    exact do_rename_long_path (by simpa [PathCall.paths] using h)
  | do_mknod path mode devid =>
    have hp : L.MAXPATHLEN ≤ path.length := by simpa [PathCall.paths] using h
    simp only [PathCall.run, PathCall.long, VmSubmit.do_mknod, withDir_long_path hp]
    split <;> rfl
  | do_stat path buf =>
    have hp : L.MAXPATHLEN ≤ path.length := by simpa [PathCall.paths] using h
    rw [PathCall.run, Option.map_map]
    exact do_stat_long hp
  | do_mkdir path | do_rmdir path | do_unlink path | do_chdir path =>
    have hp : L.MAXPATHLEN ≤ path.length := by simpa [PathCall.paths] using h
    simp only [PathCall.run, PathCall.long, VmSubmit.do_mkdir, VmSubmit.do_rmdir, VmSubmit.do_unlink, VmSubmit.do_chdir,
      withDir_long_path hp, Option.map_none]

end Weenix.Vfs.VmSubmit

namespace Weenix.Files.VmSubmit
open Vfs Vfs.VmSubmit

variable {σ : Type}

/-- A call to which a user gives paths. -/
inductive UserCall
  | do_open (filename : Name) (oflags : OFlags)
  | onPaths (c : VmSubmit.PathCall)

namespace UserCall

def paths : UserCall → List Name
  | .do_open filename _ => [filename]
  | .onPaths c => c.paths

section
variable (N : Nat) (L : Limits) (F : Io σ) (O : FileCalls σ) (root : Nat)

/-- What the call returns to the process `p`. -/
def result (s : System σ) (p : Nat) : UserCall → Option (Except Errno Unit)
  | .do_open filename oflags => (VmSubmit.do_open N L F O root s p filename oflags).map fun x => x.2.map fun _ => ()
  | .onPaths c => do
    let curproc ← s.procs p
    (c.run L F.toVnodeOps root curproc.p_cwd s.vfs).map fun x => x.2.1

/-- Every path that does not fit into the buffer is refused before it is copied. -/
def Refuses (s : System σ) (p : Nat) (c : UserCall) : Prop :=
  ∀ path ∈ c.paths, L.MAXPATHLEN ≤ path.length → c.result N L F O root s p = some (.error .ENAMETOOLONG)

/-- No path is too long, but for one that the call refuses. -/
def Bounded (T : Tree) (cwd : Nat) : UserCall → Prop
  | .onPaths (.do_link old new) | .onPaths (.do_rename old new) =>
    L.MAXPATHLEN < new.length ∨ L.MAXPATHLEN < old.length ∨
      (old.length < L.MAXPATHLEN ∧ (new.length < L.MAXPATHLEN ∨ named L root cwd T old = .error .ENAMETOOLONG))
  | .onPaths (.do_stat path _) => path.length ≠ L.MAXPATHLEN
  | c => ∀ path ∈ c.paths, path.length < L.MAXPATHLEN

/-- A path that is too long comes to `dir_namev`. -/
def Overflows (s : System σ) (p : Nat) (T : Tree) (cwd : Nat) : UserCall → Prop
  | .do_open _ oflags =>
    (get_empty_fd N s p).isSome ∧ (O.fget s p (-1)).2.isSome ∧ (oflags.rdwr && oflags.wronly) = false
  | .onPaths (.do_mknod _ mode _) => mode.fmt = .blk ∨ mode.fmt = .chr
  | .onPaths (.do_link old new) | .onPaths (.do_rename old new) =>
    new.length ≤ L.MAXPATHLEN ∧ old.length ≤ L.MAXPATHLEN ∧
      (old.length = L.MAXPATHLEN ∨ ∃ f, named L root cwd T old = .ok f ∧ T.isDir f = false)
  | .onPaths (.do_stat path buf) => path.length ≤ L.MAXPATHLEN ∧ buf = true
  | _ => True

end

end UserCall

variable {N : Nat} {L : Limits} {F : Io σ} {O : FileCalls σ} {root p : Nat} {s : System σ} {curproc : Fproc} {c : UserCall}

theorem do_open_long {filename : Name} {oflags : OFlags} (h : L.MAXPATHLEN ≤ filename.length) :
    (∀ s', do_open N L F O root s p filename oflags ≠ some (s', .error .ENAMETOOLONG)) ∧
      (do_open N L F O root s p filename oflags = none ↔
        (get_empty_fd N s p).isSome ∧ (O.fget s p (-1)).2.isSome ∧ (oflags.rdwr && oflags.wronly) = false) := by
  unfold do_open
  split
  next hfd => simp [hfd]
  next fd hfd =>
    split
    next s₁ hnew => simp [hfd, hnew]
    next s₁ newFile hnew =>
      split
      next hboth => simp [hfd, hnew, hboth]
      next hboth =>
        simp [hfd, hnew, hboth, open_namev_long_path h]

namespace UserCall

theorem result_long {c : VmSubmit.PathCall} (hp : s.procs p = some curproc) (h : ∃ path ∈ c.paths, L.MAXPATHLEN ≤ path.length) :
    (onPaths c).result N L F O root s p = c.long L (F.tree s.vfs.fs) root curproc.p_cwd := by
  simp only [result, hp, bind, Option.bind_some]
  exact VmSubmit.PathCall.run_long h

/-- A call that was given a path that is too long overflows the buffer when it comes to it. -/
theorem overflows_iff (hp : s.procs p = some curproc) (h : ∃ path ∈ c.paths, L.MAXPATHLEN ≤ path.length) :
    c.result N L F O root s p = none ↔ c.Overflows N L O root s p (F.tree s.vfs.fs) curproc.p_cwd := by
  cases c with
  | do_open filename oflags =>
    rw [result, Option.map_eq_none_iff]
    exact (do_open_long (by simpa [paths] using h)).2
  | onPaths c =>
    rw [result_long hp h]
    cases c with
    | do_link old new | do_rename old new => exact linkLong_none
    | do_mknod path mode devid => simp [VmSubmit.PathCall.long, Overflows]; tauto
    | do_stat path buf =>
      simp only [VmSubmit.PathCall.long, Overflows]
      split
      next hlt => simp; omega
      next hle => simp [Nat.not_lt.1 hle]
    | do_mkdir path | do_rmdir path | do_unlink path | do_chdir path => simp [VmSubmit.PathCall.long, Overflows]

theorem bounded_of_short {T : Tree} {cwd : Nat} (h : ∀ path ∈ c.paths, path.length < L.MAXPATHLEN) : c.Bounded L root T cwd := by
  cases c with
  | do_open filename oflags => exact h
  | onPaths c =>
    cases c with
    | do_link old new | do_rename old new =>
      have hold : old.length < L.MAXPATHLEN := h old (List.mem_cons_self ..)
      have hnew : new.length < L.MAXPATHLEN := h new (List.mem_cons_of_mem _ (List.mem_singleton_self new))
      exact .inr (.inr ⟨hold, .inl hnew⟩)
    | do_stat path buf => exact (h path (List.mem_singleton_self path)).ne
    | do_mknod path mode devid => exact h
    | do_mkdir path | do_rmdir path | do_unlink path | do_chdir path => exact h

/-- Of calls with a path that is too long. -/
theorem refused_iff {T : Tree} {cwd : Nat} {c : VmSubmit.PathCall} (h : ∃ path ∈ c.paths, L.MAXPATHLEN ≤ path.length) :
    c.long L T root cwd = some (.error .ENAMETOOLONG) ↔ (onPaths c).Bounded L root T cwd := by
  have hshort : ¬ ∀ path ∈ c.paths, path.length < L.MAXPATHLEN := by
    obtain ⟨path, hpath, hlong⟩ := h
    exact fun hall => absurd (hall path hpath) (by omega)
  cases c with
  | do_link old new | do_rename old new =>
    simp only [VmSubmit.PathCall.long, linkLong_refuses, Bounded]
    have hlen : L.MAXPATHLEN ≤ old.length ∨ L.MAXPATHLEN ≤ new.length := by simpa [VmSubmit.PathCall.paths] using h
    constructor
    · rintro (h | h | ⟨h, hn⟩)
      · exact .inl h
      · exact .inr (.inl h)
      · exact .inr (.inr ⟨h, .inr hn⟩)
    · rintro (h | h | ⟨h, hn | hn⟩)
      · exact .inl h
      · exact .inr (.inl h)
      · omega
      · exact .inr (.inr ⟨h, hn⟩)
  | do_stat path buf =>
    have hlen : L.MAXPATHLEN ≤ path.length := by simpa [VmSubmit.PathCall.paths] using h
    simp only [VmSubmit.PathCall.long, Bounded]
    split
    next hlt => exact iff_of_true rfl hlt.ne'
    next hle => exact iff_of_false (by cases buf <;> simp) (by omega)
  | do_mknod path mode devid =>
    refine iff_of_false ?_ hshort
    simp only [VmSubmit.PathCall.long]
    split <;> simp
  | do_mkdir path | do_rmdir path | do_unlink path | do_chdir path => exact iff_of_false (by simp [VmSubmit.PathCall.long]) hshort

/-- `do_mkdir` copies a path of 1024 characters, and `do_stat` too. -/
theorem mkdir_overflows :
    (∀ c, c = VmSubmit.PathCall.do_mkdir (List.replicate 1024 'a') ∨ c = .do_stat (List.replicate 1024 'a') true →
      (onPaths c).result 4 stock flatIo slab 0 (oneProc 1) 0 = none) ∧
    ¬ (onPaths (.do_mkdir (List.replicate 1024 'a'))).Refuses 4 stock flatIo slab 0 (oneProc 1) 0 := by
  have hlen : stock.MAXPATHLEN ≤ (List.replicate 1024 'a').length := by rw [List.length_replicate]; rfl
  have hnone {c : VmSubmit.PathCall} (hc : c = .do_mkdir (List.replicate 1024 'a') ∨ c = .do_stat (List.replicate 1024 'a') true) :
      (onPaths c).result 4 stock flatIo slab 0 (oneProc 1) 0 = none := by
    have hpaths : ∃ path ∈ c.paths, stock.MAXPATHLEN ≤ path.length := by
      rcases hc with rfl | rfl
      · exact ⟨_, List.mem_singleton_self _, hlen⟩
      · exact ⟨_, List.mem_singleton_self _, hlen⟩
    refine (overflows_iff (s := oneProc 1) (p := 0) (c := onPaths c) rfl hpaths).2 ?_
    rcases hc with rfl | rfl
    · trivial
    · exact ⟨by rw [List.length_replicate]; rfl, rfl⟩
  refine ⟨fun c hc => hnone hc, fun h => ?_⟩
  have := h _ (List.mem_singleton_self _) hlen
  rw [hnone (.inl rfl)] at this
  cases this

/-- A call refuses exactly when its paths are bounded: `do_open`, `do_mkdir`, `do_rmdir`, `do_unlink` and `do_chdir` refuse
none, `do_stat` and `do_link` all but those of `MAXPATHLEN` characters. -/
theorem refuses_iff (hp : s.procs p = some curproc) :
    c.Refuses N L F O root s p ↔ c.Bounded L root (F.tree s.vfs.fs) curproc.p_cwd := by
  by_cases hlong : ∃ path ∈ c.paths, L.MAXPATHLEN ≤ path.length
  case neg =>
    have hshort : ∀ path ∈ c.paths, path.length < L.MAXPATHLEN := fun path hpath =>
      Nat.lt_of_not_le fun hle => hlong ⟨path, hpath, hle⟩
    exact iff_of_true (fun path hpath hle => absurd (hshort path hpath) (by omega)) (bounded_of_short hshort)
  have hone : c.Refuses N L F O root s p ↔ c.result N L F O root s p = some (.error .ENAMETOOLONG) := by
    obtain ⟨path, hpath, hle⟩ := hlong
    exact ⟨fun h => h path hpath hle, fun h _ _ _ => h⟩
  rw [hone]
  cases c with
  | onPaths c =>
    rw [result_long hp hlong]
    exact refused_iff hlong
  | do_open filename oflags =>
    have hle : L.MAXPATHLEN ≤ filename.length := by simpa [paths] using hlong
    refine iff_of_false (fun h => ?_) fun h => absurd (h filename (List.mem_singleton_self filename)) (by omega)
    simp only [result, Option.map_eq_some_iff] at h
    obtain ⟨⟨s', r⟩, hrun, hr⟩ := h
    cases r with
    | ok n => cases hr
    | error e =>
      cases hr
      exact (do_open_long hle).1 s' hrun

/-- `do_stat` refuses a path of 1025 characters. -/
theorem stat_refuses :
    (onPaths (.do_stat (List.replicate 1025 'a') true)).Refuses 4 stock flatIo slab 0 (oneProc 1) 0 :=
  (refuses_iff (s := oneProc 1) rfl).2 (by rw [Bounded, List.length_replicate]; decide)

end UserCall

end Weenix.Files.VmSubmit
