import Weenix.Vfs.Rename
/-!
# Path calls of vfs-submit (`vfs_syscall.c`)

Most calls put the directory before they use it, and then put what the lookup
found. `do_link` puts the file twice, and forgets it when it is a directory.
-/

namespace Weenix.Vfs

variable {σ : Type}

section
variable (L : Limits) (F : VnodeOps σ) (cwd root : Nat)

def do_mknod (s : State σ) (path : Name) (mode : Mode) (devid : Nat) : Option (State σ × Except Errno Unit) :=
  if mode ≠ ⟨.chr, 0⟩ ∧ mode ≠ ⟨.blk, 0⟩ then some (s, .error .EINVAL)
  else if path.length > L.MAXPATHLEN then some (s, .error .ENAMETOOLONG)
  else if path.length = 0 then some (s, .error .EINVAL)
  else do
    match ← dir_namev L F.toFs cwd root s path with
    | (s, .error e) => some (s, .error e)
    | (s, .ok (dir, name)) => do
      let s ← s.vput dir
      match lookup L F.toFs s dir name with
      | (s, .ok v) => do
        let s ← s.vput v
        some (s, .error .EEXIST)
      | (s, .error .ENOENT) =>
        let (fs, r) := F.mknod s.fs dir name mode devid
        some ({ s with fs := fs }, r)
      | (s, .error e) => some (s, .error e)

def do_mkdir (s : State σ) (path : Name) : Option (State σ × Except Errno Unit) :=
  if path.length > L.MAXPATHLEN then some (s, .error .ENAMETOOLONG)
  else if path.length = 0 then some (s, .error .EINVAL)
  else do
    match ← dir_namev L F.toFs cwd root s path with
    | (s, .error e) => some (s, .error e)
    | (s, .ok (dir, name)) => do
      let s ← s.vput dir
      match lookup L F.toFs s dir name with
      | (s, .error .ENOTDIR) => some (s, .error .ENOTDIR)
      | (s, .ok v) => do
        let s ← s.vput v
        some (s, .error .EEXIST)
      | (s, .error .ENOENT) =>
        let (fs, r) := F.mkdir s.fs dir name
        some ({ s with fs := fs }, r)
      | (s, .error e) => some (s, .error e)

/-- `name_match` is a macro that is not part of the sources. -/
def do_rmdir (name_match : Name → Name → Bool) (s : State σ) (path : Name) : Option (State σ × Except Errno Unit) :=
  if path.length > L.MAXPATHLEN then some (s, .error .ENAMETOOLONG)
  else if path.length = 0 then some (s, .error .EINVAL)
  else do
    match ← dir_namev L F.toFs cwd root s path with
    | (s, .error e) => some (s, .error e)
    | (s, .ok (dir, name)) =>
      if name_match ['.'] name then do
        let s ← s.vput dir
        some (s, .error .EINVAL)
      else if name_match ['.', '.'] name then do
        let s ← s.vput dir
        some (s, .error .ENOTEMPTY)
      else do
        let (fs, r) := F.rmdir s.fs dir name
        let s ← State.vput { s with fs := fs } dir
        some (s, r)

/-- Every error of `lookup` is returned as `ENOENT`. -/
def do_stat (s : State σ) (path : Name) : Option (State σ × Except Errno Unit) :=
  if path.length > L.MAXPATHLEN then some (s, .error .ENAMETOOLONG)
  else if path.length = 0 then some (s, .error .EINVAL)
  else do
    match ← dir_namev L F.toFs cwd root s path with
    | (s, .error e) => some (s, .error e)
    | (s, .ok (dir, name)) => do
      let s ← s.vput dir
      match lookup L F.toFs s dir name with
      | (s, .error _) => some (s, .error .ENOENT)
      | (s, .ok v) => do
        -- the assertion that there is a `stat`
        let (fs, r) ← F.stat s.fs v
        let s ← State.vput { s with fs := fs } v
        some (s, r)

end

/-- The calls whose references are compared; `do_rename` and `do_chdir` are not among them. -/
inductive PathCall
  | do_mknod (path : Name) (mode : Mode) (devid : Nat)
  | do_mkdir (path : Name)
  | do_rmdir (path : Name)
  | do_unlink (path : Name)
  | do_link («from» «to» : Name)
  | do_stat (path : Name)
  deriving DecidableEq

def PathCall.run (L : Limits) (F : VnodeOps σ) (name_match : Name → Name → Bool) (cwd root : Nat) (s : State σ) :
    PathCall → Option (State σ × Except Errno Unit)
  | .do_mknod path mode devid => Vfs.do_mknod L F cwd root s path mode devid
  | .do_mkdir path => Vfs.do_mkdir L F cwd root s path
  | .do_rmdir path => Vfs.do_rmdir L F cwd root name_match s path
  | .do_unlink path => Vfs.do_unlink L F.toFs cwd root s path
  | .do_link «from» «to» => Vfs.do_link L F.toFs cwd root s «from» «to»
  | .do_stat path => Vfs.do_stat L F cwd root s path

variable {L : Limits} {F : VnodeOps σ} {name_match : Name → Name → Bool} {cwd root : Nat} {s : State σ}

theorem do_mknod_kept {path : Name} {mode : Mode} {devid : Nat} : Kept s (do_mknod L F cwd root s path mode devid) := by
  unfold do_mknod
  iterate 3
    split
    · simp [Kept]
  simp only [dir_namev_eq, bind, Option.bind_some]
  cases (F.tree s.fs).parent L cwd root path with
  | error e => simp [Kept]
  | ok dn =>
    simp only [State.vget_vput, Option.bind_some, lookup, State.held]
    cases (F.tree s.fs).find L dn.1 dn.2 with
    | ok v => simp [Kept]
    | error e => cases e <;> simp [Kept]

theorem do_mkdir_kept {path : Name} : Kept s (do_mkdir L F cwd root s path) := by
  unfold do_mkdir
  iterate 2
    split
    · simp [Kept]
  simp only [dir_namev_eq, bind, Option.bind_some]
  cases (F.tree s.fs).parent L cwd root path with
  | error e => simp [Kept]
  | ok dn =>
    simp only [State.vget_vput, Option.bind_some, lookup, State.held]
    cases (F.tree s.fs).find L dn.1 dn.2 with
    | ok v => simp [Kept]
    | error e => cases e <;> simp [Kept]

theorem do_rmdir_kept {path : Name} : Kept s (do_rmdir L F cwd root name_match s path) := by
  unfold do_rmdir
  iterate 2
    split
    · simp [Kept]
  simp only [dir_namev_eq, bind, Option.bind_some]
  cases (F.tree s.fs).parent L cwd root path with
  | error e => simp [Kept]
  | ok dn =>
    dsimp only
    iterate 2
      split
      · simp [Kept]
    simp [Kept, vput_with_fs]

theorem do_unlink_kept {path : Name} : Kept s (do_unlink L F.toFs cwd root s path) := by
  unfold do_unlink
  iterate 2
    split
    · simp [Kept]
  simp only [dir_namev_eq, bind, Option.bind_some]
  cases (F.tree s.fs).parent L cwd root path with
  | error e => simp [Kept]
  | ok dn =>
    simp only [lookup, State.held, State.vget_fs]
    cases (F.tree s.fs).find L dn.1 dn.2 with
    | error e => simp [Kept]
    | ok v =>
      dsimp only
      split
      · rw [State.vget_comm]
        simp [Kept]
      · rw [vput_with_fs]
        simp [Kept, vput_with_fs]

/-- Every vnode has a `stat` operation. -/
def HasStat (F : VnodeOps σ) : Prop := ∀ fs v, (F.stat fs v).isSome

theorem do_stat_kept (hF : HasStat F) {path : Name} : Kept s (do_stat L F cwd root s path) := by
  unfold do_stat
  iterate 2
    split
    · simp [Kept]
  simp only [dir_namev_eq, bind, Option.bind_some]
  cases (F.tree s.fs).parent L cwd root path with
  | error e => simp [Kept]
  | ok dn =>
    simp only [State.vget_vput, Option.bind_some, lookup, State.held]
    cases (F.tree s.fs).find L dn.1 dn.2 with
    | error e => simp [Kept]
    | ok v =>
      obtain ⟨x, hx⟩ := Option.isSome_iff_exists.1 (hF s.fs v)
      simp [Kept, hx, vput_with_fs]

/-! ## Links -/

/-- `do_link` gets as far as the file and returns at once, because there is no
directory for the new name. Otherwise `to` is refused, or `from` names nothing. -/
def LinkOk (L : Limits) (T : Tree) (cwd root : Nat) («from» «to» : Name) : Prop :=
  «to».length > L.MAXPATHLEN ∨ «to».length = 0 ∨
    ∀ f, T.named L cwd root «from» = .ok f → T.isDir f = false ∧ ∀ dir name, T.parent L cwd root «to» ≠ .ok (dir, name)

/-- When there is a directory for the new name the file is put twice, and was
referenced once. -/
theorem do_link_drops {«from» «to» name : Name} {f dir : Nat} {x : State σ × Except Errno Unit}
    (hf : (F.tree s.fs).named L cwd root «from» = .ok f) (hdir : (F.tree s.fs).isDir f = false)
    (hto : (F.tree s.fs).parent L cwd root «to» = .ok (dir, name)) (h : do_link L F.toFs cwd root s «from» «to» = some x) :
    x.1.refs f + 1 = s.refs f := by
  have hlf : ¬ «from».length > L.MAXPATHLEN ∧ «from».length ≠ 0 := by
    obtain ⟨d, n, hp, -⟩ := names_parent hf
    exact parent_length hp
  have hlt := parent_length hto
  simp only [do_link, if_neg hlf.1, if_neg hlf.2, if_neg hlt.1, if_neg hlt.2, open_namev_eq, hf, State.held, bind,
    Option.bind_some, State.vget_fs, hdir, Bool.false_eq_true, if_false, dir_namev_eq, hto, lookup] at h
  rw [State.vget_comm, State.vget_vput, Option.bind_some, State.vget_vput, Option.bind_some] at h
  cases hfind : (F.tree s.fs).find L dir name with
  | ok v =>
    simp only [hfind, Option.bind_eq_some_iff, Option.some.injEq] at h
    obtain ⟨s₁, h1, s₂, h2, rfl⟩ := h
    have e1 := vput_refs h1 f
    have e2 := vput_refs h2 f
    rw [vget_refs, oneRef_self] at e1
    dsimp only
    omega
  | error e =>
    rw [hfind] at h
    obtain ⟨s₁, h1, h2⟩ := Option.bind_eq_some_iff.1 h
    have e1 := vput_refs h1 f
    rw [oneRef_self] at e1
    have e2 : x.1.refs = s₁.refs := by
      cases e <;> cases h2 <;> rfl
    rw [e2]
    exact e1

theorem do_link_kept {«from» «to» : Name} :
    Kept s (do_link L F.toFs cwd root s «from» «to») ↔ LinkOk L (F.tree s.fs) cwd root «from» «to» := by
  by_cases hlt : «to».length > L.MAXPATHLEN ∨ «to».length = 0
  · refine iff_of_true ?_ (by unfold LinkOk; tauto)
    unfold do_link
    iterate 4
      split
      · simp [Kept]
    tauto
  · rw [LinkOk, ← or_assoc, or_iff_right hlt]
    rw [not_or] at hlt
    cases hf : (F.tree s.fs).named L cwd root «from» with
    | error e =>
      refine iff_of_true ?_ (by simp)
      unfold do_link
      iterate 4
        split
        · simp [Kept]
      simp [Kept, open_namev_eq, hf, State.held]
    | ok f =>
      have hlf : ¬ «from».length > L.MAXPATHLEN ∧ «from».length ≠ 0 := by
        obtain ⟨d, n, hp, -⟩ := names_parent hf
        exact parent_length hp
      simp only [Except.ok.injEq, forall_eq']
      by_cases hdir : (F.tree s.fs).isDir f = true
      · -- the reference to the directory is left
        refine iff_of_false ?_ (by simp [hdir])
        simp only [do_link, if_neg hlf.1, if_neg hlf.2, if_neg hlt.1, if_neg hlt.2, open_namev_eq, hf, State.held, bind,
          Option.bind_some, State.vget_fs, hdir, if_true, Kept, returns_some]
        intro he
        have := congrFun he f
        rw [vget_refs, oneRef_self] at this
        omega
      · rw [Bool.not_eq_true] at hdir
        cases hto : (F.tree s.fs).parent L cwd root «to» with
        | error e =>
          refine iff_of_true ?_ ⟨hdir, by simp⟩
          simp only [do_link, if_neg hlf.1, if_neg hlf.2, if_neg hlt.1, if_neg hlt.2, open_namev_eq, hf, State.held, bind,
            Option.bind_some, State.vget_fs, hdir, Bool.false_eq_true, if_false, dir_namev_eq, hto, State.vget_vput, Kept,
            returns_some]
        | ok dn =>
          refine iff_of_false ?_ (fun h => h.2 dn.1 dn.2 rfl)
          rintro ⟨x, hx, hrefs⟩
          have := do_link_drops hf hdir hto hx
          rw [hrefs] at this
          omega

/-! ## All calls -/

/-- Only links are not always right. -/
def PathCall.Ok (L : Limits) (T : Tree) (cwd root : Nat) : PathCall → Prop
  | .do_link «from» «to» => LinkOk L T cwd root «from» «to»
  | _ => True

/-- `/d/a` gets a second name `/b`: success is returned, and the open file has no
reference any more. -/
theorem link_drops_open_file : ∃ s', (PathCall.do_link "/d/a".toList "/b".toList).run stock flatOps (· == ·) 0 0 oneFile =
    some (s', .ok ()) ∧ oneFile.refs 2 = 1 ∧ s'.refs 2 = 0 ∧
    ¬ Kept oneFile ((PathCall.do_link "/d/a".toList "/b".toList).run stock flatOps (· == ·) 0 0 oneFile) := by
  have h : ((PathCall.do_link "/d/a".toList "/b".toList).run stock flatOps (· == ·) 0 0 oneFile).map
      (fun x => (x.2, x.1.refs 2)) = some (.ok (), 0) := by
    decide +kernel
  simp only [Option.map_eq_some_iff, Prod.mk.injEq, Prod.exists] at h
  obtain ⟨s', r, hrun, rfl, hrefs⟩ := h
  refine ⟨s', hrun, rfl, hrefs, ?_⟩
  rintro ⟨y, hy, hall⟩
  cases hrun.symm.trans hy
  have := congrFun hall 2
  simp [hrefs, oneFile] at this

/-- A path call leaves the references to all vnodes as they were exactly when it is `Ok`. -/
theorem path_calls_keep_refs (hF : HasStat F) (c : PathCall) :
    Kept s (c.run L F name_match cwd root s) ↔ c.Ok L (F.tree s.fs) cwd root := by
  cases c with
  | do_mknod path mode devid => exact iff_of_true do_mknod_kept trivial
  | do_mkdir path => exact iff_of_true do_mkdir_kept trivial
  | do_rmdir path => exact iff_of_true do_rmdir_kept trivial
  | do_unlink path => exact iff_of_true do_unlink_kept trivial
  | do_link «from» «to» => exact do_link_kept
  | do_stat path => exact iff_of_true (do_stat_kept hF) trivial

/-- `/d/a` is linked into a directory that is not there. -/
theorem link_nowhere_keeps :
    Kept oneFile ((PathCall.do_link "/d/a".toList "/x/b".toList).run stock flatOps (· == ·) 0 0 oneFile) := by
  apply (path_calls_keep_refs (fun _ _ => rfl) _).2
  refine .inr (.inr fun f hf => ?_)
  have h : (flatOps.tree oneFile.fs).named stock 0 0 "/d/a".toList = .ok 2 := by decide +kernel
  cases h.symm.trans hf
  refine ⟨by decide, fun dir name hp => ?_⟩
  have h : (flatOps.tree oneFile.fs).parent stock 0 0 "/x/b".toList = .error .ENOENT := by decide +kernel
  cases h.symm.trans hp

end Weenix.Vfs
