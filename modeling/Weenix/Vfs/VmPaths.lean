import Weenix.Vfs.Rename
import Weenix.Vfs.VmNames
/-!
# Path calls of vm-submit (`vfs_syscall.c`)

Each call puts the vnodes it was given. `do_link` forgets the directory when the
new name exists, and `do_rename` calls it.
-/

namespace Weenix.Vfs.VmSubmit

variable {σ : Type}

section
variable (L : Limits) (F : VnodeOps σ) (cwd root : Nat)

/-- Call `dir_namev`, whose error is returned, and go on with the directory. -/
def withDir {α : Type} (s : State σ) (path : Name) (k : State σ → Nat → Name → Option (State σ × Except Errno α)) :
    Option (State σ × Except Errno α) := do
  match ← dir_namev L F.toFs cwd root s path with
  | (s, .error e) => some (s, .error e)
  | (s, .ok (dir, name)) => k s dir name

def do_mknod (s : State σ) (path : Name) (mode : Mode) (devid : Nat) : Option (State σ × Except Errno Unit) :=
  if mode.fmt ≠ .blk ∧ mode.fmt ≠ .chr then some (s, .error .EINVAL)
  else withDir L F cwd root s path fun s res_node name =>
    if L.NAME_LEN - 1 < name.length then do
      let s ← s.vput res_node
      some (s, .error .ENAMETOOLONG)
    else
      match lookup F.toFs s res_node name with
      | (s, .ok tempNode) => do
        let s ← s.vput res_node
        let s ← s.vput tempNode
        some (s, .error .EEXIST)
      | (s, .error _) => do
        let (fs, r) := F.mknod s.fs res_node name mode devid
        let s ← State.vput { s with fs := fs } res_node
        some (s, r)

def do_mkdir (s : State σ) (path : Name) : Option (State σ × Except Errno Unit) :=
  withDir L F cwd root s path fun s resultnode name =>
    if L.NAME_LEN ≤ name.length then do
      let s ← s.vput resultnode
      some (s, .error .ENAMETOOLONG)
    else
      match lookup F.toFs s resultnode name with
      | (s, .ok tempNode) => do
        let s ← s.vput resultnode
        let s ← s.vput tempNode
        some (s, .error .EEXIST)
      | (s, .error _) => do
        let (fs, r) := F.mkdir s.fs resultnode name
        let s ← State.vput { s with fs := fs } resultnode
        some (s, r)

def do_rmdir (s : State σ) (path : Name) : Option (State σ × Except Errno Unit) :=
  withDir L F cwd root s path fun s resultNode name =>
    if L.NAME_LEN ≤ name.length then do
      let s ← s.vput resultNode
      some (s, .error .ENAMETOOLONG)
    else if name = ['.'] then do
      let s ← s.vput resultNode
      some (s, .error .EINVAL)
    else if name = ['.', '.'] then do
      let s ← s.vput resultNode
      some (s, .error .ENOTEMPTY)
    else do
      let (fs, r) := F.rmdir s.fs resultNode name
      let s ← State.vput { s with fs := fs } resultNode
      some (s, r)

def do_unlink (s : State σ) (path : Name) : Option (State σ × Except Errno Unit) :=
  withDir L F cwd root s path fun s res_node name =>
    if L.NAME_LEN - 1 < name.length then do
      let s ← s.vput res_node
      some (s, .error .ENAMETOOLONG)
    else
      match lookup F.toFs s res_node name with
      | (s, .error e) => do
        let s ← s.vput res_node
        some (s, .error e)
      | (s, .ok res_node2) =>
        if (F.tree s.fs).isDir res_node2 then do
          let s ← s.vput res_node
          let s ← s.vput res_node2
          some (s, .error .EISDIR)
        else do
          let (fs, r) := F.unlink s.fs res_node name
          let s ← State.vput { s with fs := fs } res_node
          let s ← s.vput res_node2
          some (s, r)

def do_link (s : State σ) («from» «to» : Name) : Option (State σ × Except Errno Unit) :=
  if L.MAXPATHLEN < «to».length ∨ L.MAXPATHLEN < «from».length then some (s, .error .ENAMETOOLONG)
  else do
    match ← open_namev L F.toFs cwd root s «from» false with
    | (s, .error e) => some (s, .error e)
    | (s, .ok res_vnode) =>
      if (F.tree s.fs).isDir res_vnode then do
        let s ← s.vput res_vnode
        some (s, .error .EISDIR)
      else
        match ← dir_namev L F.toFs cwd root s «to» with
        | (s, .error e) => do
          let s ← s.vput res_vnode
          some (s, .error e)
        | (s, .ok (tempVnode, naav)) =>
          match lookup F.toFs s tempVnode naav with
          | (s, .ok tempVnode1) => do
            let s ← s.vput tempVnode1
            let s ← s.vput res_vnode
            -- `tempVnode` is not put
            some (s, .error .EEXIST)
          | (s, .error _) => do
            let (fs, r) := F.link s.fs res_vnode tempVnode naav
            let s ← State.vput { s with fs := fs } res_vnode
            let s ← s.vput tempVnode
            some (s, r)

def do_rename (s : State σ) (oldname newname : Name) : Option (State σ × Except Errno Unit) := do
  match ← do_link L F cwd root s oldname newname with
  | (s, .error e) => some (s, .error e)
  | (s, .ok ()) => do_unlink L F cwd root s oldname

/-- The result has `p_cwd`. -/
def do_chdir (s : State σ) (path : Name) : Option (State σ × Except Errno Nat) :=
  withDir L F cwd root s path fun s node_out name =>
    if L.NAME_LEN ≤ name.length then do
      let s ← s.vput node_out
      some (s, .error .ENAMETOOLONG)
    else
      match lookup F.toFs s node_out name with
      | (s, .error e) => do
        let s ← s.vput node_out
        some (s, .error e)
      | (s, .ok newDirNode) =>
        if !(F.tree s.fs).isDir newDirNode then do
          let s ← s.vput node_out
          let s ← s.vput newDirNode
          some (s, .error .ENOTDIR)
        else do
          let s ← s.vput node_out
          let s ← s.vput cwd
          some (s, .ok newDirNode)

/-- `buf` says that the pointer is not `NULL`. -/
def do_stat (s : State σ) (path : Name) (buf : Bool) : Option (State σ × Except Errno Unit) :=
  if L.MAXPATHLEN < path.length then some (s, .error .ENAMETOOLONG)
  else if !buf then some (s, .error .EFAULT)
  else do
    match ← open_namev L F.toFs cwd root s path false with
    | (s, .error e) => some (s, .error e)
    | (s, .ok tempObj) => do
      let (fs, r) := (F.stat s.fs tempObj).getD (s.fs, .ok ())
      let s ← State.vput { s with fs := fs } tempObj
      some (s, r)

end

inductive PathCall
  | do_mknod (path : Name) (mode : Mode) (devid : Nat)
  | do_mkdir (path : Name)
  | do_rmdir (path : Name)
  | do_unlink (path : Name)
  | do_link («from» «to» : Name)
  | do_rename (oldname newname : Name)
  | do_chdir (path : Name)
  | do_stat (path : Name) (buf : Bool)
  deriving DecidableEq

/-- A call in the process with working directory `cwd`; the result has the
working directory after it. -/
def PathCall.run (L : Limits) (F : VnodeOps σ) (root cwd : Nat) (s : State σ) :
    PathCall → Option (State σ × Except Errno Unit × Nat)
  | .do_mknod path mode devid => (VmSubmit.do_mknod L F cwd root s path mode devid).map fun x => (x.1, x.2, cwd)
  | .do_mkdir path => (VmSubmit.do_mkdir L F cwd root s path).map fun x => (x.1, x.2, cwd)
  | .do_rmdir path => (VmSubmit.do_rmdir L F cwd root s path).map fun x => (x.1, x.2, cwd)
  | .do_unlink path => (VmSubmit.do_unlink L F cwd root s path).map fun x => (x.1, x.2, cwd)
  | .do_link «from» «to» => (VmSubmit.do_link L F cwd root s «from» «to»).map fun x => (x.1, x.2, cwd)
  | .do_rename oldname newname => (VmSubmit.do_rename L F cwd root s oldname newname).map fun x => (x.1, x.2, cwd)
  | .do_chdir path => (VmSubmit.do_chdir L F cwd root s path).map fun x =>
      match x.2 with
      | .ok v => (x.1, .ok (), v)
      | .error e => (x.1, .error e, cwd)
  | .do_stat path buf => (VmSubmit.do_stat L F cwd root s path buf).map fun x => (x.1, x.2, cwd)

variable {L : Limits} {F : VnodeOps σ} {cwd root : Nat} {s : State σ}

/-- A walk of a path that does not fit into `localPathArr` is no walk. -/
theorem withDir_iff {α : Type} {path : Name} {k : State σ → Nat → Name → Option (State σ × Except Errno α)}
    {P : State σ × Except Errno α → Prop} (herr : ∀ e, P (s, .error e)) (hk : ∀ dir name, Returns (k (s.vget dir) dir name) P) :
    Returns (withDir L F cwd root s path k) P ↔ path.length < L.MAXPATHLEN := by
  constructor
  · rintro ⟨y, hy, -⟩
    by_contra hn
    simp [withDir, dir_namev, KASSERT, hn] at hy
  · intro hp
    simp only [withDir, dir_namev_eq s hp, bind, Option.bind_some]
    cases parent L root cwd (F.tree s.fs) path with
    | error e => exact ⟨_, rfl, herr e⟩
    | ok dn => exact hk dn.1 dn.2

theorem vput_below_with_fs (s : State σ) (v u : Nat) (fs : σ) :
    State.vput { (s.vget v).vget u with fs := fs } v = some { s.vget u with fs := fs } :=
  vput_below { s with fs := fs } v u

theorem do_mknod_kept {path : Name} {mode : Mode} {devid : Nat} :
    Kept s (do_mknod L F cwd root s path mode devid) ↔ (mode.fmt ≠ .blk ∧ mode.fmt ≠ .chr) ∨ path.length < L.MAXPATHLEN := by
  unfold do_mknod
  split
  next h => simp [Kept, h]
  next h =>
    rw [or_iff_right h]
    apply withDir_iff (fun _ => rfl)
    intro dir name
    split
    next => simp
    next =>
      simp only [lookup, State.held, State.vget_fs]
      cases find (F.tree s.fs) dir name with
      | ok v => simp [vput_below]
      | error e => simp [vput_with_fs]

theorem do_mkdir_kept {path : Name} : Kept s (do_mkdir L F cwd root s path) ↔ path.length < L.MAXPATHLEN := by
  unfold do_mkdir
  apply withDir_iff (fun _ => rfl)
  intro dir name
  split
  next => simp
  next =>
    simp only [lookup, State.held, State.vget_fs]
    cases find (F.tree s.fs) dir name with
    | ok v => simp [vput_below]
    | error e => simp [vput_with_fs]

theorem do_rmdir_kept {path : Name} : Kept s (do_rmdir L F cwd root s path) ↔ path.length < L.MAXPATHLEN := by
  unfold do_rmdir
  apply withDir_iff (fun _ => rfl)
  intro dir name
  split
  next => simp
  next =>
    split
    next => simp
    next =>
      split
      next => simp
      next => simp [vput_with_fs]

theorem do_unlink_kept {path : Name} : Kept s (do_unlink L F cwd root s path) ↔ path.length < L.MAXPATHLEN := by
  unfold do_unlink
  apply withDir_iff (fun _ => rfl)
  intro dir name
  split
  next => simp
  next =>
    simp only [lookup, State.held, State.vget_fs]
    cases find (F.tree s.fs) dir name with
    | error e => simp
    | ok v =>
      dsimp only
      split
      next => simp [vput_below]
      next => simp [vput_below_with_fs, vput_with_fs]

/-- The working directory is passed on, and is referenced. -/
theorem do_chdir_kept {path : Name} (hc : 0 < s.refs cwd) :
    Returns (do_chdir L F cwd root s path) (fun y =>
      ∀ v, y.1.refs v + oneRef cwd v = s.refs v + oneRef (y.2.toOption.getD cwd) v) ↔ path.length < L.MAXPATHLEN := by
  unfold do_chdir
  apply withDir_iff
  · intro e v
    rfl
  · intro dir name
    split
    next => simp [Except.toOption]
    next =>
      simp only [lookup, State.held, State.vget_fs]
      cases find (F.tree s.fs) dir name with
      | error e => simp [Except.toOption]
      | ok v =>
        dsimp only
        split
        next => simp [vput_below, Except.toOption]
        next =>
          have hpos : 0 < (s.vget v).refs cwd := by rw [vget_refs]; omega
          obtain ⟨s', hput⟩ := vput_some hpos
          simp only [vput_below, hput, bind, Option.bind_some, returns_some]
          intro u
          rw [vput_refs hput, vget_refs]
          rfl

/-- `do_stat` walks the path only when it is not refused. -/
theorem do_stat_kept {path : Name} {buf : Bool} :
    Kept s (do_stat L F cwd root s path buf) ↔ L.MAXPATHLEN < path.length ∨ buf = false ∨ path.length < L.MAXPATHLEN := by
  unfold do_stat
  split
  next h => simp [Kept, h]
  next h =>
    rw [or_iff_right h]
    split
    next hb => simp_all [Kept]
    next hb =>
      rw [or_iff_right (by simpa using hb)]
      constructor
      · rintro ⟨y, hy, -⟩
        by_contra hn
        simp [open_namev, dir_namev, KASSERT, hn] at hy
      · intro hp
        rw [open_namev_eq s hp]
        simp only [State.held, bind, Option.bind_some]
        cases named L root cwd (F.tree s.fs) path with
        | error e => simp [Kept]
        | ok v =>
          simp only [State.vget_fs]
          generalize (F.stat s.fs v).getD (s.fs, .ok ()) = x
          simp [Kept, vput_with_fs]

/-! ## Links -/

/-- `do_link` does not come to its return for an existing target: it is refused,
or `from` names nothing or a directory, or `to` is free; and no path overflows
`localPathArr`. -/
def LinkOk (L : Limits) (T : Tree) (root cwd : Nat) («from» «to» : Name) : Prop :=
  L.MAXPATHLEN < «to».length ∨ L.MAXPATHLEN < «from».length ∨
    («from».length < L.MAXPATHLEN ∧ ∀ f, named L root cwd T «from» = .ok f → T.isDir f = false →
      «to».length < L.MAXPATHLEN ∧ ∀ dir name, parent L root cwd T «to» = .ok (dir, name) → ∀ v, find T dir name ≠ .ok v)

theorem do_link_kept {«from» «to» : Name} :
    Kept s (do_link L F cwd root s «from» «to») ↔ LinkOk L (F.tree s.fs) root cwd «from» «to» := by
  unfold do_link LinkOk
  split
  next h => exact iff_of_true ⟨_, rfl, rfl⟩ (by tauto)
  next h =>
    rw [not_or] at h
    rw [or_iff_right h.1, or_iff_right h.2]
    by_cases hfrom : «from».length < L.MAXPATHLEN
    case neg => simp [Kept, open_namev, dir_namev, KASSERT, hfrom]
    simp only [open_namev_eq s hfrom, State.held, bind, Option.bind_some, hfrom, true_and]
    cases named L root cwd (F.tree s.fs) «from» with
    | error e => simp [Kept]
    | ok f =>
      simp only [Except.ok.injEq, forall_eq', State.vget_fs]
      by_cases hf : (F.tree s.fs).isDir f = true
      case pos => simp [Kept, hf]
      simp only [hf, Bool.false_eq_true, if_false, forall_const]
      by_cases hto : «to».length < L.MAXPATHLEN
      case neg => simp [Kept, dir_namev, KASSERT, hto]
      simp only [dir_namev_eq _ hto, Option.bind_some, State.vget_fs, hto, true_and]
      cases parent L root cwd (F.tree s.fs) «to» with
      | error e => simp [Kept]
      | ok dn =>
        obtain ⟨dir, name⟩ := dn
        simp only [lookup, State.held, State.vget_fs]
        cases hfind : find (F.tree s.fs) dir name with
        | error e => simp [Kept, hfind, vput_below_with_fs, vput_with_fs]
        | ok v =>
          -- the reference to the directory is left
          refine iff_of_false ?_ (by simp [hfind])
          simp only [State.vget_vput, State.vget_comm s f dir, Option.bind_some, Kept, returns_some]
          intro he
          have := congrFun he dir
          rw [vget_refs] at this
          simp [oneRef] at this

/-- A link that is made has walked the old name. -/
theorem do_link_fits {«from» «to» : Name} {s' : State σ} (h : do_link L F cwd root s «from» «to» = some (s', .ok ())) :
    «from».length < L.MAXPATHLEN := by
  unfold do_link at h
  split at h
  · cases h
  · by_contra hn
    simp [open_namev, dir_namev, KASSERT, hn] at h

/-- Unlinking keeps the counts whenever it returns. -/
theorem do_unlink_refs {path : Name} {y : State σ × Except Errno Unit} (h : do_unlink L F cwd root s path = some y) :
    y.1.refs = s.refs := by
  have hp : path.length < L.MAXPATHLEN := by
    by_contra hn
    simp [do_unlink, withDir, dir_namev, KASSERT, hn] at h
  have hkept : Kept s (do_unlink L F cwd root s path) := do_unlink_kept.2 hp
  obtain ⟨y', hy', hrefs⟩ := hkept
  cases h.symm.trans hy'
  exact hrefs

/-- The link step decides. -/
theorem do_rename_kept {oldname newname : Name} :
    Kept s (do_rename L F cwd root s oldname newname) ↔ LinkOk L (F.tree s.fs) root cwd oldname newname := by
  rw [← do_link_kept]
  constructor
  · rintro ⟨y, hy, hrefs⟩
    simp only [do_rename, bind, Option.bind_eq_some_iff, Prod.exists] at hy
    obtain ⟨s₁, r, hl, hy⟩ := hy
    refine ⟨_, hl, ?_⟩
    cases r with
    | error e => cases hy; exact hrefs
    | ok u => exact (do_unlink_refs hy).symm.trans hrefs
  · rintro ⟨⟨s₁, r⟩, hl, hrefs⟩
    simp only [do_rename, hl, bind, Option.bind_some]
    cases r with
    | error e => exact ⟨_, rfl, hrefs⟩
    | ok u =>
      have hkept : Kept s₁ (do_unlink L F cwd root s₁ oldname) := do_unlink_kept.2 (do_link_fits hl)
      obtain ⟨y, hy, h⟩ := hkept
      exact ⟨y, hy, h.trans hrefs⟩

/-! ## All calls -/

/-- The call returns, each count is as it was at entry, and when the working
directory has changed its reference has moved. -/
def Conserves (L : Limits) (F : VnodeOps σ) (root cwd : Nat) (s : State σ) (c : PathCall) : Prop :=
  ∃ s' r cwd', c.run L F root cwd s = some (s', r, cwd') ∧
    (∀ v, s'.refs v + oneRef cwd v = s.refs v + oneRef cwd' v) ∧
    (cwd' ≠ cwd → r = .ok () ∧ ∃ path, c = .do_chdir path)

/-- No path that is walked overflows `localPathArr`, and no link stops at an existing target. -/
def PathCall.Ok (L : Limits) (T : Tree) (root cwd : Nat) : PathCall → Prop
  | .do_mknod path mode _ => (mode.fmt ≠ .blk ∧ mode.fmt ≠ .chr) ∨ path.length < L.MAXPATHLEN
  | .do_mkdir path | .do_rmdir path | .do_unlink path | .do_chdir path => path.length < L.MAXPATHLEN
  | .do_link «from» «to» => LinkOk L T root cwd «from» «to»
  | .do_rename oldname newname => LinkOk L T root cwd oldname newname
  | .do_stat path buf => L.MAXPATHLEN < path.length ∨ buf = false ∨ path.length < L.MAXPATHLEN

/-- A call that does not change the working directory. -/
theorem conserves_iff_kept {x : Option (State σ × Except Errno Unit)} {c : PathCall}
    (h : c.run L F root cwd s = x.map fun x => (x.1, x.2, cwd)) : Conserves L F root cwd s c ↔ Kept s x := by
  simp only [Conserves, h, Option.map_eq_some_iff, Prod.mk.injEq]
  constructor
  · rintro ⟨s', r, cwd', ⟨y, hy, rfl, rfl, rfl⟩, hrefs, -⟩
    exact ⟨y, hy, funext fun v => Nat.add_right_cancel (hrefs v)⟩
  · rintro ⟨y, hy, hrefs⟩
    exact ⟨y.1, y.2, cwd, ⟨y, hy, rfl, rfl, rfl⟩, fun v => by rw [hrefs], fun hne => absurd rfl hne⟩

theorem conserves_chdir {path : Name} (hc : 0 < s.refs cwd) :
    Conserves L F root cwd s (.do_chdir path) ↔ path.length < L.MAXPATHLEN := by
  have hkept := @do_chdir_kept σ L F cwd root s path hc
  rw [← hkept]
  simp only [Conserves, PathCall.run, Option.map_eq_some_iff]
  constructor
  · rintro ⟨s', r, cwd', ⟨⟨s₁, r₁⟩, hy, he⟩, hrefs, -⟩
    refine ⟨_, hy, ?_⟩
    cases r₁ <;> cases he <;> exact hrefs
  · rintro ⟨⟨s', r⟩, hy, hrefs⟩
    cases r with
    | error e => exact ⟨s', .error e, cwd, ⟨_, hy, rfl⟩, hrefs, fun hne => absurd rfl hne⟩
    | ok v => exact ⟨s', .ok (), v, ⟨_, hy, rfl⟩, hrefs, fun _ => ⟨rfl, path, rfl⟩⟩

/-- `/d/a` is linked to itself: `-EEXIST` is returned, and `/d` has one more reference. -/
theorem link_existing_leaks : ∃ s', (PathCall.do_link "/d/a".toList "/d/a".toList).run stock flatOps 0 0 oneFile =
    some (s', .error .EEXIST, 0) ∧ oneFile.refs 1 = 1 ∧ s'.refs 1 = 2 ∧
    ¬ Conserves stock flatOps 0 0 oneFile (.do_link "/d/a".toList "/d/a".toList) := by
  have h : ((PathCall.do_link "/d/a".toList "/d/a".toList).run stock flatOps 0 0 oneFile).map
      (fun x => (x.2, x.1.refs 1)) = some ((.error .EEXIST, 0), 2) := by
    decide +kernel
  simp only [Option.map_eq_some_iff, Prod.mk.injEq, Prod.exists] at h
  obtain ⟨s', r, cwd, hrun, ⟨rfl, rfl⟩, hrefs⟩ := h
  refine ⟨s', hrun, rfl, hrefs, ?_⟩
  rintro ⟨s'', r, cwd, hrun', hall, -⟩
  cases hrun.symm.trans hrun'
  have := hall 1
  simp [hrefs, oneFile, oneRef] at this

/-- A call conserves the references to vnodes exactly when it is `Ok`. -/
theorem path_calls_conserve (hc : 0 < s.refs cwd) (c : PathCall) :
    Conserves L F root cwd s c ↔ c.Ok L (F.tree s.fs) root cwd := by
  cases c with
  | do_mknod path mode devid => exact (conserves_iff_kept rfl).trans do_mknod_kept
  | do_mkdir path => exact (conserves_iff_kept rfl).trans do_mkdir_kept
  | do_rmdir path => exact (conserves_iff_kept rfl).trans do_rmdir_kept
  | do_unlink path => exact (conserves_iff_kept rfl).trans do_unlink_kept
  | do_link «from» «to» => exact (conserves_iff_kept rfl).trans do_link_kept
  | do_rename oldname newname => exact (conserves_iff_kept rfl).trans do_rename_kept
  | do_chdir path => exact conserves_chdir hc
  | do_stat path buf => exact (conserves_iff_kept rfl).trans do_stat_kept

/-- `/d/a` gets a second name `/b`. -/
theorem link_new_conserves : Conserves stock flatOps 0 0 oneFile (.do_link "/d/a".toList "/b".toList) := by
  apply (path_calls_conserve (by decide) _).2
  refine .inr (.inr ⟨by decide, fun f _ _ => ⟨by decide, fun dir name hp => ?_⟩⟩)
  have h : parent stock 0 0 (flatOps.tree oneFile.fs) "/b".toList = .ok (0, ['b']) := by decide +kernel
  cases h.symm.trans hp
  intro v hv
  have h : find (flatOps.tree oneFile.fs) 0 ['b'] = .error .ENOENT := by decide +kernel
  cases h.symm.trans hv

end Weenix.Vfs.VmSubmit
