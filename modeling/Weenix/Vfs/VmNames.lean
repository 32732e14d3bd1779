import Weenix.Vfs.Names
/-!
# Path names in vm-submit (`namev.c`)

`dir_namev` cuts the path at the slashes, and looks up the last component too. It
references each directory before it leaves the one above. The vnodes and the file
system are as in vfs-submit.
-/

namespace Weenix.Vfs.VmSubmit

variable {σ : Type}

section
variable (L : Limits) (F : Fs σ) (cwd root : Nat)

/-- What `lookup` finds. `strncmp` with "." is 0 for the empty name as well. -/
def find (T : Tree) (dir : Nat) (name : Name) : Except Errno Nat :=
  if !T.hasLookup dir then .error .ENOTDIR
  else if name = [] ∨ name = ['.'] then .ok dir
  else T.lookup dir name

def lookup (s : State σ) (dir : Nat) (name : Name) : State σ × Except Errno Nat :=
  s.held (find (F.tree s.fs) dir name)

/-- The loop of `dir_namev`: `localPtr` is looked up in `tempVnode`, the other
components are still to come. -/
def walk (s : State σ) (tempVnode : Nat) (localPtr : Name) : List Name → Option (State σ × Except Errno (Nat × Name))
  | [] =>
    match lookup F s tempVnode localPtr with
    | (s, .ok vnodeObj) => do
      let s ← s.vput vnodeObj
      some (s, .ok (tempVnode, localPtr))
    | (s, .error .ENOENT) => some (s, .ok (tempVnode, localPtr))
    | (s, .error e) => do
      let s ← s.vput tempVnode
      some (s, .error e)
  | next :: rest =>
    match lookup F s tempVnode localPtr with
    | (s, .error e) => do
      let s ← s.vput tempVnode
      some (s, .error e)
    | (s, .ok vnodeObj) =>
      if L.NAME_LEN < next.length then do
        let s ← s.vput vnodeObj
        let s ← s.vput tempVnode
        some (s, .error .ENAMETOOLONG)
      else do
        let s ← s.vput tempVnode
        walk s vnodeObj next rest

/-- After the base has been referenced; the path is cut at its slashes. -/
def namev_from (s : State σ) (tempVnode : Nat) : List Name → Option (State σ × Except Errno (Nat × Name))
  | [] => none
  | localPtr :: rest =>
    if L.NAME_LEN < localPtr.length then do
      let s ← s.vput tempVnode
      some (s, .error .ENAMETOOLONG)
    else walk L F s tempVnode localPtr rest

def dir_namev (s : State σ) (pathname : Name) : Option (State σ × Except Errno (Nat × Name)) := do
  -- `strcpy` into `localPathArr`
  KASSERT (pathname.length < L.MAXPATHLEN)
  match pathname with
  | [] => do
    let s ← (s.vget cwd).vput cwd
    some (s, .error .EINVAL)
  | c :: cs =>
    if c = '/' then
      let s := s.vget root
      if cs = [] then some (s, .ok (root, pathname)) else namev_from L F s root (cs.splitOn '/')
    else namev_from L F (s.vget cwd) cwd (pathname.splitOn '/')

/-- `creat` is the flag `O_CREAT`. -/
def open_namev (s : State σ) (pathname : Name) (creat : Bool) : Option (State σ × Except Errno Nat) := do
  match ← dir_namev L F cwd root s pathname with
  | (s, .error e) => some (s, .error e)
  | (s, .ok (tempNode, file_naav)) =>
    -- the name of the root is "/", or empty
    let file_naav := if (file_naav = [] ∨ file_naav = ['/']) ∧ root = tempNode then ['.'] else file_naav
    match lookup F s tempNode file_naav with
    | (s, .error e) =>
      if creat ∧ e = .ENOENT then do
        let (fs, r) := F.create s.fs tempNode file_naav
        let (s, r) := State.held { s with fs := fs } r
        let s ← s.vput tempNode
        some (s, r)
      else do
        let s ← s.vput tempNode
        some (s, .error e)
    | (s, .ok v) => do
      let s ← s.vput tempNode
      some (s, .ok v)

end

/-! ## What a path names -/

section
variable (L : Limits) (root cwd : Nat)

/-- The directory and the last component of the path `localPtr :: rest`. -/
def last (T : Tree) (dir : Nat) (localPtr : Name) : List Name → Except Errno (Nat × Name)
  | [] =>
    match find T dir localPtr with
    | .ok _ | .error .ENOENT => .ok (dir, localPtr)
    | .error e => .error e
  | next :: rest =>
    match find T dir localPtr with
    | .error e => .error e
    | .ok v => if L.NAME_LEN < next.length then .error .ENAMETOOLONG else last T v next rest

def last_from (T : Tree) (dir : Nat) : List Name → Except Errno (Nat × Name)
  | [] => .error .EINVAL
  | localPtr :: rest => if L.NAME_LEN < localPtr.length then .error .ENAMETOOLONG else last L T dir localPtr rest

def parent (T : Tree) : Name → Except Errno (Nat × Name)
  | [] => .error .EINVAL
  | c :: cs =>
    if c = '/' then if cs = [] then .ok (root, c :: cs) else last_from L T root (cs.splitOn '/')
    else last_from L T cwd ((c :: cs).splitOn '/')

/-- The vnode a path names. -/
def named (T : Tree) (path : Name) : Except Errno Nat :=
  match parent L root cwd T path with
  | .error e => .error e
  | .ok (dir, name) => find T dir (if (name = [] ∨ name = ['/']) ∧ root = dir then ['.'] else name)

end

variable {L : Limits} {F : Fs σ} {cwd root : Nat}

/-- A new reference is left when an old one goes. -/
theorem vput_below (s : State σ) (v u : Nat) : ((s.vget v).vget u).vput v = some (s.vget u) := by
  rw [State.vget_comm, State.vget_vput]

/-- The walk passes its reference on from directory to directory. -/
theorem walk_eq (s : State σ) (dir : Nat) (localPtr : Name) (rest : List Name) :
    walk L F (s.vget dir) dir localPtr rest = some (match last L (F.tree s.fs) dir localPtr rest with
      | .ok (d, name) => (s.vget d, .ok (d, name))
      | .error e => (s, .error e)) := by
  induction rest generalizing s dir localPtr with
  | nil =>
    simp only [walk, last, lookup, State.held, State.vget_fs]
    cases find (F.tree s.fs) dir localPtr with
    | ok v => simp
    | error e => cases e <;> simp
  | cons next rest ih =>
    simp only [walk, last, lookup, State.held, State.vget_fs]
    cases find (F.tree s.fs) dir localPtr with
    | error e => simp
    | ok v =>
      dsimp only
      split
      · simp
      · rw [vput_below]
        exact ih s v next

theorem dir_namev_eq {path : Name} (s : State σ) (hp : path.length < L.MAXPATHLEN) :
    dir_namev L F cwd root s path = some (match parent L root cwd (F.tree s.fs) path with
      | .ok (d, name) => (s.vget d, .ok (d, name))
      | .error e => (s, .error e)) := by
  have hfrom (dir : Nat) (cs : List Name) (hcs : cs ≠ []) :
      namev_from L F (s.vget dir) dir cs = some (match last_from L (F.tree s.fs) dir cs with
        | .ok (d, name) => (s.vget d, .ok (d, name))
        | .error e => (s, .error e)) := by
    cases cs with
    | nil => exact absurd rfl hcs
    | cons c cs =>
      simp only [namev_from, last_from]
      split
      · simp
      · exact walk_eq s dir c cs
  simp only [dir_namev, KASSERT, if_pos hp, bind, Option.bind_some]
  cases path with
  | nil => simp [parent]
  | cons c cs =>
    simp only [parent]
    split
    · split
      · rfl
      · exact hfrom root _ (List.splitOn_ne_nil '/' _)
    · exact hfrom cwd _ (List.splitOn_ne_nil '/' _)

/-- The vnode is referenced, and nothing else. -/
theorem open_namev_eq {path : Name} (s : State σ) (hp : path.length < L.MAXPATHLEN) :
    open_namev L F cwd root s path false = some (s.held (named L root cwd (F.tree s.fs) path)) := by
  simp only [open_namev, named, dir_namev_eq s hp, bind, Option.bind_some]
  cases parent L root cwd (F.tree s.fs) path with
  | error e => rfl
  | ok dn =>
    simp only [lookup, State.held, State.vget_fs]
    cases find (F.tree s.fs) dn.1 (if (dn.2 = [] ∨ dn.2 = ['/']) ∧ root = dn.1 then ['.'] else dn.2) with
    | ok v =>
      dsimp only
      rw [vput_below, Option.bind_some]
    | error e => simp

end Weenix.Vfs.VmSubmit
