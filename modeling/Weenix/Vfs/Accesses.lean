import Weenix.Lib.Borrows
import Weenix.Vfs.Paths
/-!
# Which vnodes the path calls of vfs-submit pass on (`namev.c`, `vfs_syscall.c`)

The calls once more, with the history of their accesses in place of the counts:
which vnode is referenced, which is put, and which directory is passed to
`lookup` or to an operation of the file system. `replay` gives the counts back.
-/

namespace Weenix.Vfs.Logged
open Lib

variable {σ : Type}

structure Log (σ : Type) where
  fs : σ
  accesses : List (Access Nat)

namespace Log

def get (l : Log σ) (v : Nat) : Log σ := { l with accesses := l.accesses ++ [.get v] }
def put (l : Log σ) (v : Nat) : Log σ := { l with accesses := l.accesses ++ [.put v] }
/-- The directory `v` is passed on. -/
def use (l : Log σ) (v : Nat) : Log σ := { l with accesses := l.accesses ++ [.use v] }

/-- The vnode found is referenced. -/
def found (l : Log σ) (r : Except Errno Nat) : Log σ × Except Errno Nat :=
  match r with
  | .ok v => (l.get v, r)
  | .error _ => (l, r)

@[simp] theorem put_fs (l : Log σ) (v : Nat) : (l.put v).fs = l.fs := rfl
@[simp] theorem use_fs (l : Log σ) (v : Nat) : (l.use v).fs = l.fs := rfl
@[simp] theorem get_fs (l : Log σ) (v : Nat) : (l.get v).fs = l.fs := rfl

end Log

section
variable (L : Limits) (F : VnodeOps σ) (cwd root : Nat)

def lookup (l : Log σ) (dir : Nat) (name : Name) : Log σ × Except Errno Nat :=
  (l.use dir).found ((F.tree l.fs).find L dir name)

def walk (l : Log σ) (base : Nat) (acc : Name) : Name → Log σ × Except Errno (Nat × Name)
  | [] =>
    if acc.length > L.NAME_LEN then (l, .error .ENAMETOOLONG)
    else
      let l := l.get base
      if !(F.tree l.fs).isDir base then (l.put base, .error .ENOTDIR)
      else (l, .ok (base, acc.reverse))
  | c :: cs =>
    if c = '/' then
      match lookup L F l base acc.reverse with
      | (l, .error e) => (l, .error e)
      | (l, .ok v) => walk (l.put v) v [] cs
    else walk l base (c :: acc) cs

def dir_namev (l : Log σ) (pathname : Name) : Log σ × Except Errno (Nat × Name) :=
  if pathname.length > L.MAXPATHLEN then (l, .error .ENAMETOOLONG)
  else
    match pathname with
    | [] => (l, .error .EINVAL)
    | c :: cs => if c = '/' then walk L F l root [] cs else walk L F l cwd [] (c :: cs)

def open_namev (l : Log σ) (pathname : Name) (creat : Bool) : Log σ × Except Errno Nat :=
  if pathname.length > L.MAXPATHLEN then (l, .error .ENAMETOOLONG)
  else if pathname.length = 0 then (l, .error .EINVAL)
  else
    match dir_namev L F cwd root l pathname with
    | (l, .error e) => (l, .error e)
    | (l, .ok (dir, name)) =>
      match lookup L F (l.put dir) dir name with
      | (l, .error .ENOENT) =>
        if creat then
          let l := l.use dir
          let (fs, r) := F.create l.fs dir name
          Log.found { l with fs := fs } r
        else (l, .error .ENOENT)
      | r => r

def do_mknod (l : Log σ) (path : Name) (mode : Mode) (devid : Nat) : Log σ × Except Errno Unit :=
  if mode ≠ ⟨.chr, 0⟩ ∧ mode ≠ ⟨.blk, 0⟩ then (l, .error .EINVAL)
  else if path.length > L.MAXPATHLEN then (l, .error .ENAMETOOLONG)
  else if path.length = 0 then (l, .error .EINVAL)
  else
    match dir_namev L F cwd root l path with
    | (l, .error e) => (l, .error e)
    | (l, .ok (dir, name)) =>
      match lookup L F (l.put dir) dir name with
      | (l, .ok v) => (l.put v, .error .EEXIST)
      | (l, .error .ENOENT) =>
        let l := l.use dir
        let (fs, r) := F.mknod l.fs dir name mode devid
        ({ l with fs := fs }, r)
      | (l, .error e) => (l, .error e)

def do_mkdir (l : Log σ) (path : Name) : Log σ × Except Errno Unit :=
  if path.length > L.MAXPATHLEN then (l, .error .ENAMETOOLONG)
  else if path.length = 0 then (l, .error .EINVAL)
  else
    match dir_namev L F cwd root l path with
    | (l, .error e) => (l, .error e)
    | (l, .ok (dir, name)) =>
      match lookup L F (l.put dir) dir name with
      | (l, .error .ENOTDIR) => (l, .error .ENOTDIR)
      | (l, .ok v) => (l.put v, .error .EEXIST)
      | (l, .error .ENOENT) =>
        let l := l.use dir
        let (fs, r) := F.mkdir l.fs dir name
        ({ l with fs := fs }, r)
      | (l, .error e) => (l, .error e)

def do_link (l : Log σ) («from» «to» : Name) : Log σ × Except Errno Unit :=
  if «from».length > L.MAXPATHLEN then (l, .error .ENAMETOOLONG)
  else if «from».length = 0 then (l, .error .EINVAL)
  else if «to».length > L.MAXPATHLEN then (l, .error .ENAMETOOLONG)
  else if «to».length = 0 then (l, .error .EINVAL)
  else
    match open_namev L F cwd root l «from» false with
    | (l, .error e) => (l, .error e)
    | (l, .ok f) =>
      if (F.tree l.fs).isDir f then (l, .error .EISDIR)
      else
        match dir_namev L F cwd root l «to» with
        | (l, .error e) => (l.put f, .error e)
        | (l, .ok (dir, name)) =>
          match lookup L F ((l.put f).put dir) dir name with
          | (l, .ok v) => ((l.put f).put v, .error .EEXIST)
          | (l, .error .ENOENT) =>
            let l := (l.put f).use dir
            let (fs, r) := F.link l.fs f dir name
            ({ l with fs := fs }, r)
          | (l, .error e) => (l.put f, .error e)

/-- `stat` is called on the vnode found, which is referenced. -/
def do_stat (l : Log σ) (path : Name) : Log σ × Except Errno Unit :=
  if path.length > L.MAXPATHLEN then (l, .error .ENAMETOOLONG)
  else if path.length = 0 then (l, .error .EINVAL)
  else
    match dir_namev L F cwd root l path with
    | (l, .error e) => (l, .error e)
    | (l, .ok (dir, name)) =>
      match lookup L F (l.put dir) dir name with
      | (l, .error _) => (l, .error .ENOENT)
      | (l, .ok v) =>
        let (fs, r) := (F.stat l.fs v).getD (l.fs, .ok ())
        ({ l with fs := fs }.put v, r)

end

/-! ## What is passed on -/

/-- The directories a walk looks up in. -/
def walked (L : Limits) (T : Tree) (base : Nat) (acc : Name) : Name → List Nat
  | [] => []
  | c :: cs =>
    if c = '/' then
      base :: match T.find L base acc.reverse with
        | .error _ => []
        | .ok v => walked L T v [] cs
    else walked L T base (c :: acc) cs

/-- The directories a path leads through, up to the parent of what it names. -/
def above (L : Limits) (T : Tree) (cwd root : Nat) (path : Name) : List Nat :=
  if path.length > L.MAXPATHLEN then []
  else
    match path with
    | [] => []
    | c :: cs => if c = '/' then walked L T root [] cs else walked L T cwd [] (c :: cs)

variable {L : Limits} {F : VnodeOps σ} {cwd root : Nat} {l l' : Log σ} {held : Set Nat} {ds : List Nat}

/-- The reference to a vnode that was found. -/
def got {α : Type} (f : α → Nat) : Except Errno α → Nat → Int
  | .ok a, v => if v = f a then 1 else 0
  | .error _, _ => 0

/-- Between two states of the log; see `Borrows.Extends`. -/
def Passes (held : Set Nat) (l l' : Log σ) (ds : List Nat) (δ : Nat → Int) : Prop :=
  Borrows.Extends held l.accesses l'.accesses ds δ

/-- The directories a path leads through, with the parent of what it names. -/
def through (L : Limits) (T : Tree) (cwd root : Nat) (path : Name) : List Nat :=
  above L T cwd root path ++ ((T.parent L cwd root path).toOption.map Prod.fst).toList

/-- The last directory is passed on a second time. -/
theorem mem_through {path name : Name} {dir : Nat} {T : Tree} (hp : T.parent L cwd root path = .ok (dir, name)) :
    dir ∈ through L T cwd root path := by
  simp [through, hp, Except.toOption]

/-- A path that is refused leads nowhere. -/
theorem through_refused {path : Name} {T : Tree} (h : path.length > L.MAXPATHLEN ∨ path.length = 0) :
    through L T cwd root path = [] := by
  rcases h with h | h
  · simp [through, above, Tree.parent, h, Except.toOption]
  · obtain rfl := List.length_eq_zero_iff.1 h
    simp [through, above, Tree.parent, Except.toOption]

theorem refl_through {path : Name} (l : Log σ) (h : path.length > L.MAXPATHLEN ∨ path.length = 0) :
    Passes held l l (through L (F.tree l.fs) cwd root path) fun _ => 0 := by
  rw [through_refused h]
  exact .refl held l.accesses

section
variable (L F held cwd root)

/-- `lookup` passes its directory on. -/
theorem lookup_passes (l : Log σ) (dir : Nat) (name : Name) : ∃ l₁,
    lookup L F l dir name = (l₁, (F.tree l.fs).find L dir name) ∧ l₁.fs = l.fs ∧
      Passes held l l₁ [dir] (got id ((F.tree l.fs).find L dir name)) := by
  have h : Passes held l (l.use dir) [dir] fun _ => 0 := (Borrows.Extends.refl held l.accesses).use rfl
  simp only [lookup, Log.found]
  cases (F.tree l.fs).find L dir name with
  | error e => exact ⟨_, rfl, rfl, h⟩
  | ok v => exact ⟨_, rfl, rfl, (h.get v).congr fun u => by simp [got]⟩

theorem walk_passes (l : Log σ) (base : Nat) (acc cs : Name) : ∃ l₁,
    walk L F l base acc cs = (l₁, (F.tree l.fs).last L base acc cs) ∧ l₁.fs = l.fs ∧
      Passes held l l₁ (walked L (F.tree l.fs) base acc cs) (got Prod.fst ((F.tree l.fs).last L base acc cs)) := by
  induction cs generalizing base acc l with
  | nil =>
    simp only [walk, Tree.last, walked, Log.get_fs]
    split
    · exact ⟨l, rfl, rfl, .refl held l.accesses⟩
    · have h := (Borrows.Extends.refl held l.accesses).get base
      by_cases hd : (F.tree l.fs).isDir base = true
      · simp only [hd, Bool.not_true, Bool.false_eq_true, if_false]
        exact ⟨_, rfl, rfl, h.congr fun u => by simp [got]⟩
      · simp only [hd, Bool.not_false, if_true]
        exact ⟨_, rfl, rfl, (h.put base).congr fun u => by simp only [got]; split <;> rfl⟩
  | cons c cs ih =>
    simp only [walk, Tree.last, walked]
    split
    · obtain ⟨l₁, hl, hfs, h⟩ := lookup_passes L F held l base acc.reverse
      rw [hl]
      cases hf : (F.tree l.fs).find L base acc.reverse with
      | error e =>
        rw [hf] at h
        exact ⟨l₁, rfl, hfs, h⟩
      | ok v =>
        rw [hf] at h
        -- the reference is put at once
        have hput : Passes held l (l₁.put v) [base] fun _ => 0 := (h.put v).congr fun u => by
          simp only [got, id_eq]; split <;> rfl
        obtain ⟨l₂, h2, hfs₂, h3⟩ := ih (l₁.put v) v []
        rw [Log.put_fs, hfs] at h2 hfs₂ h3
        exact ⟨l₂, h2, hfs₂, (hput.trans h3 fun _ _ => rfl).congr fun u => Int.zero_add _⟩
    · exact ih l base (c :: acc)

theorem dir_namev_passes (l : Log σ) (path : Name) : ∃ l₁,
    dir_namev L F cwd root l path = (l₁, (F.tree l.fs).parent L cwd root path) ∧ l₁.fs = l.fs ∧
      Passes held l l₁ (above L (F.tree l.fs) cwd root path) (got Prod.fst ((F.tree l.fs).parent L cwd root path)) := by
  simp only [dir_namev, Tree.parent, above]
  split
  · exact ⟨l, rfl, rfl, .refl held l.accesses⟩
  · cases path with
    | nil => exact ⟨l, rfl, rfl, .refl held l.accesses⟩
    | cons c cs =>
      dsimp only
      split
      · exact walk_passes L F held l root [] cs
      · exact walk_passes L F held l cwd [] (c :: cs)

/-- The last component is looked up in a directory that has been put. -/
theorem last_passes {path name : Name} {dir : Nat} (l : Log σ) (hp : (F.tree l.fs).parent L cwd root path = .ok (dir, name)) :
    ∃ l₁ l₂, dir_namev L F cwd root l path = (l₁, .ok (dir, name)) ∧
      lookup L F (l₁.put dir) dir name = (l₂, (F.tree l.fs).find L dir name) ∧ l₂.fs = l.fs ∧
      Passes held l l₂ (through L (F.tree l.fs) cwd root path) (got id ((F.tree l.fs).find L dir name)) := by
  obtain ⟨l₁, h1, hfs, h⟩ := dir_namev_passes L F cwd root held l path
  obtain ⟨l₂, h2, hfs₂, h3⟩ := lookup_passes L F held (l₁.put dir) dir name
  rw [Log.put_fs, hfs] at h2 hfs₂ h3
  rw [hp] at h1 h
  have hput : Passes held l (l₁.put dir) (above L (F.tree l.fs) cwd root path) fun _ => 0 := (h.put dir).congr fun u => by
    simp only [got]; split <;> rfl
  refine ⟨l₁, l₂, h1, h2, hfs₂, ?_⟩
  simp only [through, hp, Except.toOption, Option.map_some, Option.toList_some]
  exact (hput.trans h3 fun _ _ => rfl).congr fun u => Int.zero_add _

/-- And when there is no such directory, nothing else is passed on. -/
theorem no_parent_passes {path : Name} {e : Errno} (l : Log σ) (hp : (F.tree l.fs).parent L cwd root path = .error e) :
    ∃ l₁, dir_namev L F cwd root l path = (l₁, .error e) ∧ l₁.fs = l.fs ∧
      Passes held l l₁ (through L (F.tree l.fs) cwd root path) fun _ => 0 := by
  obtain ⟨l₁, h1, hfs, h⟩ := dir_namev_passes L F cwd root held l path
  rw [hp] at h1 h
  refine ⟨l₁, h1, hfs, ?_⟩
  simp only [through, hp, Except.toOption, Option.map_none, Option.toList_none, List.append_nil]
  exact h

theorem open_namev_passes (l : Log σ) (path : Name) : ∃ l₁,
    open_namev L F cwd root l path false = (l₁, (F.tree l.fs).named L cwd root path) ∧ l₁.fs = l.fs ∧
      Passes held l l₁ (through L (F.tree l.fs) cwd root path) (got id ((F.tree l.fs).named L cwd root path)) := by
  unfold open_namev
  split
  next h =>
    have hn : (F.tree l.fs).named L cwd root path = .error .ENAMETOOLONG := by simp [Tree.named, Tree.parent, h]
    rw [hn]
    exact ⟨l, rfl, rfl, refl_through l (.inl h)⟩
  next =>
    split
    next h =>
      have hn : (F.tree l.fs).named L cwd root path = .error .EINVAL := by
        obtain rfl := List.length_eq_zero_iff.1 h
        simp [Tree.named, Tree.parent]
      rw [hn]
      exact ⟨l, rfl, rfl, refl_through l (.inr h)⟩
    next =>
      cases hp : (F.tree l.fs).parent L cwd root path with
      | error e =>
        obtain ⟨l₁, h1, hfs, h⟩ := no_parent_passes L F cwd root held l hp
        have hn : (F.tree l.fs).named L cwd root path = .error e := by simp [Tree.named, hp]
        rw [h1, hn]
        exact ⟨l₁, rfl, hfs, h⟩
      | ok dn =>
        obtain ⟨l₁, l₂, h1, h2, hfs, h⟩ := last_passes L F cwd root held l hp
        have hn : (F.tree l.fs).named L cwd root path = (F.tree l.fs).find L dn.1 dn.2 := by simp [Tree.named, hp]
        rw [h1, hn]
        refine ⟨l₂, ?_, hfs, h⟩
        simp only [h2]
        cases (F.tree l.fs).find L dn.1 dn.2 with
        | ok v => rfl
        | error e => cases e <;> rfl

end

/-- Every call on one path passes on the directories the path leads through. -/
def PathPasses (held : Set Nat) (l l' : Log σ) (ds : List Nat) : Prop := ∃ δ, Passes held l l' ds δ

/-- A call that looks up the last component, and goes on with what is found. -/
theorem path_passes {β : Type} (l : Log σ) {path : Name} {g : Log σ × Except Errno β}
    (herr : ∀ l₁ e, dir_namev L F cwd root l path = (l₁, .error e) → g = (l₁, .error e))
    (hok : ∀ l₁ l₂ dir name r, dir_namev L F cwd root l path = (l₁, .ok (dir, name)) →
      lookup L F (l₁.put dir) dir name = (l₂, r) → Passes held l l₂ (through L (F.tree l.fs) cwd root path) (got id r) →
      dir ∈ through L (F.tree l.fs) cwd root path → PathPasses held l g.1 (through L (F.tree l.fs) cwd root path)) :
    PathPasses held l g.1 (through L (F.tree l.fs) cwd root path) := by
  cases hp : (F.tree l.fs).parent L cwd root path with
  | error e =>
    obtain ⟨l₁, h1, -, h⟩ := no_parent_passes L F cwd root held l hp
    rw [herr l₁ e h1]
    exact ⟨_, h⟩
  | ok dn =>
    obtain ⟨l₁, l₂, h1, h2, -, h⟩ := last_passes L F cwd root held l hp
    exact hok l₁ l₂ dn.1 dn.2 _ h1 h2 h (mem_through hp)

/-- An operation on the directory, after the lookup has found nothing. -/
theorem again {l₂ : Log σ} {dir : Nat} {e : Errno} {ds : List Nat} (h : Passes held l l₂ ds (got id (.error e)))
    (hd : dir ∈ ds) : Passes held l (l₂.use dir) ds fun _ => 0 :=
  (h.use (b := dir) rfl).congr_mem (by simp [hd])

theorem open_creat_passes (l : Log σ) (path : Name) :
    PathPasses held l (open_namev L F cwd root l path true).1 (through L (F.tree l.fs) cwd root path) := by
  unfold open_namev
  split
  next h => exact ⟨_, refl_through l (.inl h)⟩
  next =>
    split
    next h => exact ⟨_, refl_through l (.inr h)⟩
    next =>
      apply path_passes l
      · intro l₁ e h1
        rw [h1]
      · intro l₁ l₂ dir name r h1 h2 h hd
        simp only [h1, h2]
        cases r with
        | ok v => exact ⟨_, h⟩
        | error e =>
          cases e with
          | ENOENT =>
            simp only [if_true, Log.found]
            split
            next => exact ⟨_, (again h hd).get _⟩
            next => exact ⟨_, again h hd⟩
          | _ => exact ⟨_, h⟩

theorem do_mknod_passes (l : Log σ) (path : Name) {mode : Mode} (devid : Nat) (hm : mode = ⟨.chr, 0⟩ ∨ mode = ⟨.blk, 0⟩) :
    PathPasses held l (do_mknod L F cwd root l path mode devid).1 (through L (F.tree l.fs) cwd root path) := by
  unfold do_mknod
  rw [if_neg (by tauto)]
  split
  next h => exact ⟨_, refl_through l (.inl h)⟩
  next =>
    split
    next h => exact ⟨_, refl_through l (.inr h)⟩
    next =>
      apply path_passes l
      · intro l₁ e h1
        rw [h1]
      · intro l₁ l₂ dir name r h1 h2 h hd
        simp only [h1, h2]
        cases r with
        | ok v => exact ⟨_, h.put v⟩
        | error e =>
          cases e with
          | ENOENT => exact ⟨_, again h hd⟩
          | _ => exact ⟨_, h⟩

theorem do_mkdir_passes (l : Log σ) (path : Name) :
    PathPasses held l (do_mkdir L F cwd root l path).1 (through L (F.tree l.fs) cwd root path) := by
  unfold do_mkdir
  split
  next h => exact ⟨_, refl_through l (.inl h)⟩
  next =>
    split
    next h => exact ⟨_, refl_through l (.inr h)⟩
    next =>
      apply path_passes l
      · intro l₁ e h1
        rw [h1]
      · intro l₁ l₂ dir name r h1 h2 h hd
        simp only [h1, h2]
        cases r with
        | ok v => exact ⟨_, h.put v⟩
        | error e =>
          cases e with
          | ENOENT => exact ⟨_, again h hd⟩
          | _ => exact ⟨_, h⟩

theorem do_stat_passes (l : Log σ) (path : Name) :
    PathPasses held l (do_stat L F cwd root l path).1 (through L (F.tree l.fs) cwd root path) := by
  unfold do_stat
  split
  next h => exact ⟨_, refl_through l (.inl h)⟩
  next =>
    split
    next h => exact ⟨_, refl_through l (.inr h)⟩
    next =>
      apply path_passes l
      · intro l₁ e h1
        rw [h1]
      · intro l₁ l₂ dir name r h1 h2 h hd
        simp only [h1, h2]
        cases r with
        | ok v => exact ⟨_, h.put v⟩
        | error e => exact ⟨_, h⟩

/-! ## Links -/

/-- The file is referenced while the new name is walked; its directory is not. -/
def LinkPasses (held : Set Nat) (L : Limits) (T : Tree) (cwd root : Nat) («from» «to» : Name) : Prop :=
  «to».length > L.MAXPATHLEN ∨ «to».length = 0 ∨
    ((∀ d ∈ through L T cwd root «from», d ∈ held) ∧
      ∀ f, T.named L cwd root «from» = .ok f → T.isDir f = false →
        (∀ d ∈ above L T cwd root «to», d ∈ held ∨ d = f) ∧
        ∀ dir name, T.parent L cwd root «to» = .ok (dir, name) → dir ∈ held)

theorem last_isDir {T : Tree} {base dir : Nat} {acc cs name : Name} (h : T.last L base acc cs = .ok (dir, name)) :
    T.isDir dir = true := by
  by_contra hd
  induction cs generalizing base acc with
  | nil =>
    simp only [Tree.last] at h
    split at h
    · cases h
    · split at h
      · cases h
      · simp_all
  | cons c cs ih =>
    simp only [Tree.last] at h
    split at h
    · split at h
      · cases h
      · exact ih h
    · exact ih h

theorem parent_isDir {T : Tree} {path name : Name} {dir : Nat} (h : T.parent L cwd root path = .ok (dir, name)) :
    T.isDir dir = true := by
  simp only [Tree.parent] at h
  split at h
  · cases h
  · split at h
    · cases h
    · split at h
      · exact last_isDir h
      · exact last_isDir h

theorem own_put (l : Log σ) (v u : Nat) : own (l.put v).accesses u = own l.accesses u + if u = v then -1 else 0 :=
  Borrows.own_snoc

theorem disciplined_put (l : Log σ) (v : Nat) : Disciplined held (l.put v).accesses ↔ Disciplined held l.accesses := by
  simp [Log.put, Borrows.disciplined_snoc]

theorem disciplined_use (l : Log σ) (v : Nat) : Disciplined held (l.use v).accesses ↔
    Disciplined held l.accesses ∧ (v ∈ held ∨ 0 < own l.accesses v) := by
  simp [Log.use, Borrows.disciplined_snoc]

/-- The two rules at the start of a log. -/
theorem Passes.start {fs : σ} {δ : Nat → Int} (h : Passes held ⟨fs, []⟩ l' ds δ) :
    (∀ v, own l'.accesses v = δ v) ∧ (Disciplined held l'.accesses ↔ ∀ d ∈ ds, d ∈ held) := by
  refine ⟨fun v => (h.own v).trans (Int.zero_add _), h.disciplined.trans ?_⟩
  simp

/-- A path with a length that is refused is not followed. -/
theorem do_link_refused (l : Log σ) («from» «to» : Name)
    (h : («from».length > L.MAXPATHLEN ∨ «from».length = 0) ∨ «to».length > L.MAXPATHLEN ∨ «to».length = 0) :
    (do_link L F cwd root l «from» «to»).1 = l := by
  unfold do_link
  iterate 4
    split
    · rfl
  tauto

theorem named_length {T : Tree} {path : Name} {f : Nat} (h : T.named L cwd root path = .ok f) :
    ¬ (path.length > L.MAXPATHLEN ∨ path.length = 0) := by
  intro hl
  unfold Tree.named at h
  cases hp : T.parent L cwd root path with
  | error e => simp [hp] at h
  | ok dn =>
    have := parent_length hp
    tauto

/-- The last part of `link`: both references have been put, the name is looked
up in `dir` and, when it is free, linked there. -/
theorem link_entry_disciplined {l : Log σ} {f dir : Nat} {name : Name} (hne : dir ≠ f) (hown : own l.accesses dir = 0) :
    Disciplined held (match lookup L F l dir name with
      | (l, .ok v) => ((l.put f).put v, .error .EEXIST)
      | (l, .error .ENOENT) =>
        let l := (l.put f).use dir
        let (fs, r) := F.link l.fs f dir name
        ({ l with fs := fs }, r)
      | (l, .error e) => (l.put f, .error e) : Log σ × Except Errno Unit).1.accesses ↔
      Disciplined held l.accesses ∧ dir ∈ held := by
  obtain ⟨l₃, h3, -, hl⟩ := lookup_passes L F held l dir name
  have hdisc : Disciplined held l₃.accesses ↔ Disciplined held l.accesses ∧ dir ∈ held := by
    rw [hl.disciplined]
    simp [hown]
  rw [← hdisc]
  simp only [h3]
  cases hfind : (F.tree l.fs).find L dir name with
  | ok v => simp [disciplined_put]
  | error e =>
    rw [hfind] at hl
    have hown₃ : own (l₃.put f).accesses dir = 0 := by
      rw [own_put, hl.own, hown]
      simp [got, hne]
    cases e with
    | ENOENT =>
      simp only [disciplined_use, disciplined_put, hown₃]
      rw [hdisc]
      tauto
    | _ => simp [disciplined_put]

theorem do_link_disciplined (fs : σ) («from» «to» : Name) :
    Disciplined held (do_link L F cwd root ⟨fs, []⟩ «from» «to»).1.accesses ↔
      LinkPasses held L (F.tree fs) cwd root «from» «to» := by
  have hnil : Disciplined held ([] : List (Access Nat)) := Borrows.disciplined_nil
  by_cases hlt : «to».length > L.MAXPATHLEN ∨ «to».length = 0
  · refine iff_of_true ?_ (by unfold LinkPasses; tauto)
    rwa [do_link_refused _ _ _ (.inr hlt)]
  rw [LinkPasses, ← or_assoc, or_iff_right hlt]
  by_cases hlf : «from».length > L.MAXPATHLEN ∨ «from».length = 0
  · refine iff_of_true ?_ ⟨by simp [through_refused hlf], fun f hf => absurd hlf (named_length hf)⟩
    rwa [do_link_refused _ _ _ (.inl hlf)]
  rw [not_or] at hlt hlf
  obtain ⟨l₁, h1, hfs, h⟩ := open_namev_passes L F cwd root held ⟨fs, []⟩ «from»
  simp only [do_link, if_neg hlf.1, if_neg hlf.2, if_neg hlt.1, if_neg hlt.2, h1]
  cases hf : (F.tree fs).named L cwd root «from» with
  | error e => simp [h.start.2]
  | ok f =>
    rw [hf] at h
    simp only [Except.ok.injEq, forall_eq', hfs]
    by_cases hdir : (F.tree fs).isDir f = true
    · simp [hdir, h.start.2]
    rw [Bool.not_eq_true] at hdir
    simp only [hdir, Bool.false_eq_true, if_false, forall_const]
    -- the walk of the new name, with the reference to the file
    obtain ⟨l₂, h2, hfs₂, hw⟩ := dir_namev_passes L F cwd root held l₁ «to»
    rw [hfs] at h2 hfs₂ hw
    have hown₁ (d : Nat) : 0 < own l₁.accesses d ↔ d = f := by
      rw [h.start.1]
      simp only [got, id_eq]
      split <;> simp_all
    have hdisc : Disciplined held l₂.accesses ↔ (∀ d ∈ through L (F.tree fs) cwd root «from», d ∈ held) ∧
        ∀ d ∈ above L (F.tree fs) cwd root «to», d ∈ held ∨ d = f := by
      rw [hw.disciplined, h.start.2]
      simp only [hown₁]
    rw [h2]
    cases hp : (F.tree fs).parent L cwd root «to» with
    | error e => simp [disciplined_put, hdisc]
    | ok dn =>
      obtain ⟨dir, name⟩ := dn
      rw [hp] at hw
      have hne : dir ≠ f := by
        rintro rfl
        simp [parent_isDir hp] at hdir
      have hown₂ : own ((l₂.put f).put dir).accesses dir = 0 := by
        rw [own_put, own_put, hw.own, h.start.1]
        simp [got, hne]
      have hall : (∀ dir' name', Except.ok (ε := Errno) (dir, name) = .ok (dir', name') → dir' ∈ held) ↔ dir ∈ held := by
        simp
      rw [hall, ← and_assoc, ← hdisc]
      refine (link_entry_disciplined hne hown₂).trans ?_
      rw [disciplined_put, disciplined_put]

/-! ## All calls -/

inductive LoggedCall
  | dir_namev (pathname : Name)
  | open_namev (pathname : Name) (creat : Bool)
  | do_mknod (path : Name) (mode : Mode) (devid : Nat)
  | do_mkdir (path : Name)
  | do_link («from» «to» : Name)
  | do_stat (path : Name)
  deriving DecidableEq

/-- The log after a call. -/
def LoggedCall.run (L : Limits) (F : VnodeOps σ) (cwd root : Nat) (l : Log σ) : LoggedCall → Log σ
  | .dir_namev pathname => (Logged.dir_namev L F cwd root l pathname).1
  | .open_namev pathname creat => (Logged.open_namev L F cwd root l pathname creat).1
  | .do_mknod path mode devid => (Logged.do_mknod L F cwd root l path mode devid).1
  | .do_mkdir path => (Logged.do_mkdir L F cwd root l path).1
  | .do_link «from» «to» => (Logged.do_link L F cwd root l «from» «to»).1
  | .do_stat path => (Logged.do_stat L F cwd root l path).1

/-- The path leads only through directories that others hold. -/
def LoggedCall.Ok (held : Set Nat) (L : Limits) (T : Tree) (cwd root : Nat) : LoggedCall → Prop
  | .dir_namev pathname => ∀ d ∈ above L T cwd root pathname, d ∈ held
  | .open_namev path _ | .do_mkdir path | .do_stat path => ∀ d ∈ through L T cwd root path, d ∈ held
  | .do_mknod path mode _ => (mode = ⟨.chr, 0⟩ ∨ mode = ⟨.blk, 0⟩) → ∀ d ∈ through L T cwd root path, d ∈ held
  | .do_link «from» «to» => LinkPasses held L T cwd root «from» «to»

/-- `/d/x` is to be made in `/d`, which is put before it is looked up in and passed
to `mkdir`; only the root is held by others. -/
theorem mkdir_uses_put_directory :
    ((LoggedCall.do_mkdir "/d/x".toList).run stock flatOps 0 0 ⟨oneFile.fs, []⟩).accesses =
      [.use 0, .get 1, .put 1, .get 1, .put 1, .use 1, .use 1] ∧
    ¬ Disciplined {0} ((LoggedCall.do_mkdir "/d/x".toList).run stock flatOps 0 0 ⟨oneFile.fs, []⟩).accesses := by
  have h : ((LoggedCall.do_mkdir "/d/x".toList).run stock flatOps 0 0 ⟨oneFile.fs, []⟩).accesses =
      [.use 0, .get 1, .put 1, .get 1, .put 1, .use 1, .use 1] := by
    decide +kernel
  refine ⟨h, fun hd => ?_⟩
  rw [h] at hd
  have := hd [.use 0, .get 1, .put 1, .get 1, .put 1] 1 [.use 1] rfl
  simp [own, Access.delta] at this

theorem PathPasses.start {fs : σ} (h : PathPasses held ⟨fs, []⟩ l' ds) : Disciplined held l'.accesses ↔ ∀ d ∈ ds, d ∈ held := by
  obtain ⟨δ, h⟩ := h
  exact h.start.2

/-- Whatever vnodes others hold, a call passes on only directories that are
referenced exactly when it is `Ok`. -/
theorem calls_disciplined (held : Set Nat) (fs : σ) (c : LoggedCall) :
    Disciplined held (c.run L F cwd root ⟨fs, []⟩).accesses ↔ c.Ok held L (F.tree fs) cwd root := by
  cases c with
  | dir_namev path =>
    obtain ⟨l₁, h1, -, h⟩ := dir_namev_passes L F cwd root held ⟨fs, []⟩ path
    rw [LoggedCall.run, h1]
    exact h.start.2
  | open_namev path creat =>
    cases creat with
    | false =>
      obtain ⟨l₁, h1, -, h⟩ := open_namev_passes L F cwd root held ⟨fs, []⟩ path
      rw [LoggedCall.run, h1]
      exact h.start.2
    | true => exact (open_creat_passes ⟨fs, []⟩ path).start
  | do_mknod path mode devid =>
    by_cases hm : mode = ⟨.chr, 0⟩ ∨ mode = ⟨.blk, 0⟩
    · rw [LoggedCall.Ok, imp_iff_right hm]
      exact (do_mknod_passes ⟨fs, []⟩ path devid hm).start
    · rw [LoggedCall.Ok, LoggedCall.run, do_mknod, if_pos (by tauto)]
      exact iff_of_true Borrows.disciplined_nil fun h => absurd h hm
  | do_mkdir path => exact (do_mkdir_passes ⟨fs, []⟩ path).start
  | do_link «from» «to» => exact do_link_disciplined fs «from» «to»
  | do_stat path => exact (do_stat_passes ⟨fs, []⟩ path).start

end Weenix.Vfs.Logged
