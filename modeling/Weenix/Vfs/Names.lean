import Weenix.Basic
import Mathlib.Logic.Function.Basic
/-!
# Path names in vfs-submit (`namev.c`, `vnode.c`)

Vnodes are numbers. `refs` has the reference count of each, 0 for a vnode that
is not in memory; no pages are cached. A vnode that was put for the last time is
still read by the code, and is as it was. The operations of the file system are
not part of the sources; they are the fields of an `Fs`.
-/

namespace Weenix.Vfs

abbrev Name := List Char

structure Limits where
  MAXPATHLEN : Nat
  NAME_LEN : Nat

/-- What the file system says about vnodes: `S_ISDIR(vn_mode)`, whether there is
a `lookup` operation, and what it finds. -/
structure Tree where
  isDir : Nat → Bool
  hasLookup : Nat → Bool
  lookup : Nat → Name → Except Errno Nat

/-- A file system. `create`, `link` and `unlink` may change its state `σ`. -/
structure Fs (σ : Type) where
  tree : σ → Tree
  create : σ → Nat → Name → σ × Except Errno Nat
  link : σ → Nat → Nat → Name → σ × Except Errno Unit
  unlink : σ → Nat → Name → σ × Except Errno Unit

/-- The `S_IFMT` bits of a mode: `S_IFCHR`, `S_IFBLK`, or another type of file. -/
inductive Format
  | chr | blk | other
  deriving DecidableEq

/-- A `mode` argument; `rest` has its other bits. -/
structure Mode where
  fmt : Format
  rest : Nat
  deriving DecidableEq

/-- The operations of the other path calls. What `stat` stores is left out; a
vnode may have no `stat`. -/
structure VnodeOps (σ : Type) extends Fs σ where
  mknod : σ → Nat → Name → Mode → Nat → σ × Except Errno Unit
  mkdir : σ → Nat → Name → σ × Except Errno Unit
  rmdir : σ → Nat → Name → σ × Except Errno Unit
  stat : σ → Nat → Option (σ × Except Errno Unit)

structure State (σ : Type) where
  fs : σ
  refs : Nat → Nat

variable {σ : Type}

namespace State

def vget (s : State σ) (v : Nat) : State σ := { s with refs := Function.update s.refs v (s.refs v + 1) }

/-- The count may not be 0. -/
def vput (s : State σ) (v : Nat) : Option (State σ) := do
  KASSERT (0 < s.refs v)
  some { s with refs := Function.update s.refs v (s.refs v - 1) }

/-- The vnode found is referenced. -/
def held (s : State σ) (r : Except Errno Nat) : State σ × Except Errno Nat :=
  match r with
  | .ok v => (s.vget v, r)
  | .error _ => (s, r)

end State

section
variable (L : Limits) (F : Fs σ) (cwd root : Nat)

/-- What `lookup` finds. -/
def Tree.find (T : Tree) (dir : Nat) (name : Name) : Except Errno Nat :=
  if !T.isDir dir || !T.hasLookup dir then .error .ENOTDIR
  else if name.length > L.NAME_LEN then .error .ENAMETOOLONG
  else if name = [] then .ok dir
  else T.lookup dir name

def lookup (s : State σ) (dir : Nat) (name : Name) : State σ × Except Errno Nat :=
  s.held ((F.tree s.fs).find L dir name)

/-- The loop of `dir_namev`; `acc` has the characters of the current component, last first. -/
def walk (s : State σ) (base : Nat) (acc : Name) : Name → Option (State σ × Except Errno (Nat × Name))
  | [] =>
    if acc.length > L.NAME_LEN then some (s, .error .ENAMETOOLONG)
    else
      let s := s.vget base
      if !(F.tree s.fs).isDir base then do
        let s ← s.vput base
        some (s, .error .ENOTDIR)
      else some (s, .ok (base, acc.reverse))
  | c :: cs =>
    if c = '/' then
      match lookup L F s base acc.reverse with
      | (s, .error e) => some (s, .error e)
      | (s, .ok v) => do
        let s ← s.vput v
        walk s v [] cs
    else walk s base (c :: acc) cs

/-- The base is the working directory, or the root of the file system. -/
def dir_namev (s : State σ) (pathname : Name) : Option (State σ × Except Errno (Nat × Name)) :=
  if pathname.length > L.MAXPATHLEN then some (s, .error .ENAMETOOLONG)
  else
    match pathname with
    | [] => some (s, .error .EINVAL)
    | c :: cs => if c = '/' then walk L F s root [] cs else walk L F s cwd [] (c :: cs)

/-- `creat` is the flag `O_CREAT`. -/
def open_namev (s : State σ) (pathname : Name) (creat : Bool) : Option (State σ × Except Errno Nat) :=
  if pathname.length > L.MAXPATHLEN then some (s, .error .ENAMETOOLONG)
  else if pathname.length = 0 then some (s, .error .EINVAL)
  else do
    match ← dir_namev L F cwd root s pathname with
    | (s, .error e) => some (s, .error e)
    | (s, .ok (dir, name)) => do
      let s ← s.vput dir
      match lookup L F s dir name with
      | (s, .error .ENOENT) =>
        if creat then
          let (fs, r) := F.create s.fs dir name
          some ({ s with fs := fs }.held r)
        else some (s, .error .ENOENT)
      | r => some r

end

/-! ## What a path names -/

namespace Tree
variable (L : Limits) (cwd root : Nat)

/-- The directory and the last component of what is left of a path. -/
def last (T : Tree) (base : Nat) (acc : Name) : Name → Except Errno (Nat × Name)
  | [] =>
    if acc.length > L.NAME_LEN then .error .ENAMETOOLONG
    else if !T.isDir base then .error .ENOTDIR
    else .ok (base, acc.reverse)
  | c :: cs =>
    if c = '/' then
      match T.find L base acc.reverse with
      | .error e => .error e
      | .ok v => last T v [] cs
    else last T base (c :: acc) cs

def parent (T : Tree) (path : Name) : Except Errno (Nat × Name) :=
  if path.length > L.MAXPATHLEN then .error .ENAMETOOLONG
  else
    match path with
    | [] => .error .EINVAL
    | c :: cs => if c = '/' then T.last L root [] cs else T.last L cwd [] (c :: cs)

/-- The vnode a path names. -/
def named (T : Tree) (path : Name) : Except Errno Nat :=
  match T.parent L cwd root path with
  | .error e => .error e
  | .ok (dir, name) => T.find L dir name

/-- The tree with another entry for `name` in `dir`. -/
def set (T : Tree) (dir : Nat) (name : Name) (r : Except Errno Nat) : Tree :=
  { T with lookup := fun d n => if d = dir ∧ n = name then r else T.lookup d n }

end Tree

namespace State

@[simp] theorem vget_vput (s : State σ) (v : Nat) : (s.vget v).vput v = some s := by
  simp [vget, vput, KASSERT, Function.update_idem]

@[simp] theorem vget_fs (s : State σ) (v : Nat) : (s.vget v).fs = s.fs := rfl

theorem vget_comm (s : State σ) (v u : Nat) : (s.vget v).vget u = (s.vget u).vget v := by
  by_cases h : v = u
  · rw [h]
  · simp only [vget, Function.update_of_ne h, Function.update_of_ne (Ne.symm h)]
    rw [Function.update_comm h]

end State

variable {L : Limits} {F : Fs σ} {cwd root : Nat}

/-- A walk references the directory it finds, and nothing else. -/
theorem walk_eq (s : State σ) (base : Nat) (acc cs : Name) :
    walk L F s base acc cs = some (match (F.tree s.fs).last L base acc cs with
      | .ok (dir, name) => (s.vget dir, .ok (dir, name))
      | .error e => (s, .error e)) := by
  induction cs generalizing base acc s with
  | nil =>
    simp only [walk, Tree.last, State.vget_fs]
    split
    · rfl
    · by_cases hd : (F.tree s.fs).isDir base = true <;> simp [hd]
  | cons c cs ih =>
    simp only [walk, Tree.last]
    split
    · simp only [lookup, State.held]
      cases h : (F.tree s.fs).find L base acc.reverse with
      | error e => simp
      | ok v => simp [ih]
    · exact ih s base (c :: acc)

theorem dir_namev_eq (s : State σ) (path : Name) :
    dir_namev L F cwd root s path = some (match (F.tree s.fs).parent L cwd root path with
      | .ok (dir, name) => (s.vget dir, .ok (dir, name))
      | .error e => (s, .error e)) := by
  simp only [dir_namev, Tree.parent]
  split
  · rfl
  · cases path with
    | nil => rfl
    | cons c cs =>
      dsimp only
      split
      · exact walk_eq s root [] cs
      · exact walk_eq s cwd [] (c :: cs)

theorem open_namev_eq (s : State σ) (path : Name) :
    open_namev L F cwd root s path false = some (s.held ((F.tree s.fs).named L cwd root path)) := by
  simp only [open_namev, Tree.named, dir_namev_eq]
  split
  · next h => simp [Tree.parent, h, State.held]
  · split
    · next h =>
      obtain rfl := List.length_eq_zero_iff.1 h
      simp [Tree.parent, State.held]
    · cases (F.tree s.fs).parent L cwd root path with
      | error e => rfl
      | ok dn =>
        simp only [bind, Option.bind_some, State.vget_vput, lookup]
        cases h : (F.tree s.fs).find L dn.1 dn.2 with
        | ok v => simp [State.held]
        | error e => cases e <;> simp [State.held]

/-! ## What a call leaves -/

/-- The call returns, and what it returns meets `P`. -/
def Returns {α : Type} (x : Option α) (P : α → Prop) : Prop := ∃ y, x = some y ∧ P y

/-- The call returns with every count as it was. -/
def Kept {α : Type} (s : State σ) (x : Option (State σ × α)) : Prop := Returns x fun y => y.1.refs = s.refs

/-- The one reference of a holder of `v`, among the references to `u`. -/
def oneRef (v u : Nat) : Nat := if u = v then 1 else 0

theorem oneRef_self (v : Nat) : oneRef v v = 1 := if_pos rfl

@[simp] theorem returns_some {α : Type} {y : α} {P : α → Prop} : Returns (some y) P ↔ P y := by simp [Returns]

@[simp] theorem returns_none {α : Type} {P : α → Prop} : ¬ Returns none P := by simp [Returns]

/-- The file system's own step does not touch the references. -/
theorem vput_with_fs (s : State σ) (v : Nat) (fs : σ) : State.vput { s.vget v with fs := fs } v = some { s with fs := fs } :=
  State.vget_vput { s with fs := fs } v

theorem vput_refs {s s' : State σ} {v : Nat} (h : s.vput v = some s') (u : Nat) : s'.refs u + oneRef v u = s.refs u := by
  simp only [State.vput, bind, Option.bind_eq_some_iff, KASSERT_eq_some, Option.some.injEq] at h
  obtain ⟨-, hpos, rfl⟩ := h
  simp only [oneRef, Function.update_apply]
  split
  next e => rw [e]; omega
  next => rfl

theorem vput_some {s : State σ} {v : Nat} (h : 0 < s.refs v) : ∃ s', s.vput v = some s' :=
  ⟨_, by simp only [State.vput, KASSERT, if_pos h]; rfl⟩

theorem vget_refs (s : State σ) (v u : Nat) : (s.vget v).refs u = s.refs u + oneRef v u := by
  simp only [State.vget, oneRef, Function.update_apply]
  split
  next e => rw [e]
  next => rfl

/-! ## Changes of a tree -/

namespace Tree
variable {T : Tree} {dir : Nat} {name : Name} {r : Except Errno Nat}

theorem find_set_self (hd : T.isDir dir = true) (hl : T.hasLookup dir = true) (hn : name.length ≤ L.NAME_LEN)
    (he : name ≠ []) : (T.set dir name r).find L dir name = r := by
  simp [find, set, hd, hl, he, Nat.not_lt.2 hn]

theorem find_set_ne {d : Nat} {n : Name} (h : ¬ (d = dir ∧ n = name)) :
    (T.set dir name r).find L d n = T.find L d n := by
  simp [find, set, h]

/-- `ENOENT` comes from the directory. -/
theorem find_enoent (h : T.find L dir name = .error .ENOENT) : T.isDir dir = true ∧ T.hasLookup dir = true ∧
    name.length ≤ L.NAME_LEN ∧ name ≠ [] ∧ T.lookup dir name = .error .ENOENT := by
  simp only [find] at h
  split at h
  · cases h
  · split at h
    · cases h
    · split at h
      · cases h
      · simp_all

/-- What is not a directory is an entry of the directory. -/
theorem find_file {f : Nat} (h : T.find L dir name = .ok f) (hf : T.isDir f = false) : T.isDir dir = true ∧
    T.hasLookup dir = true ∧ name.length ≤ L.NAME_LEN ∧ name ≠ [] ∧ T.lookup dir name = .ok f := by
  simp only [find] at h
  split at h
  · cases h
  · split at h
    · cases h
    · split at h
      · cases h; simp_all
      · simp_all

/-- No walk goes through what is not a directory. -/
theorem last_nondir {base : Nat} (hb : T.isDir base = false) {x : Nat × Name} (acc cs : Name) :
    T.last L base acc cs ≠ .ok x := by
  induction cs generalizing acc with
  | nil =>
    simp only [last, hb]
    split <;> simp
  | cons c cs ih =>
    simp only [last, find, hb]
    split
    · simp
    · exact ih _

/-- A path whose parent is found does not pass through an entry that is no directory. -/
theorem last_set (hname : name ≠ []) (hnd : ∀ v, T.lookup dir name = .ok v → T.isDir v = false) {x : Nat × Name} (cs : Name) :
    ∀ base acc, T.last L base acc cs = .ok x → (T.set dir name r).last L base acc cs = .ok x := by
  induction cs with
  | nil => intro base acc h; exact h
  | cons c cs ih =>
    intro base acc h
    simp only [last] at h ⊢
    split at h
    · next hc =>
      rw [if_pos hc]
      cases hf : T.find L base acc.reverse with
      | error e => rw [hf] at h; cases h
      | ok v =>
        rw [hf] at h
        have hne : ¬ (base = dir ∧ acc.reverse = name) := by
          rintro ⟨rfl, rfl⟩
          have hv : T.isDir v = true := by
            by_contra hv
            exact last_nondir (by simpa using hv) _ _ h
          have hlook : T.lookup base acc.reverse = .ok v := by
            simp only [find, if_neg hname] at hf
            split at hf
            · cases hf
            · split at hf
              · cases hf
              · exact hf
          simp [hnd v hlook] at hv
        rw [find_set_ne hne, hf]
        exact ih v [] h
    · next hc =>
      rw [if_neg hc]
      exact ih base (c :: acc) h

theorem parent_set (hname : name ≠ []) (hnd : ∀ v, T.lookup dir name = .ok v → T.isDir v = false) {path : Name}
    {x : Nat × Name} (h : T.parent L cwd root path = .ok x) : (T.set dir name r).parent L cwd root path = .ok x := by
  simp only [parent] at h ⊢
  split at h
  · cases h
  · next hlen =>
    rw [if_neg hlen]
    cases path with
    | nil => cases h
    | cons c cs =>
      dsimp only at h ⊢
      split at h
      · next hc => rw [if_pos hc]; exact last_set hname hnd cs _ _ h
      · next hc => rw [if_neg hc]; exact last_set hname hnd _ _ _ h

end Tree

end Weenix.Vfs
