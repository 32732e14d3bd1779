import Weenix.Vfs.VmOpenFiles
import Weenix.Vfs.VmPaths
import Weenix.Vfs.VmWalk
/-!
# How long a name the file system is given (`namev.c`, `open.c`, `vfs_syscall.c`)

`dir_namev` lets a name of exactly `NAME_LEN` characters pass. `do_mknod` and
`do_mkdir` refuse it, `open_namev` and `do_link` do not. The file system notes
the names that it is given for a new entry.
-/

namespace Weenix.Vfs.VmSubmit

variable {σ : Type} {L : Limits} {F : Fs σ} {cwd root : Nat} {T : Tree}

theorem vput_fs {s s' : State σ} {v : Nat} (h : s.vput v = some s') : s'.fs = s.fs := by
  simp only [State.vput, bind, Option.bind_eq_some_iff, Option.some.injEq] at h
  obtain ⟨-, -, rfl⟩ := h
  rfl

/-- The name as `open_namev` looks it up. -/
def fileNaav (root dir : Nat) (name : Name) : Name := if (name = [] ∨ name = ['/']) ∧ root = dir then ['.'] else name

/-- A file that is missing is created. -/
theorem open_namev_creat {path : Name} (s : State σ) (hp : path.length < L.MAXPATHLEN) :
    open_namev L F cwd root s path true = some (match parent L root cwd (F.tree s.fs) path with
      | .error e => (s, .error e)
      | .ok (dir, name) =>
        match find (F.tree s.fs) dir (fileNaav root dir name) with
        | .ok v => (s.vget v, .ok v)
        | .error .ENOENT =>
          State.held { s with fs := (F.create s.fs dir (fileNaav root dir name)).1 } (F.create s.fs dir (fileNaav root dir name)).2
        | .error e => (s, .error e)) := by
  simp only [open_namev, dir_namev_eq s hp, bind, Option.bind_some]
  cases parent L root cwd (F.tree s.fs) path with
  | error e => rfl
  | ok dn =>
    obtain ⟨dir, name⟩ := dn
    simp only [lookup, State.held, State.vget_fs, fileNaav]
    generalize (if (name = [] ∨ name = ['/']) ∧ root = dir then ['.'] else name) = file_naav
    cases find (F.tree s.fs) dir file_naav with
    | ok v =>
      dsimp only
      rw [vput_below, Option.bind_some]
    | error e =>
      by_cases he : e = .ENOENT
      · subst he
        obtain ⟨tree, create, link, unlink⟩ := F
        simp only [and_self, if_true, State.vget_fs]
        generalize create s.fs dir file_naav = x
        obtain ⟨fs, r⟩ := x
        cases r with
        | ok v =>
          change ((({ s with fs := fs } : State σ).vget dir).vget v).vput dir >>= _ = _
          rw [vput_below]
          rfl
        | error e =>
          change State.vput { s.vget dir with fs := fs } dir >>= _ = _
          rw [vput_with_fs]
          rfl
      · cases e <;> first | exact absurd rfl he | simp

theorem State.held_pos {s s' : State σ} {r : Except Errno Nat} {u : Nat} (h : s.held r = (s', .ok u)) : 0 < s'.refs u := by
  cases r with
  | error e => cases h
  | ok v =>
    cases h
    rw [vget_refs, oneRef_self]
    omega

/-- The vnode that is returned is referenced. -/
theorem open_namev_held {path : Name} {s s' : State σ} {u : Nat} (h : open_namev L F cwd root s path true = some (s', .ok u)) :
    0 < s'.refs u := by
  by_cases hp : path.length < L.MAXPATHLEN
  case neg => simp [open_namev, dir_namev, KASSERT, hp] at h
  rw [open_namev_creat s hp, Option.some.injEq] at h
  split at h
  · cases h
  split at h
  next v hf => exact State.held_pos (r := .ok v) h
  · exact State.held_pos h
  · cases h

/-! ## Which name a path ends in -/

/-- The components before the last lead to `dir`, and the last, of any length, is there or missing. -/
structure Reaches (L : Limits) (T : Tree) (start : Nat) (cs : List Name) (dir : Nat) (name : Name) : Prop where
  short : ∀ c ∈ cs.dropLast, c.length ≤ L.NAME_LEN
  ends : cs.getLast? = some name
  followed : follow T start cs.dropLast = .ok dir
  found : (∃ v, find T dir name = .ok v) ∨ find T dir name = .error .ENOENT

theorem leadsTo_iff {start dir : Nat} {cs : List Name} {name : Name} :
    LeadsTo L T start cs dir name ↔ Reaches L T start cs dir name ∧ name.length ≤ L.NAME_LEN := by
  constructor
  · rintro ⟨hshort, hends, hfollow, hfound⟩
    exact ⟨⟨fun c hc => hshort c (List.dropLast_subset cs hc), hends, hfollow, hfound⟩, hshort name (List.mem_of_getLast? hends)⟩
  · rintro ⟨⟨hshort, hends, hfollow, hfound⟩, hname⟩
    refine ⟨fun c hc => ?_, hends, hfollow, hfound⟩
    obtain ⟨init, rfl⟩ := List.getLast?_eq_some_iff.1 hends
    rw [List.dropLast_concat] at hshort
    rcases List.mem_append.1 hc with hc | hc
    · exact hshort c hc
    · rwa [List.mem_singleton.1 hc]

/-- The walk stops in front of a name that is too long. -/
theorem last_long {dir d : Nat} {c name : Name} {rest : List Name} (h : Reaches L T dir (c :: rest) d name)
    (hrest : rest ≠ []) (hlong : L.NAME_LEN < name.length) : last L T dir c rest = .error .ENAMETOOLONG := by
  induction rest generalizing dir c with
  | nil => exact absurd rfl hrest
  | cons next rest ih =>
    obtain ⟨hshort, hends, hfollow, hfound⟩ := h
    rw [List.dropLast_cons_of_ne_nil (List.cons_ne_nil _ _)] at hshort hfollow
    rw [List.getLast?_cons_cons] at hends
    rw [follow] at hfollow
    rw [last]
    cases hf : find T dir c with
    | error e =>
      rw [hf] at hfollow
      cases hfollow
    | ok v =>
      rw [hf] at hfollow
      dsimp only at hfollow ⊢
      split
      next => rfl
      next hnext =>
        refine ih ⟨fun x hx => hshort x (List.mem_cons_of_mem _ hx), hends, hfollow, hfound⟩ fun hnil => ?_
        subst hnil
        obtain rfl : next = name := by simpa using hends
        exact hnext hlong

theorem last_from_long {start d : Nat} {name : Name} {cs : List Name} (h : Reaches L T start cs d name)
    (hlong : L.NAME_LEN < name.length) : last_from L T start cs = .error .ENAMETOOLONG := by
  cases cs with
  | nil => cases h.ends
  | cons c rest =>
    rw [last_from]
    split
    next => rfl
    next hc =>
      refine last_long h (fun hnil => ?_) hlong
      subst hnil
      obtain rfl : c = name := by simpa using h.ends
      exact hc hlong

/-- What `dir_namev` says to a path with a long name. -/
theorem parent_reached {path name : Name} {dir : Nat} (h : Reaches L T (startOf root cwd path) (components path) dir name)
    (hN : 0 < L.NAME_LEN) (hlong : L.NAME_LEN ≤ name.length) :
    parent L root cwd T path = if name.length = L.NAME_LEN then .ok (dir, name) else .error .ENAMETOOLONG := by
  have hne : path ≠ [] ∧ path ≠ ['/'] := by
    constructor
    all_goals
      rintro rfl
      have h0 : name = [] := by simpa [components] using h.ends.symm
      rw [h0, List.length_nil] at hlong
      omega
  rw [parent_eq hne.1 hne.2]
  split
  next he => exact last_from_iff.2 (leadsTo_iff.2 ⟨h, he.le⟩)
  next he => exact last_from_long h (by omega)

/-- A name that `dir_namev` returns is not too long, if it is not that of the root. -/
theorem reached_of_parent {path name : Name} {dir : Nat} (h : parent L root cwd T path = .ok (dir, name)) (hroot : path ≠ ['/']) :
    Reaches L T (startOf root cwd path) (components path) dir name ∧ name.length ≤ L.NAME_LEN := by
  have hp : path ≠ [] := fun e => by
    rw [e] at h
    cases h
  rw [parent_eq hp hroot] at h
  exact leadsTo_iff.1 (last_from_iff.1 h)

theorem short_or_reached {path name : Name} {dir : Nat} (hN : 1 < L.NAME_LEN) (h : parent L root cwd T path = .ok (dir, name)) :
    name.length < L.NAME_LEN ∨
      Reaches L T (startOf root cwd path) (components path) dir name ∧ name.length = L.NAME_LEN := by
  by_cases hroot : path = ['/']
  · subst hroot
    cases h
    exact .inl (by simpa using hN)
  · obtain ⟨hr, hle⟩ := reached_of_parent h hroot
    exact (Nat.lt_or_eq_of_le hle).imp_right fun he => ⟨hr, he⟩

/-! ## Names that are given -/

section
variable {α : Type}

/-- The file system does not get a name to store. -/
def plain (s : σ × List Name) (x : σ × α) : (σ × List Name) × α := ((x.1, s.2), x.2)

/-- It gets the name. -/
def note (name : Name) (s : σ × List Name) (x : σ × α) : (σ × List Name) × α := ((x.1, name :: s.2), x.2)

end

/-- The file system `F`, with a note of the names it was given to store. -/
def noted (F : VnodeOps σ) : VnodeOps (σ × List Name) where
  tree s := F.tree s.1
  create s dir name := note name s (F.create s.1 dir name)
  link s f dir name := note name s (F.link s.1 f dir name)
  unlink s dir name := plain s (F.unlink s.1 dir name)
  mknod s dir name mode devid := note name s (F.mknod s.1 dir name mode devid)
  mkdir s dir name := note name s (F.mkdir s.1 dir name)
  rmdir s dir name := plain s (F.rmdir s.1 dir name)
  stat s v := (F.stat s.1 v).map (plain s)

section
variable {F : VnodeOps σ} {dir : Nat} {s s' : State (σ × List Name)} {path name : Name} {r : Except Errno Unit}

theorem withDir_some {α : Type} {x : State (σ × List Name) × Except Errno α}
    {k : State (σ × List Name) → Nat → Name → Option (State (σ × List Name) × Except Errno α)}
    (h : withDir L (noted F) cwd root s path k = some x) :
    x.1 = s ∨ ∃ dir name, parent L root cwd ((noted F).tree s.fs) path = .ok (dir, name) ∧ k (s.vget dir) dir name = some x := by
  by_cases hp : path.length < L.MAXPATHLEN
  case neg => simp [withDir, dir_namev, KASSERT, hp] at h
  simp only [withDir, dir_namev_eq s hp, bind, Option.bind_some] at h
  cases hpar : parent L root cwd ((noted F).tree s.fs) path with
  | error e =>
    rw [hpar] at h
    cases h
    exact .inl rfl
  | ok dn =>
    rw [hpar] at h
    exact .inr ⟨dn.1, dn.2, rfl, h⟩

theorem do_mkdir_notes (h : do_mkdir L (noted F) cwd root s path = some (s', r)) :
    s'.fs.2 = s.fs.2 ∨ ∃ dir name, parent L root cwd ((noted F).tree s.fs) path = .ok (dir, name) ∧
      s'.fs.2 = name :: s.fs.2 ∧ name.length < L.NAME_LEN := by
  rcases withDir_some h with hs | ⟨dir, name, hpar, h⟩
  · exact .inl (congrArg (fun s => s.fs.2) hs)
  split at h
  · rw [State.vget_vput] at h
    cases h
    exact .inl rfl
  next hlt =>
    simp only [lookup, State.held, State.vget_fs] at h
    cases hf : find ((noted F).tree s.fs) dir name with
    | ok v =>
      simp only [hf, vput_below, State.vget_vput, bind, Option.bind_some] at h
      cases h
      exact .inl rfl
    | error e =>
      simp only [hf, vput_with_fs, bind, Option.bind_some] at h
      cases h
      exact .inr ⟨dir, name, hpar, rfl, Nat.lt_of_not_le hlt⟩

theorem do_mknod_notes {mode : Mode} {devid : Nat} (hN : 0 < L.NAME_LEN)
    (h : do_mknod L (noted F) cwd root s path mode devid = some (s', r)) :
    s'.fs.2 = s.fs.2 ∨ ∃ dir name, parent L root cwd ((noted F).tree s.fs) path = .ok (dir, name) ∧
      s'.fs.2 = name :: s.fs.2 ∧ name.length < L.NAME_LEN := by
  unfold do_mknod at h
  split at h
  · cases h
    exact .inl rfl
  rcases withDir_some h with hs | ⟨dir, name, hpar, h⟩
  · exact .inl (congrArg (fun s => s.fs.2) hs)
  split at h
  · rw [State.vget_vput] at h
    cases h
    exact .inl rfl
  next hlt =>
    have hlt : name.length < L.NAME_LEN := by omega
    simp only [lookup, State.held, State.vget_fs] at h
    cases hf : find ((noted F).tree s.fs) dir name with
    | ok v =>
      simp only [hf, vput_below, State.vget_vput, bind, Option.bind_some] at h
      cases h
      exact .inl rfl
    | error e =>
      simp only [hf, vput_with_fs, bind, Option.bind_some] at h
      cases h
      exact .inr ⟨dir, name, hpar, rfl, hlt⟩

/-- A long name is refused by `do_mkdir` and `do_mknod`. -/
theorem withDir_long {k : State (σ × List Name) → Nat → Name → Option (State (σ × List Name) × Except Errno Unit)}
    (h : Reaches L ((noted F).tree s.fs) (startOf root cwd path) (components path) dir name) (hN : 0 < L.NAME_LEN)
    (hlong : L.NAME_LEN ≤ name.length) (hp : path.length < L.MAXPATHLEN)
    (hk : k (s.vget dir) dir name = some (s, .error .ENAMETOOLONG)) :
    withDir L (noted F) cwd root s path k = some (s, .error .ENAMETOOLONG) := by
  simp only [withDir, dir_namev_eq s hp, bind, Option.bind_some]
  rw [parent_reached h hN hlong]
  by_cases he : name.length = L.NAME_LEN
  · simpa only [if_pos he] using hk
  · simp only [if_neg he]

theorem do_mkdir_long (h : Reaches L ((noted F).tree s.fs) (startOf root cwd path) (components path) dir name)
    (hN : 0 < L.NAME_LEN) (hlong : L.NAME_LEN ≤ name.length) (hp : path.length < L.MAXPATHLEN) :
    do_mkdir L (noted F) cwd root s path = some (s, .error .ENAMETOOLONG) := by
  apply withDir_long h hN hlong hp
  simp [hlong]

theorem do_mknod_long {mode : Mode} {devid : Nat} (hm : mode.fmt = .blk ∨ mode.fmt = .chr)
    (h : Reaches L ((noted F).tree s.fs) (startOf root cwd path) (components path) dir name)
    (hN : 0 < L.NAME_LEN) (hlong : L.NAME_LEN ≤ name.length) (hp : path.length < L.MAXPATHLEN) :
    do_mknod L (noted F) cwd root s path mode devid = some (s, .error .ENAMETOOLONG) := by
  have hm : ¬ (mode.fmt ≠ .blk ∧ mode.fmt ≠ .chr) := by tauto
  have hlong' : L.NAME_LEN - 1 < name.length := by omega
  rw [do_mknod, if_neg hm]
  apply withDir_long h hN hlong hp
  simp [hlong']

/-! ### Links -/

section
variable {«from» «to» : Name} {f : Nat}

/-- `do_link` when `from` is a file. -/
theorem do_link_ready (hfrom : «from».length < L.MAXPATHLEN) (hto : «to».length < L.MAXPATHLEN)
    (hf : named L root cwd ((noted F).tree s.fs) «from» = .ok f) (hd : ((noted F).tree s.fs).isDir f = false) :
    do_link L (noted F) cwd root s «from» «to» = some (match parent L root cwd ((noted F).tree s.fs) «to» with
      | .error e => (s, .error e)
      | .ok (dir, name) =>
        match find ((noted F).tree s.fs) dir name with
        | .ok _ => (s.vget dir, .error .EEXIST)
        | .error _ => ({ s with fs := ((noted F).link s.fs f dir name).1 }, ((noted F).link s.fs f dir name).2)) := by
  have hlen : ¬ (L.MAXPATHLEN < «to».length ∨ L.MAXPATHLEN < «from».length) := by omega
  simp only [do_link, if_neg hlen, open_namev_eq s hfrom, State.held, hf, bind, Option.bind_some, State.vget_fs, hd,
    Bool.false_eq_true, if_false, dir_namev_eq (s.vget f) hto]
  cases parent L root cwd ((noted F).tree s.fs) «to» with
  | error e => simp
  | ok dn =>
    obtain ⟨dir, name⟩ := dn
    simp only [lookup, State.held, State.vget_fs]
    cases find ((noted F).tree s.fs) dir name with
    | error e => simp [vput_below_with_fs, vput_with_fs]
    | ok v => simp [State.vget_vput, State.vget_comm s f dir]

/-- A name of exactly `NAME_LEN` characters is there, or is passed on. -/
theorem do_link_limit (hfrom : «from».length < L.MAXPATHLEN)
    (hf : named L root cwd ((noted F).tree s.fs) «from» = .ok f) (hd : ((noted F).tree s.fs).isDir f = false)
    (h : Reaches L ((noted F).tree s.fs) (startOf root cwd «to») (components «to») dir name) (hN : 0 < L.NAME_LEN)
    (hlong : L.NAME_LEN ≤ name.length)
    (hr : ¬ (L.MAXPATHLEN < «to».length ∨ «to».length < L.MAXPATHLEN ∧ name.length ≠ L.NAME_LEN))
    (hrun : do_link L (noted F) cwd root s «from» «to» = some (s', r)) : r = .error .EEXIST ∨ name ∈ s'.fs.2 := by
  have hlen : ¬ (L.MAXPATHLEN < «to».length ∨ L.MAXPATHLEN < «from».length) := by omega
  by_cases hto : «to».length < L.MAXPATHLEN
  case neg =>
    simp [do_link, hlen, open_namev_eq s hfrom, State.held, hf, hd, dir_namev, KASSERT, hto] at hrun
  have he : name.length = L.NAME_LEN := by
    by_contra hne
    exact hr (.inr ⟨hto, hne⟩)
  rw [do_link_ready hfrom hto hf hd, parent_reached h hN hlong, if_pos he, Option.some.injEq] at hrun
  dsimp only at hrun
  split at hrun
  · cases hrun
    exact .inl rfl
  · cases hrun
    exact .inr List.mem_cons_self

theorem do_link_long (hfrom : «from».length < L.MAXPATHLEN)
    (hf : named L root cwd ((noted F).tree s.fs) «from» = .ok f) (hd : ((noted F).tree s.fs).isDir f = false)
    (h : Reaches L ((noted F).tree s.fs) (startOf root cwd «to») (components «to») dir name) (hN : 0 < L.NAME_LEN)
    (hlong : L.NAME_LEN ≤ name.length)
    (hr : L.MAXPATHLEN < «to».length ∨ «to».length < L.MAXPATHLEN ∧ name.length ≠ L.NAME_LEN) :
    do_link L (noted F) cwd root s «from» «to» = some (s, .error .ENAMETOOLONG) := by
  rcases hr with hover | ⟨hto, hne⟩
  · rw [do_link, if_pos (.inl hover)]
  · rw [do_link_ready hfrom hto hf hd, parent_reached h hN hlong, if_neg hne]

theorem do_link_notes (h : do_link L (noted F) cwd root s «from» «to» = some (s', r)) :
    s'.fs.2 = s.fs.2 ∨ ∃ dir name f, «from».length < L.MAXPATHLEN ∧ «to».length < L.MAXPATHLEN ∧
      named L root cwd ((noted F).tree s.fs) «from» = .ok f ∧ ((noted F).tree s.fs).isDir f = false ∧
      parent L root cwd ((noted F).tree s.fs) «to» = .ok (dir, name) ∧ s'.fs.2 = name :: s.fs.2 := by
  by_cases hlen : L.MAXPATHLEN < «to».length ∨ L.MAXPATHLEN < «from».length
  · rw [do_link, if_pos hlen] at h
    cases h
    exact .inl rfl
  by_cases hfrom : «from».length < L.MAXPATHLEN
  case neg => simp [do_link, hlen, open_namev, dir_namev, KASSERT, hfrom] at h
  cases hf : named L root cwd ((noted F).tree s.fs) «from» with
  | error e =>
    simp only [do_link, if_neg hlen, open_namev_eq s hfrom, State.held, hf, bind, Option.bind_some] at h
    cases h
    exact .inl rfl
  | ok f =>
    by_cases hd : ((noted F).tree s.fs).isDir f = true
    · simp only [do_link, if_neg hlen, open_namev_eq s hfrom, State.held, hf, bind, Option.bind_some, State.vget_fs, hd,
        if_true, State.vget_vput] at h
      cases h
      exact .inl rfl
    have hd : ((noted F).tree s.fs).isDir f = false := by simpa using hd
    by_cases hto : «to».length < L.MAXPATHLEN
    case neg =>
      simp [do_link, hlen, open_namev_eq s hfrom, State.held, hf, hd, dir_namev, KASSERT, hto] at h
    rw [do_link_ready hfrom hto hf hd] at h
    cases hp : parent L root cwd ((noted F).tree s.fs) «to» with
    | error e =>
      rw [hp] at h
      cases h
      exact .inl rfl
    | ok dn =>
      obtain ⟨dir, name⟩ := dn
      rw [hp] at h
      dsimp only at h
      split at h
      · cases h
        exact .inl rfl
      · cases h
        exact .inr ⟨dir, name, f, hfrom, hto, rfl, hd, rfl, rfl⟩

theorem do_unlink_plain (h : do_unlink L (noted F) cwd root s path = some (s', r)) : s'.fs.2 = s.fs.2 := by
  rcases withDir_some h with hs | ⟨dir, name, -, h⟩
  · exact congrArg (fun s => s.fs.2) hs
  split at h
  · rw [State.vget_vput] at h
    cases h
    rfl
  simp only [lookup, State.held, State.vget_fs] at h
  cases hf : find ((noted F).tree s.fs) dir name with
  | error e =>
    simp only [hf, State.vget_vput, bind, Option.bind_some] at h
    cases h
    rfl
  | ok v =>
    by_cases hd : ((noted F).tree s.fs).isDir v = true
    · simp only [hf, State.vget_fs, hd, if_true, vput_below, State.vget_vput, bind, Option.bind_some] at h
      cases h
      rfl
    · simp only [hf, State.vget_fs, hd, Bool.false_eq_true, if_false, vput_below_with_fs, vput_with_fs, bind,
        Option.bind_some] at h
      cases h
      rfl

/-- The old name is taken away only when there is a new one. -/
theorem do_rename_eq (h : do_link L (noted F) cwd root s «from» «to» = some (s', r)) :
    ∃ s'' r', do_rename L (noted F) cwd root s «from» «to» = some (s'', r') ∧ s''.fs.2 = s'.fs.2 ∧ (∀ e, r = .error e → r' = r) := by
  simp only [do_rename, h, bind, Option.bind_some]
  cases r with
  | error e => exact ⟨s', .error e, rfl, rfl, fun _ _ => rfl⟩
  | ok u =>
    have hret : Kept s' (do_unlink L (noted F) cwd root s' «from») := do_unlink_kept.2 (do_link_fits h)
    obtain ⟨⟨s'', r'⟩, hu, -⟩ := hret
    refine ⟨s'', r', hu, do_unlink_plain hu, fun e he => ?_⟩
    cases he

end

/-- `open_namev` creates only what is missing, and nothing is missing under the name of the root. -/
theorem open_namev_notes {v : Except Errno Nat} (h : open_namev L (noted F).toFs cwd root s path true = some (s', v)) :
    s'.fs.2 = s.fs.2 ∨ ∃ dir name, path.length < L.MAXPATHLEN ∧ path ≠ ['/'] ∧
      parent L root cwd ((noted F).tree s.fs) path = .ok (dir, name) ∧ s'.fs.2 = name :: s.fs.2 := by
  by_cases hp : path.length < L.MAXPATHLEN
  case neg => simp [open_namev, dir_namev, KASSERT, hp] at h
  rw [open_namev_creat s hp] at h
  cases hpar : parent L root cwd ((noted F).tree s.fs) path with
  | error e =>
    rw [hpar] at h
    cases h
    exact .inl rfl
  | ok dn =>
    obtain ⟨dir, name⟩ := dn
    rw [hpar] at h
    dsimp only at h
    have hdot : find ((noted F).tree s.fs) dir ['.'] ≠ .error .ENOENT := by
      simp only [find, or_true, if_true]
      split <;> simp
    split at h
    next v hf =>
      cases h
      exact .inl rfl
    next hf =>
      have hname : fileNaav root dir name = name := by
        by_contra hne
        have : fileNaav root dir name = ['.'] := by
          unfold fileNaav at hne ⊢
          split
          next => rfl
          next hc => exact absurd (if_neg hc) hne
        exact hdot (this ▸ hf)
      have hroot : path ≠ ['/'] := by
        rintro rfl
        cases hpar
        simp [fileNaav] at hname
      refine .inr ⟨dir, name, hp, hroot, rfl, ?_⟩
      rw [hname] at h
      cases hr : ((noted F).create s.fs dir name).2 with
      | ok v =>
        rw [hr] at h
        cases h
        rfl
      | error e =>
        rw [hr] at h
        cases h
        rfl
    next =>
      cases h
      exact .inl rfl

/-- A long name is refused, or it is looked up and created. -/
theorem open_namev_long (h : Reaches L ((noted F).tree s.fs) (startOf root cwd path) (components path) dir name)
    (hN : 1 < L.NAME_LEN) (hlong : L.NAME_LEN ≤ name.length) (hp : path.length < L.MAXPATHLEN) :
    ∃ s' v, open_namev L (noted F).toFs cwd root s path true = some (s', v) ∧
      if name.length = L.NAME_LEN then (∃ u, v = .ok u) ∨ name ∈ s'.fs.2 else v = .error .ENAMETOOLONG := by
  rw [open_namev_creat s hp, parent_reached h (by omega) hlong]
  by_cases he : name.length = L.NAME_LEN
  · simp only [if_pos he]
    have hname : fileNaav root dir name = name := by
      refine if_neg fun hc => ?_
      rcases hc.1 with rfl | rfl
      · exact absurd hlong (by simp; omega)
      · exact absurd hlong (by simp; omega)
    rw [hname]
    rcases h.found with ⟨v, hv⟩ | hno
    · rw [hv]
      exact ⟨_, _, rfl, .inl ⟨v, rfl⟩⟩
    · rw [hno]
      dsimp only
      cases hr : ((noted F).create s.fs dir name).2 with
      | ok v => exact ⟨_, _, rfl, .inl ⟨v, rfl⟩⟩
      | error e => exact ⟨_, _, rfl, .inr List.mem_cons_self⟩
  · simp only [if_neg he]
    exact ⟨s, _, rfl, rfl⟩

end

end Weenix.Vfs.VmSubmit

namespace Weenix.Files.VmSubmit
open Vfs

variable {σ : Type}

open Vfs.VmSubmit (plain noted) in
/-- The operations on open files store no names. -/
def notedIo (F : Io σ) : Io (σ × List Name) where
  toVnodeOps := noted F.toVnodeOps
  isChr s := F.isChr s.1
  isBlk s := F.isBlk s.1
  isReg s := F.isReg s.1
  vn_cdev s := F.vn_cdev s.1
  vn_bdev s := F.vn_bdev s.1
  vn_len s := F.vn_len s.1
  read s v pos n := (F.read s.1 v pos n).map (plain s)
  write s v pos n := (F.write s.1 v pos n).map (plain s)
  readdir s v pos := (F.readdir s.1 v pos).map (plain s)
  sizeof_dirent := F.sizeof_dirent

/-- The calls that make a new entry; `do_open` is called with `O_CREAT`. -/
inductive MakeCall
  | do_open (filename : Name) (oflags : OFlags)
  | do_mknod (path : Name) (mode : Mode) (devid : Nat)
  | do_mkdir (path : Name)
  | do_link («from» «to» : Name)
  | do_rename (oldname newname : Name)

/-- A call on paths by the process `p`. -/
def onVfs (s : System σ) (p : Nat) (call : Nat → State σ → Option (State σ × Except Errno Unit)) :
    Option (System σ × Except Errno Unit) := do
  let curproc ← s.procs p
  let (vfs, r) ← call curproc.p_cwd s.vfs
  some ({ s with vfs := vfs }, r)

namespace MakeCall

/-- The path of the new entry. -/
def path : MakeCall → Name
  | .do_open filename _ => filename
  | .do_mknod path _ _ => path
  | .do_mkdir path => path
  | .do_link _ «to» => «to»
  | .do_rename _ newname => newname

section
variable (N : Nat) (L : Limits) (F : Io σ) (O : FileCalls σ) (root : Nat)

def run (s : System σ) (p : Nat) : MakeCall → Option (System σ × Except Errno Unit)
  | .do_open filename oflags =>
    (VmSubmit.do_open N L F O root s p filename { oflags with creat := true }).map fun x => (x.1, x.2.map fun _ => ())
  | .do_mknod path mode devid =>
    onVfs s p fun cwd vfs => Vfs.VmSubmit.do_mknod L F.toVnodeOps cwd root vfs path mode devid
  | .do_mkdir path => onVfs s p fun cwd vfs => Vfs.VmSubmit.do_mkdir L F.toVnodeOps cwd root vfs path
  | .do_link «from» «to» => onVfs s p fun cwd vfs => Vfs.VmSubmit.do_link L F.toVnodeOps cwd root vfs «from» «to»
  | .do_rename oldname newname =>
    onVfs s p fun cwd vfs => Vfs.VmSubmit.do_rename L F.toVnodeOps cwd root vfs oldname newname

/-- The call comes to its new path, because it has all it needs besides. -/
def Ready (s : System σ) (p cwd : Nat) : MakeCall → Prop
  | .do_open _ oflags =>
    (get_empty_fd N s p).isSome ∧ (O.fget s p (-1)).2.isSome ∧ (oflags.rdwr && oflags.wronly) = false
  | .do_mknod _ mode _ => mode.fmt = .blk ∨ mode.fmt = .chr
  | .do_mkdir _ => True
  | .do_link old _ | .do_rename old _ => old.length < L.MAXPATHLEN ∧
      ∃ f, Vfs.VmSubmit.named L root cwd (F.tree s.vfs.fs) old = .ok f ∧ (F.tree s.vfs.fs).isDir f = false

/-- The path that the call makes ends in `name`, in the directory `dir`. -/
def Makes (s : System σ) (p cwd : Nat) (c : MakeCall) (dir : Nat) (name : Name) : Prop :=
  c.Ready N L F O root s p cwd ∧
    Vfs.VmSubmit.Reaches L (F.tree s.vfs.fs) (Vfs.VmSubmit.startOf root cwd c.path) (Vfs.VmSubmit.components c.path) dir name

end

/-- The call refuses a name of `NAME_LEN` characters or more. -/
def Refuses (L : Limits) (name : Name) : MakeCall → Prop
  | .do_open filename _ => filename.length < L.MAXPATHLEN ∧ name.length ≠ L.NAME_LEN
  | .do_mknod path _ _ | .do_mkdir path => path.length < L.MAXPATHLEN
  | .do_link _ new | .do_rename _ new => L.MAXPATHLEN < new.length ∨ new.length < L.MAXPATHLEN ∧ name.length ≠ L.NAME_LEN

end MakeCall

/-- The file system is given only names that are shorter than `NAME_LEN`, and any other name is refused. -/
structure NamesFit (N : Nat) (L : Limits) (F : Io σ) (O : FileCalls (σ × List Name)) (root : Nat) (s : System (σ × List Name))
    (p cwd : Nat) (c : MakeCall) : Prop where
  given : ∀ s' r, c.run N L (notedIo F) O root s p = some (s', r) → ∀ name ∈ s'.vfs.fs.2, name.length < L.NAME_LEN
  refused : ∀ dir name, c.Makes N L (notedIo F) O root s p cwd dir name → L.NAME_LEN ≤ name.length →
    ∃ s', c.run N L (notedIo F) O root s p = some (s', .error .ENAMETOOLONG)

/-- The system before any name has been given. -/
def unnoted (s : System σ) : System (σ × List Name) :=
  { vfs := ⟨(s.vfs.fs, []), s.vfs.refs⟩, files := s.files, procs := s.procs, nprocs := s.nprocs, initproc := s.initproc }

/-- `fput` stores no name. -/
def PutsPlain (O : FileCalls (σ × List Name)) : Prop :=
  ∀ s f s', O.fput s f = some s' → s'.vfs.fs.2 = s.vfs.fs.2

theorem slab_plain : PutsPlain (slab : FileCalls (σ × List Name)) := by
  intro s f s' h
  simp only [slab, bind, Option.bind_eq_some_iff, Option.some.injEq] at h
  obtain ⟨file, -, -, -, rfl⟩ := h
  simp only [File.release]
  split
  · cases file.f_vnode with
    | none => rfl
    | some v =>
      simp only [Option.bind_some]
      cases hv : s.vfs.vput v with
      | none => rfl
      | some vfs => rw [Option.getD_some, Vfs.VmSubmit.vput_fs hv]
  · rfl

variable {N : Nat} {L : Limits} {F : Io σ} {O : FileCalls (σ × List Name)} {root p : Nat} {s s' : System (σ × List Name)}
  {curproc : Fproc} {filename : Name} {oflags : OFlags}

/-- `do_open` returns when `open_namev` does, and returns its errors. -/
theorem do_open_creat (hO : Lawful O) (hplain : PutsPlain O) (hp : s.procs p = some curproc)
    (hready : (MakeCall.do_open filename oflags).Ready N L (notedIo F) O root s p curproc.p_cwd)
    {vfs : State (σ × List Name)} {v : Except Errno Nat} (hheld : ∀ u, v = .ok u → 0 < vfs.refs u)
    (hopen : VmSubmit.open_namev L (notedIo F).toFs curproc.p_cwd root s.vfs filename true = some (vfs, v)) :
    ∃ s' r, do_open N L (notedIo F) O root s p filename { oflags with creat := true } = some (s', r) ∧
      s'.vfs.fs.2 = vfs.fs.2 ∧ (∀ e, v = .error e → r = .error e) ∧ ∀ u, v = .ok u → r ≠ .error .ENAMETOOLONG := by
  obtain ⟨hfd, hfile, hflags⟩ := hready
  obtain ⟨fd, hfd⟩ := Option.isSome_iff_exists.1 hfd
  rcases hO.fget_new s p with hg | ⟨f, file, hnew, hone, hg⟩
  · rw [hg] at hfile
    cases hfile
  simp only [do_open, hfd, hg, hflags, Bool.false_eq_true, if_false]
  generalize hs₁ : ((s.setFile f (some file)).setSlot p fd (some f)).modify f
    (fun file => { file with f_mode := openMode { oflags with creat := true } }) = s₁
  have hcur : ∃ pr, s₁.procs p = some pr ∧ pr.p_cwd = curproc.p_cwd := by
    refine ⟨{ curproc with p_files := curproc.p_files.set fd (some f) }, ?_, rfl⟩
    rw [← hs₁]
    simp [System.modify, System.setFile, System.setSlot, System.setProc, hp]
  have hvfs : s₁.vfs = s.vfs := by
    rw [← hs₁]
    rfl
  have hlive : ∃ file', s₁.files f = some file' ∧ file'.f_refcount = 1 := by
    refine ⟨{ file with f_mode := openMode { oflags with creat := true } }, ?_, hone⟩
    rw [← hs₁]
    simp [System.modify, System.setFile, System.setSlot, System.setProc]
  -- the new file is put, whatever has happened to the vnodes
  have hput (s₂ : System (σ × List Name)) (hs₂ : s₂.files = s₁.files) : ∃ s₃, O.fput s₂ f = some s₃ ∧ s₃.vfs.fs.2 = s₂.vfs.fs.2 := by
    obtain ⟨file', hf', h1⟩ := hlive
    obtain ⟨vfs', hfput, -⟩ := hO.fput s₂ f file' (by rw [hs₂, hf']) (by omega)
    exact ⟨_, hfput, hplain s₂ f _ hfput⟩
  obtain ⟨pr, hpr, hcwd⟩ := hcur
  simp only [hpr, hcwd, hvfs, hopen, bind, Option.bind_some]
  cases v with
  | error e =>
    obtain ⟨s₃, h3, hlog⟩ := hput { s₁ with vfs := vfs } rfl
    simp only [h3, Option.bind_some]
    refine ⟨_, _, rfl, hlog, fun e' he => ?_, fun u hu => (by cases hu)⟩
    cases he
    rfl
  | ok vn =>
    obtain ⟨vfs', hvput⟩ := vput_some (hheld vn rfl)
    have hfs := Vfs.VmSubmit.vput_fs hvput
    obtain ⟨s₃, h3, hlog⟩ := hput { s₁.setSlot p fd none with vfs := vfs' } rfl
    have hgone : s₃.vfs.fs.2 = vfs.fs.2 := by rw [hlog, hfs]
    have hclose (e : Errno) : ((vfs.vput vn).bind fun vfs' => (O.fput { s₁.setSlot p fd none with vfs := vfs' } f).bind fun s =>
        some (s, (Except.error e : Except Errno Int))) = some (s₃, .error e) := by
      simp only [hvput, Option.bind_some, h3]
    dsimp only
    split
    · exact ⟨s₃, _, hclose .EISDIR, hgone, fun e he => (by cases he), by simp⟩
    split
    · exact ⟨s₃, _, hclose _, hgone, fun e he => (by cases he), by simp⟩
    · exact ⟨_, _, rfl, rfl, fun e he => (by cases he), by simp⟩

/-- What a call of `do_open` has stored, `open_namev` has stored. -/
theorem do_open_opens (hO : Lawful O) (hplain : PutsPlain O) (hp : s.procs p = some curproc)
    (hready : (MakeCall.do_open filename oflags).Ready N L (notedIo F) O root s p curproc.p_cwd) {r : Except Errno Int}
    (h : do_open N L (notedIo F) O root s p filename { oflags with creat := true } = some (s', r)) :
    ∃ vfs v, VmSubmit.open_namev L (notedIo F).toFs curproc.p_cwd root s.vfs filename true = some (vfs, v) ∧
      s'.vfs.fs.2 = vfs.fs.2 := by
  cases hopen : VmSubmit.open_namev L (notedIo F).toFs curproc.p_cwd root s.vfs filename true with
  | some x =>
    obtain ⟨vfs, v⟩ := x
    obtain ⟨s₂, r₂, hrun, hlog, -⟩ := do_open_creat hO hplain hp hready
      (fun u hu => Vfs.VmSubmit.open_namev_held (by rw [hopen, hu])) hopen
    cases hrun.symm.trans h
    exact ⟨vfs, v, rfl, hlog⟩
  | none =>
    obtain ⟨hfd, hfile, hflags⟩ := hready
    obtain ⟨fd, hfd⟩ := Option.isSome_iff_exists.1 hfd
    rcases hO.fget_new s p with hg | ⟨f, file, -, -, hg⟩
    · rw [hg] at hfile
      cases hfile
    · simp [do_open, hfd, hg, hflags, System.modify, System.setFile, System.setSlot, System.setProc, hp, hopen] at h

/-- A call of `do_open` that does not come to the path stores no name. -/
theorem do_open_unready (hO : Lawful O)
    (hready : ¬ (MakeCall.do_open filename oflags).Ready N L (notedIo F) O root s p curproc.p_cwd) {r : Except Errno Int}
    (h : do_open N L (notedIo F) O root s p filename { oflags with creat := true } = some (s', r)) : s'.vfs.fs.2 = s.vfs.fs.2 := by
  simp only [do_open] at h
  split at h
  next => cases h; rfl
  next fd hfd =>
    rcases hO.fget_new s p with hg | ⟨f, file, -, -, hg⟩
    · rw [hg] at h
      cases h
      rfl
    · rw [hg] at h
      dsimp only at h
      split at h
      · cases h
        rfl
      next hflags =>
        exact absurd ⟨by rw [hfd]; rfl, by rw [hg]; rfl, by simpa using hflags⟩ hready

section
variable {c : MakeCall} {dir : Nat} {name : Name} {r : Except Errno Unit}

theorem onVfs_some {call : Nat → State σ → Option (State σ × Except Errno Unit)} {s s' : System σ} (hp : s.procs p = some curproc) :
    onVfs s p call = some (s', r) ↔ ∃ vfs, call curproc.p_cwd s.vfs = some (vfs, r) ∧ { s with vfs := vfs } = s' := by
  simp only [onVfs, hp, bind, Option.bind_some, Option.bind_eq_some_iff, Option.some.injEq, Prod.mk.injEq, Prod.exists]
  constructor
  · rintro ⟨vfs, r', hcall, rfl, rfl⟩
    exact ⟨vfs, hcall, rfl⟩
  · rintro ⟨vfs, hcall, rfl⟩
    exact ⟨vfs, r, hcall, rfl, rfl⟩

/-- The name of a link is short, or is as long as `NAME_LEN`. -/
theorem link_name (hN : 1 < L.NAME_LEN) {cwd : Nat} {vfs vfs' : State (σ × List Name)} {old new : Name} (hnew : vfs.fs.2 = [])
    (h : Vfs.VmSubmit.do_link L (notedIo F).toVnodeOps cwd root vfs old new = some (vfs', r)) (hname : name ∈ vfs'.fs.2) :
    name.length < L.NAME_LEN ∨ new.length < L.MAXPATHLEN ∧ name.length = L.NAME_LEN ∧ old.length < L.MAXPATHLEN ∧
      (∃ f, Vfs.VmSubmit.named L root cwd ((notedIo F).tree vfs.fs) old = .ok f ∧ ((notedIo F).tree vfs.fs).isDir f = false) ∧
      ∃ dir, Vfs.VmSubmit.Reaches L ((notedIo F).tree vfs.fs) (Vfs.VmSubmit.startOf root cwd new)
        (Vfs.VmSubmit.components new) dir name := by
  rcases Vfs.VmSubmit.do_link_notes h with hs | ⟨dir, n, f, hold, hlen, hf, hd, hpar, hs⟩
  · simp [hs, hnew] at hname
  · simp only [hs, hnew, List.mem_singleton] at hname
    subst hname
    exact (Vfs.VmSubmit.short_or_reached hN hpar).imp_right fun ⟨hr, he⟩ => ⟨hlen, he, hold, ⟨f, hf, hd⟩, dir, hr⟩

/-- A name that the file system is given is short, or it is the new one and is not refused. -/
theorem given_name (hO : Lawful O) (hplain : PutsPlain O) (hN : 1 < L.NAME_LEN) (hp : s.procs p = some curproc)
    (hnew : s.vfs.fs.2 = []) (h : c.run N L (notedIo F) O root s p = some (s', r)) (hname : name ∈ s'.vfs.fs.2) :
    name.length < L.NAME_LEN ∨ ∃ dir, c.Makes N L (notedIo F) O root s p curproc.p_cwd dir name ∧ ¬ c.Refuses L name := by
  cases c with
  | do_open filename oflags =>
    simp only [MakeCall.run, Option.map_eq_some_iff] at h
    obtain ⟨⟨s₁, r₁⟩, h, he⟩ := h
    obtain rfl : s₁ = s' := congrArg Prod.fst he
    by_cases hready : (MakeCall.do_open filename oflags).Ready N L (notedIo F) O root s p curproc.p_cwd
    case neg => simp [do_open_unready hO hready h, hnew] at hname
    obtain ⟨vfs, v, hopen, hlog⟩ := do_open_opens hO hplain hp hready h
    rcases Vfs.VmSubmit.open_namev_notes hopen with hs | ⟨dir, n, hlen, -, hpar, hs⟩
    · simp [hlog, hs, hnew] at hname
    · simp only [hlog, hs, hnew, List.mem_singleton] at hname
      subst hname
      exact (Vfs.VmSubmit.short_or_reached hN hpar).imp_right fun ⟨hr, he⟩ => ⟨dir, ⟨hready, hr⟩, fun h => h.2 he⟩
  | do_mknod path mode devid =>
    simp only [MakeCall.run, onVfs_some hp] at h
    obtain ⟨vfs, h, rfl⟩ := h
    rcases Vfs.VmSubmit.do_mknod_notes (by omega) h with hs | ⟨dir, n, -, hs, hlt⟩
    · simp [hs, hnew] at hname
    · simp only [hs, hnew, List.mem_singleton] at hname
      exact .inl (hname ▸ hlt)
  | do_mkdir path =>
    simp only [MakeCall.run, onVfs_some hp] at h
    obtain ⟨vfs, h, rfl⟩ := h
    rcases Vfs.VmSubmit.do_mkdir_notes h with hs | ⟨dir, n, -, hs, hlt⟩
    · simp [hs, hnew] at hname
    · simp only [hs, hnew, List.mem_singleton] at hname
      exact .inl (hname ▸ hlt)
  | do_link old new =>
    simp only [MakeCall.run, onVfs_some hp] at h
    obtain ⟨vfs, h, rfl⟩ := h
    exact (link_name hN hnew h hname).imp_right fun ⟨hlen, he, hold, hf, dir, hr⟩ => ⟨dir, ⟨⟨hold, hf⟩, hr⟩, fun h => by
      rcases h with h | h <;> omega⟩
  | do_rename old new =>
    simp only [MakeCall.run, onVfs_some hp] at h
    obtain ⟨vfs, h, rfl⟩ := h
    obtain ⟨⟨vfs₁, r₁⟩, hl, -⟩ := Option.bind_eq_some_iff.1 h
    obtain ⟨vfs₂, r₂, hr, hlog, -⟩ := Vfs.VmSubmit.do_rename_eq hl
    obtain ⟨rfl, rfl⟩ : vfs₂ = vfs ∧ r₂ = r := by simpa using hr.symm.trans h
    exact (link_name hN hnew hl (hlog ▸ hname)).imp_right fun ⟨hlen, he, hold, hf, dir, hr⟩ => ⟨dir, ⟨⟨hold, hf⟩, hr⟩, fun h => by
      rcases h with h | h <;> omega⟩

/-- A long name is refused where the call says so. -/
theorem refuses_long (hO : Lawful O) (hplain : PutsPlain O) (hN : 1 < L.NAME_LEN) (hp : s.procs p = some curproc)
    (hm : c.Makes N L (notedIo F) O root s p curproc.p_cwd dir name) (hlong : L.NAME_LEN ≤ name.length) (hr : c.Refuses L name) :
    ∃ s', c.run N L (notedIo F) O root s p = some (s', .error .ENAMETOOLONG) := by
  obtain ⟨hready, hreach⟩ := hm
  cases c with
  | do_open filename oflags =>
    obtain ⟨vfs, v, hopen, hv⟩ := Vfs.VmSubmit.open_namev_long hreach hN hlong hr.1
    rw [if_neg hr.2] at hv
    subst hv
    obtain ⟨s', r, hrun, -, herr, -⟩ := do_open_creat hO hplain hp hready (fun u hu => (by cases hu)) hopen
    exact ⟨s', by rw [MakeCall.run, hrun, herr _ rfl]; rfl⟩
  | do_mknod path mode devid =>
    simp only [MakeCall.run, onVfs_some hp]
    exact ⟨_, _, Vfs.VmSubmit.do_mknod_long hready hreach (by omega) hlong hr, rfl⟩
  | do_mkdir path =>
    simp only [MakeCall.run, onVfs_some hp]
    exact ⟨_, _, Vfs.VmSubmit.do_mkdir_long hreach (by omega) hlong hr, rfl⟩
  | do_link old new =>
    obtain ⟨hold, f, hf, hd⟩ := hready
    simp only [MakeCall.run, onVfs_some hp]
    exact ⟨_, _, Vfs.VmSubmit.do_link_long hold hf hd hreach (by omega) hlong hr, rfl⟩
  | do_rename old new =>
    obtain ⟨hold, f, hf, hd⟩ := hready
    simp only [MakeCall.run, onVfs_some hp]
    obtain ⟨vfs, r, hrun, -, herr⟩ := Vfs.VmSubmit.do_rename_eq
      (Vfs.VmSubmit.do_link_long hold hf hd hreach (by omega) hlong hr)
    rw [herr _ rfl] at hrun
    exact ⟨_, _, hrun, rfl⟩

/-- Elsewhere an error of this kind comes from the file system, which has the name. -/
theorem long_given (hO : Lawful O) (hplain : PutsPlain O) (hN : 1 < L.NAME_LEN) (hp : s.procs p = some curproc)
    (hm : c.Makes N L (notedIo F) O root s p curproc.p_cwd dir name) (hlong : L.NAME_LEN ≤ name.length) (hr : ¬ c.Refuses L name)
    (h : c.run N L (notedIo F) O root s p = some (s', .error .ENAMETOOLONG)) : name ∈ s'.vfs.fs.2 := by
  obtain ⟨hready, hreach⟩ := hm
  cases c with
  | do_open filename oflags =>
    simp only [MakeCall.run, Option.map_eq_some_iff] at h
    obtain ⟨⟨s₁, r₁⟩, h, he⟩ := h
    obtain rfl : s₁ = s' := congrArg Prod.fst he
    have he : r₁ = .error .ENAMETOOLONG := by
      cases r₁ with
      | error e => simpa [Except.map] using he
      | ok fd => simp [Except.map] at he
    obtain ⟨vfs, v, hopen, hlog⟩ := do_open_opens hO hplain hp hready h
    have hlen : filename.length < L.MAXPATHLEN := by
      by_contra hn
      simp [VmSubmit.open_namev, VmSubmit.dir_namev, KASSERT, hn] at hopen
    have hlim : name.length = L.NAME_LEN := by
      by_contra hne
      exact hr ⟨hlen, hne⟩
    obtain ⟨vfs₁, v₁, hopen₁, hv⟩ := Vfs.VmSubmit.open_namev_long hreach hN hlong hlen
    cases hopen.symm.trans hopen₁
    rw [if_pos hlim] at hv
    rcases hv with ⟨u, rfl⟩ | hv
    · obtain ⟨s₂, r₂, hrun, -, -, hok⟩ := do_open_creat hO hplain hp hready
        (fun u hu => Vfs.VmSubmit.open_namev_held (by rw [hopen, hu])) hopen
      cases hrun.symm.trans h
      exact absurd he (hok u rfl)
    · rwa [hlog]
  | do_mknod path mode devid =>
    simp only [MakeCall.run, onVfs_some hp] at h
    obtain ⟨vfs, h, -⟩ := h
    have hm : ¬ (mode.fmt ≠ .blk ∧ mode.fmt ≠ .chr) := by
      rcases hready with h | h <;> simp [h]
    rw [Vfs.VmSubmit.do_mknod, if_neg hm] at h
    simp [Vfs.VmSubmit.withDir, VmSubmit.dir_namev, KASSERT, show ¬ path.length < L.MAXPATHLEN from hr] at h
  | do_mkdir path =>
    simp only [MakeCall.run, onVfs_some hp] at h
    obtain ⟨vfs, h, -⟩ := h
    simp [Vfs.VmSubmit.do_mkdir, Vfs.VmSubmit.withDir, VmSubmit.dir_namev, KASSERT,
      show ¬ path.length < L.MAXPATHLEN from hr] at h
  | do_link old new =>
    obtain ⟨hold, f, hf, hd⟩ := hready
    simp only [MakeCall.run, onVfs_some hp] at h
    obtain ⟨vfs, h, rfl⟩ := h
    have hgiven := Vfs.VmSubmit.do_link_limit hold hf hd hreach (by omega) hlong hr h
    exact hgiven.resolve_left fun he => (by cases he)
  | do_rename old new =>
    obtain ⟨hold, f, hf, hd⟩ := hready
    simp only [MakeCall.run, onVfs_some hp] at h
    obtain ⟨vfs, h, rfl⟩ := h
    obtain ⟨⟨vfs₁, r₁⟩, hl, -⟩ := Option.bind_eq_some_iff.1 h
    obtain ⟨vfs₂, r₂, hrun, hlog, herr⟩ := Vfs.VmSubmit.do_rename_eq hl
    cases hrun.symm.trans h
    rcases Vfs.VmSubmit.do_link_limit hold hf hd hreach (by omega) hlong hr hl with rfl | hgiven
    · cases herr _ rfl
    · exact hlog ▸ hgiven

/-- Only a name of exactly `NAME_LEN` characters comes through, on the routes that do not look at it. -/
theorem names_fit_iff (hO : Lawful O) (hplain : PutsPlain O) (hN : 1 < L.NAME_LEN) (hp : s.procs p = some curproc)
    (hnew : s.vfs.fs.2 = []) : NamesFit N L F O root s p curproc.p_cwd c ↔
      ∀ dir name, c.Makes N L (notedIo F) O root s p curproc.p_cwd dir name → L.NAME_LEN ≤ name.length → c.Refuses L name := by
  constructor
  · rintro ⟨hgiven, hrefused⟩ dir name hm hlong
    by_contra hr
    obtain ⟨s', hrun⟩ := hrefused dir name hm hlong
    exact absurd (hgiven s' _ hrun name (long_given hO hplain hN hp hm hlong hr hrun)) (by omega)
  · intro h
    refine ⟨fun s' r hrun name hname => ?_, fun dir name hm hlong => refuses_long hO hplain hN hp hm hlong (h dir name hm hlong)⟩
    rcases given_name hO hplain hN hp hnew hrun hname with hshort | ⟨dir, hm, hr⟩
    · exact hshort
    · by_contra hlong
      exact hr (h dir name hm (by omega))

end

/-- `do_mkdir` looks at the name. -/
theorem mkdir_names_fit : NamesFit 4 stock flatIo slab 0 (unnoted (oneProc 1)) 0 0 (.do_mkdir "/d/x".toList) := by
  have hp : (unnoted (oneProc 1)).procs 0 = some { p_pid := 1, p_files := List.replicate 4 none, p_cwd := 0 } := rfl
  refine (names_fit_iff slab_lawful slab_plain (by decide) hp rfl).2 fun _ _ _ _ => ?_
  change "/d/x".toList.length < stock.MAXPATHLEN
  decide

/-- `do_open` creates a file with a name of 28 characters. -/
theorem create_at_limit : (∃ s' r, (MakeCall.do_open ('/' :: List.replicate 28 'x') {}).run 4 stock (notedIo flatIo) slab 0
      (unnoted (oneProc 1)) 0 = some (s', r) ∧ s'.vfs.fs.2 = [List.replicate 28 'x']) ∧
    ¬ NamesFit 4 stock flatIo slab 0 (unnoted (oneProc 1)) 0 0 (.do_open ('/' :: List.replicate 28 'x') {}) := by
  have h : ((MakeCall.do_open ('/' :: List.replicate 28 'x') {}).run 4 stock (notedIo flatIo) slab 0 (unnoted (oneProc 1)) 0).map
      (fun x => x.1.vfs.fs.2) = some [List.replicate 28 'x'] := by decide +kernel
  obtain ⟨⟨s', r⟩, hrun, hlog⟩ := Option.map_eq_some_iff.1 h
  refine ⟨⟨s', r, hrun, hlog⟩, fun hfit => ?_⟩
  exact absurd (hfit.given s' r hrun (List.replicate 28 'x') (by rw [hlog]; exact List.mem_singleton_self _)) (by decide)

end Weenix.Files.VmSubmit
