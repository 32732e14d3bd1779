import Weenix.Vfs.Names
/-!
# `do_link`, `do_unlink` and `do_rename` in vfs-submit (`vfs_syscall.c`)

`do_rename` links the file under its new name, drops the result, and unlinks the
old name.
-/

namespace Weenix.Vfs

variable {σ : Type}

section
variable (L : Limits) (F : Fs σ) (cwd root : Nat)

def do_unlink (s : State σ) (path : Name) : Option (State σ × Except Errno Unit) :=
  if path.length > L.MAXPATHLEN then some (s, .error .ENAMETOOLONG)
  else if path.length = 0 then some (s, .error .EINVAL)
  else do
    match ← dir_namev L F cwd root s path with
    | (s, .error e) => some (s, .error e)
    | (s, .ok (dir, name)) =>
      match lookup L F s dir name with
      | (s, .error e) => do
        let s ← s.vput dir
        some (s, .error e)
      | (s, .ok v) =>
        if (F.tree s.fs).isDir v then do
          let s ← s.vput dir
          let s ← s.vput v
          some (s, .error .EISDIR)
        else do
          let (fs, r) := F.unlink s.fs dir name
          let s ← State.vput { s with fs := fs } v
          let s ← s.vput dir
          some (s, r)

/-- The vnode of `from` is put twice: before its second `vput` something else
has to reference it. -/
def do_link (s : State σ) («from» «to» : Name) : Option (State σ × Except Errno Unit) :=
  if «from».length > L.MAXPATHLEN then some (s, .error .ENAMETOOLONG)
  else if «from».length = 0 then some (s, .error .EINVAL)
  else if «to».length > L.MAXPATHLEN then some (s, .error .ENAMETOOLONG)
  else if «to».length = 0 then some (s, .error .EINVAL)
  else do
    match ← open_namev L F cwd root s «from» false with
    | (s, .error e) => some (s, .error e)
    | (s, .ok f) =>
      if (F.tree s.fs).isDir f then some (s, .error .EISDIR)
      else do
        let (s, r) ← dir_namev L F cwd root s «to»
        let s ← s.vput f
        match r with
        | .error e => some (s, .error e)
        | .ok (dir, name) => do
          let s ← s.vput dir
          let (s, r) := lookup L F s dir name
          let s ← s.vput f
          match r with
          | .ok v => do
            let s ← s.vput v
            some (s, .error .EEXIST)
          | .error .ENOENT =>
            let (fs, r) := F.link s.fs f dir name
            some ({ s with fs := fs }, r)
          | .error e => some (s, .error e)

def do_rename (s : State σ) (oldname newname : Name) : Option (State σ × Except Errno Unit) :=
  if oldname.length < 1 ∨ newname.length < 1 then some (s, .error .EINVAL)
  else do
    let (s, _) ← do_link L F cwd root s oldname newname
    do_unlink L F cwd root s oldname

end

/-- What the code relies on: an operation that fails leaves the names as they
are, `link` adds an entry and `unlink` takes one away. -/
structure Lawful (F : Fs σ) : Prop where
  link_ok : ∀ {s s' f dir name}, F.link s f dir name = (s', .ok ()) → (F.tree s).lookup dir name = .error .ENOENT →
    F.tree s' = (F.tree s).set dir name (.ok f)
  link_error : ∀ {s s' f dir name e}, F.link s f dir name = (s', .error e) → F.tree s' = F.tree s
  unlink_ok : ∀ {s s' dir name}, F.unlink s dir name = (s', .ok ()) →
    F.tree s' = (F.tree s).set dir name (.error .ENOENT)
  unlink_error : ∀ {s s' dir name e}, F.unlink s dir name = (s', .error e) → F.tree s' = F.tree s

variable {L : Limits} {F : Fs σ} {cwd root : Nat} {s s' : State σ} {old new : Name} {f : Nat}

/-- `path` names the vnode `f`. -/
def Names (L : Limits) (F : Fs σ) (cwd root : Nat) (s : State σ) (path : Name) (f : Nat) : Prop :=
  (F.tree s.fs).named L cwd root path = .ok f

/-- The link step of `do_rename` for the file `f`: the file system after it and
its result, or `none` when a `vput` fails. -/
def linkStep (L : Limits) (F : Fs σ) (cwd root : Nat) (s : State σ) (f : Nat) (new : Name) :
    Option (σ × Except Errno Unit) :=
  match (F.tree s.fs).parent L cwd root new with
  | .error e => some (s.fs, .error e)
  | .ok (dir, name) =>
    if s.refs f = 0 then none
    else
      match (F.tree s.fs).find L dir name with
      | .ok _ => some (s.fs, .error .EEXIST)
      | .error .ENOENT => some (F.link s.fs f dir name)
      | .error e => some (s.fs, .error e)

theorem names_parent (h : Names L F cwd root s old f) : ∃ dir name,
    (F.tree s.fs).parent L cwd root old = .ok (dir, name) ∧ (F.tree s.fs).find L dir name = .ok f := by
  simp only [Names, Tree.named] at h
  split at h
  · cases h
  · next dir name hp => exact ⟨dir, name, hp, h⟩

theorem parent_length {T : Tree} {path : Name} {x : Nat × Name} (h : T.parent L cwd root path = .ok x) :
    ¬ path.length > L.MAXPATHLEN ∧ path.length ≠ 0 := by
  simp only [Tree.parent] at h
  split at h
  · cases h
  · next hl =>
    refine ⟨hl, fun h0 => ?_⟩
    obtain rfl := List.length_eq_zero_iff.1 h0
    cases h

/-- Put a vnode that was just found, and the file: the file has to be referenced. -/
theorem vput_found {v : Nat} : (((s.vget v).vput f).bind fun s => s.vput v) = s.vput f := by
  by_cases hv : v = f
  · subst hv; simp
  · simp only [State.vget, State.vput, bind, KASSERT, Function.update_of_ne (Ne.symm hv)]
    by_cases hf : 0 < s.refs f
    · simp only [hf, if_true, Option.bind_some, Function.update_of_ne hv, Function.update_self, Nat.zero_lt_succ,
        Nat.add_sub_cancel]
      rw [Function.update_comm hv, Function.update_idem, ← Function.update_of_ne hv (s.refs f - 1) s.refs,
        Function.update_eq_self]
    · simp [hf]

theorem do_link_eq (hold : Names L F cwd root s old f) (hf : (F.tree s.fs).isDir f = false) (hnew : new ≠ []) :
    (do_link L F cwd root s old new).map (fun x => (x.1.fs, x.2)) = linkStep L F cwd root s f new := by
  obtain ⟨d₁, n₁, hp, -⟩ := names_parent hold
  obtain ⟨hl1, hl2⟩ := parent_length hp
  have hopen : open_namev L F cwd root s old false = some (s.vget f, .ok f) := by
    rw [open_namev_eq, hold]; rfl
  simp only [do_link, linkStep, if_neg hl1, if_neg hl2]
  by_cases hlen : new.length > L.MAXPATHLEN
  · simp [hlen, Tree.parent]
  rw [if_neg hlen, if_neg (by simpa using hnew)]
  simp only [hopen, bind, Option.bind_some, State.vget_fs, hf, Bool.false_eq_true, if_false, dir_namev_eq]
  cases hpar : (F.tree s.fs).parent L cwd root new with
  | error e => simp
  | ok dn =>
    obtain ⟨dir, name⟩ := dn
    simp only [State.vget_comm s f dir, State.vget_vput, Option.bind_some, lookup]
    have hput : s.vput f = if s.refs f = 0 then none
        else some { s with refs := Function.update s.refs f (s.refs f - 1) } := by
      by_cases hr : s.refs f = 0 <;> simp [State.vput, KASSERT, hr, Nat.pos_iff_ne_zero]
    cases hfind : (F.tree s.fs).find L dir name with
    | ok v =>
      simp only [State.held]
      rw [← Option.bind_assoc, vput_found, hput]
      split <;> rfl
    | error e =>
      simp only [State.held, hput]
      split
      · rfl
      · cases e <;> rfl

theorem do_unlink_eq (hold : Names L F cwd root s old f) (hf : (F.tree s.fs).isDir f = false) {dir : Nat} {name : Name}
    (hp : (F.tree s.fs).parent L cwd root old = .ok (dir, name)) :
    do_unlink L F cwd root s old = some ({ s with fs := (F.unlink s.fs dir name).1 }, (F.unlink s.fs dir name).2) := by
  obtain ⟨_, _, hp', hfind⟩ := names_parent hold
  cases hp.symm.trans hp'
  obtain ⟨hl1, hl2⟩ := parent_length hp
  simp only [do_unlink, if_neg hl1, if_neg hl2, dir_namev_eq, hp, bind, Option.bind_some, lookup, State.vget_fs, hfind,
    State.held, hf, Bool.false_eq_true, if_false]
  have h1 (fs : σ) : State.vput { (s.vget dir).vget f with fs := fs } f = some ({ s with fs := fs }.vget dir) :=
    State.vget_vput ({ s with fs := fs }.vget dir) f
  have h2 (fs : σ) : State.vput ({ s with fs := fs }.vget dir) dir = some { s with fs := fs } := State.vget_vput _ dir
  rw [h1, Option.bind_some, h2]
  rfl

/-! ## Renaming -/

/-- What `do_rename` has to do with the file `f` that `old` names: it returns,
the file has a name afterwards, a failed link step is reported and leaves the old
name, and on success the new name has replaced the old one. -/
structure Safe (L : Limits) (F : Fs σ) (cwd root : Nat) (s : State σ) (old new : Name) (f : Nat)
    (s' : State σ) (r : Except Errno Unit) : Prop where
  kept : Names L F cwd root s' old f ∨ Names L F cwd root s' new f
  failed : ∀ s₁ e, do_link L F cwd root s old new = some (s₁, .error e) → Names L F cwd root s' old f ∧ r = .error e
  renamed : r = .ok () → Names L F cwd root s' new f ∧ ¬ Names L F cwd root s' old f

/-- `do_rename` is safe here: the new name is empty, so nothing is done; or the
link step succeeds; or it fails and unlinking the old name fails with the same error. -/
def RenameOk (L : Limits) (F : Fs σ) (cwd root : Nat) (s : State σ) (old new : Name) (f : Nat) : Prop :=
  new = [] ∨ ∃ fs r, linkStep L F cwd root s f new = some (fs, r) ∧
    (r = .ok () ∨ ∃ dir name e, (F.tree s.fs).parent L cwd root old = .ok (dir, name) ∧ r = .error e ∧
      (F.unlink fs dir name).2 = .error e)

/-! ### Names before and after -/

section
variable {T : Tree} {d₁ d₂ : Nat} {n₁ n₂ : Name}

theorem named_eq {T : Tree} {path : Name} {dir : Nat} {name : Name} (hp : T.parent L cwd root path = .ok (dir, name)) :
    T.named L cwd root path = T.find L dir name := by
  simp only [Tree.named, hp]

/-- After unlinking a file its old name names nothing. -/
theorem named_unlinked (h₁ : T.parent L cwd root old = .ok (d₁, n₁)) (hf : T.find L d₁ n₁ = .ok f)
    (hfd : T.isDir f = false) : (T.set d₁ n₁ (.error .ENOENT)).named L cwd root old = .error .ENOENT := by
  obtain ⟨h1, h2, h3, h4, h5⟩ := Tree.find_file hf hfd
  rw [named_eq (Tree.parent_set h4 (fun v hv => by rw [h5] at hv; cases hv; exact hfd) h₁),
    Tree.find_set_self h1 h2 h3 h4]

/-- A new entry does not change what an old name names. -/
theorem named_linked_old (h₁ : T.parent L cwd root old = .ok (d₁, n₁)) (hf : T.find L d₁ n₁ = .ok f)
    (h₂ : T.find L d₂ n₂ = .error .ENOENT) :
    (T.set d₂ n₂ (.ok f)).parent L cwd root old = .ok (d₁, n₁) ∧ (T.set d₂ n₂ (.ok f)).find L d₁ n₁ = .ok f := by
  obtain ⟨-, -, -, h4, h5⟩ := Tree.find_enoent h₂
  refine ⟨Tree.parent_set h4 (fun v hv => by rw [h5] at hv; cases hv) h₁, ?_⟩
  rw [Tree.find_set_ne ?_, hf]
  rintro ⟨rfl, rfl⟩
  cases hf.symm.trans h₂

/-- A new entry is found under the new name. -/
theorem named_linked_new (hp : T.parent L cwd root new = .ok (d₂, n₂)) (h₂ : T.find L d₂ n₂ = .error .ENOENT) :
    (T.set d₂ n₂ (.ok f)).parent L cwd root new = .ok (d₂, n₂) ∧ (T.set d₂ n₂ (.ok f)).find L d₂ n₂ = .ok f := by
  obtain ⟨h1, h2, h3, h4, h5⟩ := Tree.find_enoent h₂
  exact ⟨Tree.parent_set h4 (fun v hv => by rw [h5] at hv; cases hv) hp, Tree.find_set_self h1 h2 h3 h4⟩

/-- Unlinking one name of a file leaves the other. -/
theorem named_other (hp : T.parent L cwd root new = .ok (d₂, n₂)) (hf₂ : T.find L d₂ n₂ = .ok f)
    (hf₁ : T.find L d₁ n₁ = .ok f) (hfd : T.isDir f = false) (hne : ¬ (d₂ = d₁ ∧ n₂ = n₁)) :
    (T.set d₁ n₁ (.error .ENOENT)).named L cwd root new = .ok f := by
  obtain ⟨-, -, -, h4, h5⟩ := Tree.find_file hf₁ hfd
  rw [named_eq (Tree.parent_set h4 (fun v hv => by rw [h5] at hv; cases hv; exact hfd) hp), Tree.find_set_ne hne, hf₂]

end

/-- The link step as a call of `do_link`. -/
theorem do_link_some (hold : Names L F cwd root s old f) (hf : (F.tree s.fs).isDir f = false) (hnew : new ≠ [])
    {fs : σ} {r : Except Errno Unit} (h : linkStep L F cwd root s f new = some (fs, r)) :
    ∃ s₁, do_link L F cwd root s old new = some (s₁, r) ∧ s₁.fs = fs := by
  rw [← do_link_eq hold hf hnew] at h
  simp only [Option.map_eq_some_iff, Prod.mk.injEq, Prod.exists] at h
  obtain ⟨s₁, r', h1, rfl, rfl⟩ := h
  exact ⟨s₁, h1, rfl⟩

/-- A failed link step leaves the tree as it was. -/
theorem linkStep_error (hF : Lawful F) {fs : σ} {e : Errno} (h : linkStep L F cwd root s f new = some (fs, .error e)) :
    F.tree fs = F.tree s.fs := by
  simp only [linkStep] at h
  split at h
  · cases h; rfl
  · split at h
    · cases h
    · split at h
      · cases h; rfl
      · exact hF.link_error (Option.some.inj h)
      · cases h; rfl

/-- A link step that succeeds adds an entry where there was none. -/
theorem linkStep_ok (hF : Lawful F) {fs : σ} (h : linkStep L F cwd root s f new = some (fs, .ok ())) :
    ∃ dir name, (F.tree s.fs).parent L cwd root new = .ok (dir, name) ∧
      (F.tree s.fs).find L dir name = .error .ENOENT ∧ F.tree fs = (F.tree s.fs).set dir name (.ok f) := by
  simp only [linkStep] at h
  split at h
  · cases h
  · next dir name hp =>
    split at h
    · cases h
    · split at h
      · cases h
      · next hfind => exact ⟨dir, name, hp, hfind, hF.link_ok (Option.some.inj h) (Tree.find_enoent hfind).2.2.2.2⟩
      · cases h

/-- `do_rename` links, and unlinks the old name. -/
theorem do_rename_eq (hold : Names L F cwd root s old f) (hnew : new ≠ []) :
    do_rename L F cwd root s old new =
      (do_link L F cwd root s old new).bind fun x => do_unlink L F cwd root x.1 old := by
  obtain ⟨dir, name, hp, -⟩ := names_parent hold
  have hlen : ¬ (old.length < 1 ∨ new.length < 1) := by
    have h1 := (parent_length hp).2
    have h2 : new.length ≠ 0 := by simpa using hnew
    omega
  simp only [do_rename, if_neg hlen, bind]

/-- The link step succeeded: both outcomes of `unlink` are safe. -/
theorem safe_of_linked (hF : Lawful F) (hold : Names L F cwd root s old f) (hf : (F.tree s.fs).isDir f = false)
    (hnew : new ≠ []) {fs : σ} (h : linkStep L F cwd root s f new = some (fs, .ok ())) :
    ∃ s' r, do_rename L F cwd root s old new = some (s', r) ∧ Safe L F cwd root s old new f s' r := by
  obtain ⟨d₁, n₁, hp₁, hf₁⟩ := names_parent hold
  obtain ⟨d₂, n₂, hp₂, hf₂, htree⟩ := linkStep_ok hF h
  obtain ⟨s₁, hlink, rfl⟩ := do_link_some hold hf hnew h
  -- both names are there after the link step
  obtain ⟨hp₁', hf₁'⟩ := named_linked_old (f := f) hp₁ hf₁ hf₂
  obtain ⟨hp₂', hf₂'⟩ := named_linked_new (f := f) hp₂ hf₂
  rw [← htree] at hp₁' hf₁' hp₂' hf₂'
  have hfd : (F.tree s₁.fs).isDir f = false := by rw [htree]; exact hf
  have hne : ¬ (d₂ = d₁ ∧ n₂ = n₁) := by
    rintro ⟨rfl, rfl⟩
    cases hf₁.symm.trans hf₂
  have hold₁ : Names L F cwd root s₁ old f := (named_eq hp₁').trans hf₁'
  have hren : do_rename L F cwd root s old new =
      some ({ s₁ with fs := (F.unlink s₁.fs d₁ n₁).1 }, (F.unlink s₁.fs d₁ n₁).2) := by
    rw [do_rename_eq hold hnew, hlink, Option.bind_some, do_unlink_eq hold₁ hfd hp₁']
  have hfail : ∀ s₂ e, do_link L F cwd root s old new ≠ some (s₂, .error e) := fun s₂ e he => by
    cases hlink.symm.trans he
  refine ⟨_, _, hren, ?_⟩
  cases hun : F.unlink s₁.fs d₁ n₁ with
  | mk fs₂ r =>
    cases r with
    | ok u =>
      have ht₂ : F.tree fs₂ = (F.tree s₁.fs).set d₁ n₁ (.error .ENOENT) := hF.unlink_ok hun
      have hnew₂ : (F.tree fs₂).named L cwd root new = .ok f := by
        rw [ht₂]; exact named_other hp₂' hf₂' hf₁' hfd hne
      refine ⟨.inr hnew₂, fun s₂ e he => absurd he (hfail s₂ e), fun _ => ⟨hnew₂, fun hbad => ?_⟩⟩
      simp only [Names, ht₂, named_unlinked hp₁' hf₁' hfd, reduceCtorEq] at hbad
    | error e =>
      have ht₂ : F.tree fs₂ = F.tree s₁.fs := hF.unlink_error hun
      refine ⟨.inr ?_, fun s₂ e he => absurd he (hfail s₂ e), nofun⟩
      simp only [Names, ht₂, named_eq hp₂', hf₂']

/-- The link step failed: the old name is unlinked all the same. -/
theorem safe_iff_of_unlinked (hF : Lawful F) (hold : Names L F cwd root s old f)
    (hf : (F.tree s.fs).isDir f = false) (hnew : new ≠ []) {fs : σ} {e : Errno} {d n}
    (hp : (F.tree s.fs).parent L cwd root old = .ok (d, n)) (h : linkStep L F cwd root s f new = some (fs, .error e)) :
    (∃ s' r, do_rename L F cwd root s old new = some (s', r) ∧ Safe L F cwd root s old new f s' r) ↔
      (F.unlink fs d n).2 = .error e := by
  have htree := linkStep_error hF h
  obtain ⟨s₁, hlink, rfl⟩ := do_link_some hold hf hnew h
  have hold₁ : Names L F cwd root s₁ old f := by rw [Names, htree]; exact hold
  have hp₁ := htree ▸ hp
  have hfd : (F.tree s₁.fs).isDir f = false := by rw [htree]; exact hf
  rw [do_rename_eq hold hnew, hlink, Option.bind_some, do_unlink_eq hold₁ hfd hp₁]
  obtain ⟨_, _, hp', hfind⟩ := names_parent hold₁
  cases hp₁.symm.trans hp'
  cases hun : F.unlink s₁.fs d n with
  | mk fs₂ r =>
    cases r with
    | ok u =>
      refine iff_of_false ?_ (by simp)
      rintro ⟨_, _, ⟨⟩, hsafe⟩
      have := (hsafe.failed s₁ e hlink).2
      cases this
    | error e' =>
      have hold₂ : Names L F cwd root { s₁ with fs := fs₂ } old f := by
        rw [Names, hF.unlink_error hun]; exact hold₁
      constructor
      · rintro ⟨_, _, ⟨⟩, hsafe⟩
        exact (hsafe.failed s₁ e hlink).2
      · rintro ⟨⟩
        refine ⟨_, _, rfl, .inl hold₂, fun s₂ e₂ he => ⟨hold₂, ?_⟩, nofun⟩
        cases hlink.symm.trans he
        rfl

/-- `do_rename` of a file is safe exactly in the cases of `RenameOk`. -/
theorem do_rename_safe_iff (hF : Lawful F) (hold : Names L F cwd root s old f) (hf : (F.tree s.fs).isDir f = false) :
    (∃ s' r, do_rename L F cwd root s old new = some (s', r) ∧ Safe L F cwd root s old new f s' r) ↔
      RenameOk L F cwd root s old new f := by
  obtain ⟨d, n, hp, -⟩ := names_parent hold
  by_cases hnew : new = []
  · subst hnew
    obtain ⟨hl1, hl2⟩ := parent_length hp
    refine iff_of_true ⟨s, .error .EINVAL, by simp [do_rename], .inl hold, fun s₁ e he => ⟨hold, ?_⟩, nofun⟩ (.inl rfl)
    simp only [do_link, if_neg hl1, if_neg hl2, List.length_nil, Nat.not_lt_zero, gt_iff_lt, if_false, if_true,
      Option.some.injEq, Prod.mk.injEq] at he
    exact he.2
  · cases h : linkStep L F cwd root s f new with
    | none =>
      have hlink : do_link L F cwd root s old new = none := by
        rw [← do_link_eq hold hf hnew] at h
        simpa using h
      exact iff_of_false (by simp [do_rename_eq hold hnew, hlink]) (by simp [RenameOk, hnew, h])
    | some x =>
      obtain ⟨fs, r⟩ := x
      cases r with
      | ok u => exact iff_of_true (safe_of_linked hF hold hf hnew h) (.inr ⟨fs, .ok (), h, .inl rfl⟩)
      | error e =>
        rw [safe_iff_of_unlinked hF hold hf hnew hp h]
        simp [RenameOk, hnew, h, hp]

/-- A root directory 0 and the directory 1, `/d`, in it; any entries. -/
def flat : Fs (Nat → Name → Option Nat) where
  tree s :=
    { isDir := fun v => v ≤ 1
      hasLookup := fun v => v ≤ 1
      lookup := fun dir name => if dir = 0 ∧ name = ['d'] then .ok 1 else (s dir name).elim (.error .ENOENT) .ok }
  create s _ _ := (s, .error .ENOENT)
  link s f dir name :=
    if dir = 0 ∧ name = ['d'] then (s, .error .EEXIST)
    else (Function.update s dir (Function.update (s dir) name (some f)), .ok ())
  unlink s dir name :=
    if dir = 0 ∧ name = ['d'] then (s, .error .EISDIR)
    else (Function.update s dir (Function.update (s dir) name none), .ok ())

theorem flat_set {s : Nat → Name → Option Nat} {dir : Nat} {name : Name} {o : Option Nat} (h : ¬ (dir = 0 ∧ name = ['d'])) :
    flat.tree (Function.update s dir (Function.update (s dir) name o)) =
      (flat.tree s).set dir name (o.elim (.error .ENOENT) .ok) := by
  simp only [flat, Tree.set, Tree.mk.injEq, true_and]
  funext d n
  by_cases hd : d = dir ∧ n = name
  · obtain ⟨rfl, rfl⟩ := hd
    simp [h]
  · rw [if_neg hd]
    by_cases hdd : d = dir
    · subst hdd
      have hn : n ≠ name := fun e => hd ⟨rfl, e⟩
      simp [hn]
    · simp [hdd]

theorem flat_lawful : Lawful flat where
  link_ok h _ := by
    simp only [flat] at h
    split at h
    · cases h
    · next hd => cases h; exact flat_set hd
  link_error h := by
    simp only [flat] at h
    split at h <;> cases h
    rfl
  unlink_ok h := by
    simp only [flat] at h
    split at h
    · cases h
    · next hd => cases h; exact flat_set hd
  unlink_error h := by
    simp only [flat] at h
    split at h <;> cases h
    rfl

/-- The file 2 is `/d/a`, and open. -/
def oneFile : State (Nat → Name → Option Nat) :=
  ⟨fun dir name => if dir = 1 ∧ name = ['a'] then some 2 else none, fun v => if v ≤ 2 then 1 else 0⟩

def stock : Limits := ⟨1024, 28⟩

/-- The file system of `flat`, which makes no special files and no directories. -/
def flatOps : VnodeOps (Nat → Name → Option Nat) where
  toFs := flat
  mknod s _ _ _ _ := (s, .error .ENOTSUP)
  mkdir s _ _ := (s, .error .ENOTSUP)
  rmdir s _ _ := (s, .error .ENOENT)
  stat s _ := some (s, .ok ())

/-- `/d/a` is renamed to `/x/b`, and there is no `/x`: success is returned and
the file has no name any more. -/
theorem rename_loses_file : ∃ s₁ s', Names stock flat 0 0 oneFile "/d/a".toList 2 ∧
    do_link stock flat 0 0 oneFile "/d/a".toList "/x/b".toList = some (s₁, .error .ENOENT) ∧
    do_rename stock flat 0 0 oneFile "/d/a".toList "/x/b".toList = some (s', .ok ()) ∧
    ¬ Names stock flat 0 0 s' "/d/a".toList 2 ∧ ¬ Names stock flat 0 0 s' "/x/b".toList 2 := by
  have h1 : (do_link stock flat 0 0 oneFile "/d/a".toList "/x/b".toList).map (·.2) = some (.error .ENOENT) := by
    decide +kernel
  have h2 : (do_rename stock flat 0 0 oneFile "/d/a".toList "/x/b".toList).map (fun x => (x.2,
      (flat.tree x.1.fs).named stock 0 0 "/d/a".toList, (flat.tree x.1.fs).named stock 0 0 "/x/b".toList)) =
      some (.ok (), .error .ENOENT, .error .ENOENT) := by
    decide +kernel
  simp only [Option.map_eq_some_iff, Prod.mk.injEq, Prod.exists, exists_eq_right] at h1 h2
  obtain ⟨s₁, hl⟩ := h1
  obtain ⟨s', r, hr, rfl, ha, hb⟩ := h2
  exact ⟨s₁, s', by unfold Names; decide +kernel, hl, hr, by rw [Names, ha]; simp, by rw [Names, hb]; simp⟩

/-- `/d/a` is renamed to `/b`. -/
theorem rename_keeps_file : ∃ s' r, do_rename stock flat 0 0 oneFile "/d/a".toList "/b".toList = some (s', r) ∧
    Safe stock flat 0 0 oneFile "/d/a".toList "/b".toList 2 s' r := by
  have h : (linkStep stock flat 0 0 oneFile 2 "/b".toList).map (·.2) = some (.ok ()) := by decide +kernel
  simp only [Option.map_eq_some_iff, Prod.exists, exists_eq_right] at h
  obtain ⟨fs, h⟩ := h
  exact (do_rename_safe_iff flat_lawful (by unfold Names; decide +kernel) (by decide)).2 (.inr ⟨fs, .ok (), h, .inl rfl⟩)

end Weenix.Vfs
