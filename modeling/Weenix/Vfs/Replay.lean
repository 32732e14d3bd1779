import Weenix.Vfs.Accesses
/-!
# The logged calls and the counts

A call of vfs-submit changes the counts as its log says, and returns the same; it
does not return when a count of 0 is put.
-/

namespace Weenix.Vfs.Logged
open Lib

variable {σ : Type} {L : Limits} {F : VnodeOps σ} {cwd root : Nat} {l : Log σ}

/-- The counts after the accesses; a count of 0 is not put. -/
def replay : (Nat → Nat) → List (Access Nat) → Option (Nat → Nat)
  | refs, [] => some refs
  | refs, .get v :: tr => replay (Function.update refs v (refs v + 1)) tr
  | refs, .put v :: tr => if 0 < refs v then replay (Function.update refs v (refs v - 1)) tr else none
  | refs, .use _ :: tr => replay refs tr

theorem replay_append {refs : Nat → Nat} {tr tr' : List (Access Nat)} :
    replay refs (tr ++ tr') = (replay refs tr).bind (replay · tr') := by
  induction tr generalizing refs with
  | nil => rfl
  | cons x tr ih =>
    cases x with
    | get v => exact ih
    | put v =>
      simp only [List.cons_append, replay]
      split
      · exact ih
      · rfl
    | use v => exact ih

theorem replay_stays {refs : Nat → Nat} {tr tr' : List (Access Nat)} (h : replay refs tr = none) :
    replay refs (tr ++ tr') = none := by
  rw [replay_append, h]
  rfl

/-- The log `l` has led from the counts `r₀` to the state `s`. -/
structure At (r₀ : Nat → Nat) (l : Log σ) (s : State σ) : Prop where
  refs : replay r₀ l.accesses = some s.refs
  fs : s.fs = l.fs

/-- A call with counts does what the logged call does. -/
def Counts {α : Type} (r₀ : Nat → Nat) (x : Option (State σ × α)) (y : Log σ × α) : Prop :=
  x = (replay r₀ y.1.accesses).map fun refs => (⟨y.1.fs, refs⟩, y.2)

namespace At
variable {r₀ : Nat → Nat} {s s' : State σ} {v : Nat}

theorem done {α : Type} (h : At r₀ l s) (a : α) : Counts r₀ (some (s, a)) (l, a) := by
  simp only [Counts, h.refs, Option.map_some, ← h.fs]

theorem get (h : At r₀ l s) (v : Nat) : At r₀ (l.get v) (s.vget v) :=
  ⟨by simp only [Log.get, replay_append, h.refs]; rfl, h.fs⟩

theorem use (h : At r₀ l s) (v : Nat) : At r₀ (l.use v) s := ⟨by simp only [Log.use, replay_append, h.refs]; rfl, h.fs⟩

theorem put (h : At r₀ l s) (hv : s.vput v = some s') : At r₀ (l.put v) s' := by
  simp only [State.vput, bind, Option.bind_eq_some_iff, KASSERT_eq_some, Option.some.injEq] at hv
  obtain ⟨-, hpos, rfl⟩ := hv
  exact ⟨by simp [Log.put, replay_append, h.refs, replay, hpos], h.fs⟩

theorem setFs (h : At r₀ l s) (fs : σ) : At r₀ { l with fs := fs } { s with fs := fs } := ⟨h.refs, rfl⟩

theorem found (h : At r₀ l s) (r : Except Errno Nat) : Counts r₀ (some (s.held r)) (l.found r) := by
  cases r with
  | ok v => exact (h.get v).done _
  | error e => exact h.done _

/-- What is obtained can be put. -/
theorem got_put (h : At r₀ l (s.vget v)) : At r₀ (l.put v) s := h.put (State.vget_vput s v)

end At

variable {r₀ : Nat → Nat} {s : State σ}

/-- The state after a lookup or a walk. -/
def after {α : Type} (s : State σ) (f : α → Nat) : Except Errno α → State σ
  | .ok a => s.vget (f a)
  | .error _ => s

section
variable (L F cwd root)

theorem lookup_at (h : At r₀ l s) (dir : Nat) (name : Name) : ∃ l₁ r, Vfs.lookup L F.toFs s dir name = (after s id r, r) ∧
    lookup L F l dir name = (l₁, r) ∧ At r₀ l₁ (after s id r) := by
  simp only [Vfs.lookup, State.held, lookup, Log.found, h.fs]
  cases (F.tree l.fs).find L dir name with
  | ok v => exact ⟨_, _, rfl, rfl, (h.use dir).get v⟩
  | error e => exact ⟨_, _, rfl, rfl, h.use dir⟩

theorem walk_at (h : At r₀ l s) (base : Nat) (acc cs : Name) :
    ∃ l₁ r, Vfs.walk L F.toFs s base acc cs = some (after s Prod.fst r, r) ∧ walk L F l base acc cs = (l₁, r) ∧
      At r₀ l₁ (after s Prod.fst r) := by
  induction cs generalizing base acc l with
  | nil =>
    simp only [Vfs.walk, walk, State.vget_fs, Log.get_fs, h.fs]
    split
    · exact ⟨_, _, rfl, rfl, h⟩
    · by_cases hd : (F.tree l.fs).isDir base = true
      · simp only [hd, Bool.not_true, Bool.false_eq_true, if_false]
        exact ⟨_, _, rfl, rfl, h.get base⟩
      · simp only [hd, Bool.not_false, if_true, State.vget_vput, bind, Option.bind_some]
        exact ⟨_, _, rfl, rfl, (h.get base).got_put⟩
  | cons c cs ih =>
    simp only [Vfs.walk, walk]
    split
    · obtain ⟨l₁, r, h1, h2, h3⟩ := lookup_at L F h base acc.reverse
      rw [h1, h2]
      cases r with
      | error e => exact ⟨_, _, rfl, rfl, h3⟩
      | ok v =>
        simp only [after, id_eq, State.vget_vput, bind, Option.bind_some]
        exact ih h3.got_put v []
    · exact ih h base (c :: acc)

theorem dir_namev_at (h : At r₀ l s) (path : Name) :
    ∃ l₁ r, Vfs.dir_namev L F.toFs cwd root s path = some (after s Prod.fst r, r) ∧
      dir_namev L F cwd root l path = (l₁, r) ∧ At r₀ l₁ (after s Prod.fst r) := by
  simp only [Vfs.dir_namev, dir_namev]
  split
  · exact ⟨_, _, rfl, rfl, h⟩
  · cases path with
    | nil => exact ⟨_, _, rfl, rfl, h⟩
    | cons c cs =>
      dsimp only
      split
      · exact walk_at L F h root [] cs
      · exact walk_at L F h cwd [] (c :: cs)

/-- The common start of the calls on one path. -/
theorem path_counts {β : Type} (h : At r₀ l s) (path : Name) {x : Option (State σ × Except Errno β)} {y : Log σ × Except Errno β}
    (herr : ∀ l₁ e, Vfs.dir_namev L F.toFs cwd root s path = some (s, .error e) →
      dir_namev L F cwd root l path = (l₁, .error e) → At r₀ l₁ s → Counts r₀ x y)
    (hok : ∀ l₁ l₂ dir name r, Vfs.dir_namev L F.toFs cwd root s path = some (s.vget dir, .ok (dir, name)) →
      dir_namev L F cwd root l path = (l₁, .ok (dir, name)) → Vfs.lookup L F.toFs s dir name = (after s id r, r) →
      lookup L F (l₁.put dir) dir name = (l₂, r) → At r₀ l₂ (after s id r) → Counts r₀ x y) : Counts r₀ x y := by
  obtain ⟨l₁, r, h1, h2, h3⟩ := dir_namev_at L F cwd root h path
  cases r with
  | error e => exact herr l₁ e h1 h2 h3
  | ok dn =>
    obtain ⟨l₂, r, h4, h5, h6⟩ := lookup_at L F h3.got_put dn.1 dn.2
    exact hok l₁ l₂ dn.1 dn.2 r h1 h2 h4 h5 h6

end

variable (L F cwd root) in
theorem open_namev_counts (h : At r₀ l s) (path : Name) (creat : Bool) :
    Counts r₀ (Vfs.open_namev L F.toFs cwd root s path creat) (open_namev L F cwd root l path creat) := by
  unfold Vfs.open_namev open_namev
  iterate 2
    split
    · exact h.done _
  apply path_counts L F cwd root h path
  · intro l₁ e h1 h2 h3
    simp only [h1, h2, bind, Option.bind_some]
    exact h3.done _
  · intro l₁ l₂ dir name r h1 h2 h3 h4 h5
    simp only [h1, h2, h3, h4, bind, Option.bind_some, State.vget_vput]
    cases r with
    | ok v => exact h5.done _
    | error e =>
      cases e with
      | ENOENT =>
        cases creat with
        | false => exact h5.done _
        | true =>
          have hfs : s.fs = l₂.fs := h5.fs
          simp only [if_true, after, hfs, Log.use_fs]
          exact ((h5.use dir).setFs _).found _
      | _ => exact h5.done _

theorem do_mknod_counts (h : At r₀ l s) (path : Name) (mode : Mode) (devid : Nat) :
    Counts r₀ (Vfs.do_mknod L F cwd root s path mode devid) (do_mknod L F cwd root l path mode devid) := by
  unfold Vfs.do_mknod do_mknod
  iterate 3
    split
    · exact h.done _
  apply path_counts L F cwd root h path
  · intro l₁ e h1 h2 h3
    simp only [h1, h2, bind, Option.bind_some]
    exact h3.done _
  · intro l₁ l₂ dir name r h1 h2 h3 h4 h5
    simp only [h1, h2, h3, h4, bind, Option.bind_some, State.vget_vput]
    cases r with
    | ok v =>
      simp only [after, id_eq, State.vget_vput, Option.bind_some]
      exact h5.got_put.done _
    | error e =>
      have hfs : s.fs = l₂.fs := h5.fs
      cases e with
      | ENOENT =>
        simp only [after, hfs, Log.use_fs]
        exact ((h5.use dir).setFs _).done _
      | _ => exact h5.done _

theorem do_mkdir_counts (h : At r₀ l s) (path : Name) :
    Counts r₀ (Vfs.do_mkdir L F cwd root s path) (do_mkdir L F cwd root l path) := by
  unfold Vfs.do_mkdir do_mkdir
  iterate 2
    split
    · exact h.done _
  apply path_counts L F cwd root h path
  · intro l₁ e h1 h2 h3
    simp only [h1, h2, bind, Option.bind_some]
    exact h3.done _
  · intro l₁ l₂ dir name r h1 h2 h3 h4 h5
    simp only [h1, h2, h3, h4, bind, Option.bind_some, State.vget_vput]
    cases r with
    | ok v =>
      simp only [after, id_eq, State.vget_vput, Option.bind_some]
      exact h5.got_put.done _
    | error e =>
      have hfs : s.fs = l₂.fs := h5.fs
      cases e with
      | ENOENT =>
        simp only [after, hfs, Log.use_fs]
        exact ((h5.use dir).setFs _).done _
      | _ => exact h5.done _

theorem do_stat_counts (hF : HasStat F) (h : At r₀ l s) (path : Name) :
    Counts r₀ (Vfs.do_stat L F cwd root s path) (do_stat L F cwd root l path) := by
  unfold Vfs.do_stat do_stat
  iterate 2
    split
    · exact h.done _
  apply path_counts L F cwd root h path
  · intro l₁ e h1 h2 h3
    simp only [h1, h2, bind, Option.bind_some]
    exact h3.done _
  · intro l₁ l₂ dir name r h1 h2 h3 h4 h5
    simp only [h1, h2, h3, h4, bind, Option.bind_some, State.vget_vput]
    cases r with
    | error e => exact h5.done _
    | ok v =>
      have hfs : s.fs = l₂.fs := h5.fs
      obtain ⟨x, hx⟩ := Option.isSome_iff_exists.1 (hF l₂.fs v)
      simp only [after, id_eq, State.vget_fs, hfs, hx, Option.bind_some, Option.getD_some, vput_with_fs]
      have h6 : At r₀ { l₂ with fs := x.1 } (State.vget { s with fs := x.1 } v) := h5.setFs x.1
      exact h6.got_put.done _

/-- A reference that may not be there is put. -/
theorem At.put_bind {α : Type} {v : Nat} {k : State σ → Option (State σ × α)} {y : Log σ × α} (h : At r₀ l s)
    (hk : ∀ s', At r₀ (l.put v) s' → Counts r₀ (k s') y)
    (hfail : replay r₀ (l.put v).accesses = none → replay r₀ y.1.accesses = none) : Counts r₀ ((s.vput v).bind k) y := by
  cases hv : s.vput v with
  | some s' => exact hk s' (h.put hv)
  | none =>
    have hzero : ¬ 0 < s.refs v := fun hpos => by simp [State.vput, KASSERT, hpos] at hv
    have : replay r₀ (l.put v).accesses = none := by simp [Log.put, replay_append, h.refs, replay, hzero]
    simp [Counts, hfail this]

variable (L F cwd root) in
theorem open_namev_at (h : At r₀ l s) (path : Name) :
    ∃ l₁ r, Vfs.open_namev L F.toFs cwd root s path false = some (after s id r, r) ∧
      open_namev L F cwd root l path false = (l₁, r) ∧ At r₀ l₁ (after s id r) := by
  have hc := open_namev_counts L F cwd root h path false
  have heq : s.held ((F.tree s.fs).named L cwd root path) =
      (after s id ((F.tree s.fs).named L cwd root path), (F.tree s.fs).named L cwd root path) := by
    unfold State.held after
    cases (F.tree s.fs).named L cwd root path <;> rfl
  rw [Vfs.open_namev_eq, heq, Counts, eq_comm, Option.map_eq_some_iff] at hc
  obtain ⟨refs, hrefs, he⟩ := hc
  simp only [Prod.mk.injEq] at he
  refine ⟨_, (F.tree s.fs).named L cwd root path, by rw [Vfs.open_namev_eq, heq], Prod.ext rfl he.2, ?_⟩
  rw [← he.1]
  exact ⟨hrefs, rfl⟩

theorem do_link_counts (h : At r₀ l s) («from» «to» : Name) :
    Counts r₀ (Vfs.do_link L F.toFs cwd root s «from» «to») (do_link L F cwd root l «from» «to») := by
  unfold Vfs.do_link do_link
  iterate 4
    split
    · exact h.done _
  obtain ⟨l₁, r, h1, h2, h3⟩ := open_namev_at L F cwd root h «from»
  simp only [h1, h2, bind, Option.bind_some]
  cases r with
  | error e => exact h3.done _
  | ok f =>
    have hfs : s.fs = l₁.fs := h3.fs
    simp only [after, id_eq, State.vget_fs, hfs]
    split
    · exact h3.done _
    · obtain ⟨l₂, r, h4, h5, h6⟩ := dir_namev_at L F cwd root h3 «to»
      simp only [after, id_eq] at h4 h6
      simp only [h4, h5, Option.bind_some]
      cases r with
      | error e =>
        simp only [State.vget_vput, Option.bind_some]
        exact h6.got_put.done _
      | ok dn =>
        dsimp only at h6 ⊢
        rw [State.vget_comm] at h6 ⊢
        obtain ⟨l₃, r, h7, h8, h9⟩ := lookup_at L F h6.got_put.got_put dn.1 dn.2
        simp only [State.vget_vput, Option.bind_some, h7, h8]
        -- the second `vput` of the file
        cases r with
        | ok v =>
          exact h9.put_bind (fun s' h' => h'.put_bind (fun s'' h'' => h''.done _) id) replay_stays
        | error e =>
          have hfs₃ : s.fs = l₃.fs := h9.fs
          cases e with
          | ENOENT =>
            refine h9.put_bind (fun s' h' => ?_) replay_stays
            have hfs' : s'.fs = l₃.fs := h'.fs
            simp only [hfs', Log.use_fs, Log.put_fs]
            exact ((h'.use dn.1).setFs _).done _
          | _ => exact h9.put_bind (fun s' h' => h'.done _) id

end Weenix.Vfs.Logged
