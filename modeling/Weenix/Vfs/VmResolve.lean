import Weenix.Vfs.VmPaths
import Weenix.Vfs.VmWalk
/-!
# The two resolvers of vm-submit (`vfs_syscall.c`, `namev.c`)

`do_chdir` looks the last component up itself, and `open_namev` does so too.
They differ for the path "/", which only `open_namev` knows, and for a component
that is as long as `NAME_LEN`, which only `do_chdir` refuses.
-/

namespace Weenix.Vfs.VmSubmit

variable {σ : Type} {L : Limits} {F : VnodeOps σ} {cwd root : Nat} {s : State σ} {path : Name}

/-- `do_chdir` goes to `v` exactly when `open_namev` finds the directory `v`. -/
def ChdirOpens (L : Limits) (F : VnodeOps σ) (cwd root : Nat) (s : State σ) (path : Name) : Prop :=
  ∀ v, (∃ s', do_chdir L F cwd root s path = some (s', .ok v)) ↔
    (∃ s', open_namev L F.toFs cwd root s path false = some (s', .ok v)) ∧ (F.tree s.fs).isDir v = true

/-- No directory with a name of `NAME_LEN` characters or more is named, and if the path is "/", the root has no
other directory under "/" than under ".". -/
def Ordinary (L : Limits) (T : Tree) (root cwd : Nat) (path : Name) : Prop :=
  (∀ dir name v, parent L root cwd T path = .ok (dir, name) → L.NAME_LEN ≤ name.length → find T dir name = .ok v →
    T.isDir v = false) ∧
  (path = ['/'] → ∀ v, T.isDir v = true → (find T root ['/'] = .ok v ↔ find T root ['.'] = .ok v))

theorem do_chdir_ok_iff (hc : 0 < s.refs cwd) (hp : path.length < L.MAXPATHLEN) (v : Nat) :
    (∃ s', do_chdir L F cwd root s path = some (s', .ok v)) ↔
      ∃ dir name, parent L root cwd (F.tree s.fs) path = .ok (dir, name) ∧ name.length < L.NAME_LEN ∧
        find (F.tree s.fs) dir name = .ok v ∧ (F.tree s.fs).isDir v = true := by
  simp only [do_chdir, withDir, dir_namev_eq s hp, bind, Option.bind_some]
  cases parent L root cwd (F.tree s.fs) path with
  | error e => simp
  | ok x =>
    obtain ⟨dir, name⟩ := x
    simp only [Except.ok.injEq, Prod.mk.injEq]
    by_cases hlong : L.NAME_LEN ≤ name.length
    · simp only [if_pos hlong, State.vget_vput, Option.bind_some]
      refine iff_of_false (by simp) ?_
      rintro ⟨d, n, ⟨rfl, rfl⟩, hlt, -⟩
      omega
    · simp only [if_neg hlong, lookup, State.held, State.vget_fs]
      cases hf : find (F.tree s.fs) dir name with
      | error e =>
        simp only [State.vget_vput, Option.bind_some]
        refine iff_of_false (by simp) ?_
        rintro ⟨d, n, ⟨rfl, rfl⟩, -, hf', -⟩
        rw [hf] at hf'
        cases hf'
      | ok u =>
        simp only [State.vget_fs]
        by_cases hd : (F.tree s.fs).isDir u = true
        · have hpos : 0 < (s.vget u).refs cwd := by rw [vget_refs]; omega
          obtain ⟨s', hput⟩ := vput_some hpos
          simp only [hd, Bool.not_true, Bool.false_eq_true, if_false, vput_below, Option.bind_some, hput, Option.some.injEq,
            Prod.mk.injEq, Except.ok.injEq]
          constructor
          · rintro ⟨-, -, rfl⟩
            exact ⟨dir, name, ⟨rfl, rfl⟩, Nat.lt_of_not_le hlong, hf, hd⟩
          · rintro ⟨d, n, ⟨rfl, rfl⟩, -, hf', -⟩
            rw [hf] at hf'
            exact ⟨s', rfl, Except.ok.inj hf'⟩
        · simp only [hd, Bool.not_false, if_true, vput_below, State.vget_vput, Option.bind_some]
          refine iff_of_false (by simp) ?_
          rintro ⟨d, n, ⟨rfl, rfl⟩, -, hf', hd'⟩
          rw [hf] at hf'
          cases hf'
          exact hd hd'

theorem open_ok_iff (hp : path.length < L.MAXPATHLEN) (v : Nat) :
    (∃ s', open_namev L F.toFs cwd root s path false = some (s', .ok v)) ↔ named L root cwd (F.tree s.fs) path = .ok v := by
  rw [open_namev_eq s hp]
  cases named L root cwd (F.tree s.fs) path with
  | error e => simp [State.held]
  | ok u => simp [State.held]

/-- For any other path `open_namev` looks up the same component. -/
theorem named_eq {T : Tree} {dir : Nat} {name : Name} (h : parent L root cwd T path = .ok (dir, name)) (hroot : path ≠ ['/']) :
    named L root cwd T path = find T dir name := by
  have hname : name ≠ ['/'] := fun e => parent_no_slash h hroot (by simp [e])
  simp only [named, h, hname, or_false]
  split
  next he => simp [find, he.1]
  next => rfl

/-- The two agree exactly on ordinary paths. -/
theorem chdir_opens_iff (hc : 0 < s.refs cwd) (hN : 1 < L.NAME_LEN) :
    ChdirOpens L F cwd root s path ↔ (path.length < L.MAXPATHLEN → Ordinary L (F.tree s.fs) root cwd path) := by
  by_cases hp : path.length < L.MAXPATHLEN
  case neg =>
    refine iff_of_true (fun v => ?_) fun h => absurd h hp
    simp [do_chdir, withDir, open_namev, dir_namev, KASSERT, hp]
  simp only [ChdirOpens, do_chdir_ok_iff hc hp, open_ok_iff hp, hp, forall_const]
  by_cases hroot : path = ['/']
  · subst hroot
    have hparent : parent L root cwd (F.tree s.fs) ['/'] = .ok (root, ['/']) := rfl
    have hnamed : named L root cwd (F.tree s.fs) ['/'] = find (F.tree s.fs) root ['.'] := by simp [named, hparent]
    simp only [hparent, hnamed, Except.ok.injEq, Prod.mk.injEq, Ordinary]
    constructor
    · intro h
      refine ⟨?_, fun _ v hv => ?_⟩
      · rintro dir name v ⟨rfl, rfl⟩ hlong
        simp only [List.length_singleton] at hlong
        omega
      · constructor
        · intro hf
          exact ((h v).1 ⟨root, ['/'], ⟨rfl, rfl⟩, by simpa using hN, hf, hv⟩).1
        · intro hf
          obtain ⟨dir, name, ⟨rfl, rfl⟩, -, hf', -⟩ := (h v).2 ⟨hf, hv⟩
          exact hf'
    · rintro ⟨-, h⟩ v
      constructor
      · rintro ⟨dir, name, ⟨rfl, rfl⟩, -, hf, hd⟩
        exact ⟨(h trivial v hd).1 hf, hd⟩
      · rintro ⟨hf, hd⟩
        exact ⟨root, ['/'], ⟨rfl, rfl⟩, by simpa using hN, (h trivial v hd).2 hf, hd⟩
  · simp only [Ordinary, hroot, IsEmpty.forall_iff, and_true]
    cases hparent : parent L root cwd (F.tree s.fs) path with
    | error e => simp [named, hparent]
    | ok x =>
      obtain ⟨dir, name⟩ := x
      simp only [named_eq hparent hroot, Except.ok.injEq, Prod.mk.injEq]
      constructor
      · rintro h d n v ⟨rfl, rfl⟩ hlong hf
        by_contra hd
        obtain ⟨d, n, ⟨rfl, rfl⟩, hlt, -⟩ := (h v).2 ⟨hf, by simpa using hd⟩
        omega
      · intro h v
        constructor
        · rintro ⟨d, n, ⟨rfl, rfl⟩, -, hf, hd⟩
          exact ⟨hf, hd⟩
        · rintro ⟨hf, hd⟩
          refine ⟨dir, name, ⟨rfl, rfl⟩, Nat.lt_of_not_le fun hlong => ?_, hf, hd⟩
          rw [h dir name v ⟨rfl, rfl⟩ hlong hf] at hd
          cases hd

/-- `/d/` is gone to. -/
theorem chdir_into_d : ChdirOpens stock flatOps 0 0 oneFile "/d/".toList := by
  refine (chdir_opens_iff (by decide) (by decide)).2 fun _ => ⟨fun dir name v hp hlong => ?_, fun e => absurd e (by decide)⟩
  have h : parent stock 0 0 (flatOps.tree oneFile.fs) "/d/".toList = .ok (1, []) := by decide +kernel
  rw [h] at hp
  cases hp
  exact absurd hlong (by decide)

/-- The root is opened, and not gone to. -/
theorem chdir_not_root : (∃ s', do_chdir stock flatOps 0 0 oneFile ['/'] = some (s', .error .ENOENT)) ∧
    (∃ s', open_namev stock flat 0 0 oneFile ['/'] false = some (s', .ok 0)) ∧ (flatOps.tree oneFile.fs).isDir 0 = true ∧
    ¬ ChdirOpens stock flatOps 0 0 oneFile ['/'] := by
  have h1 : (do_chdir stock flatOps 0 0 oneFile ['/']).map (·.2) = some (.error .ENOENT) := by decide +kernel
  have h2 : (open_namev stock flat 0 0 oneFile ['/'] false).map (·.2) = some (.ok 0) := by decide +kernel
  obtain ⟨⟨s₁, r₁⟩, e₁, rfl⟩ := Option.map_eq_some_iff.1 h1
  obtain ⟨⟨s₂, r₂⟩, e₂, rfl⟩ := Option.map_eq_some_iff.1 h2
  refine ⟨⟨s₁, e₁⟩, ⟨s₂, e₂⟩, by decide, fun h => ?_⟩
  obtain ⟨s', hs'⟩ := (h 0).2 ⟨⟨s₂, e₂⟩, by decide⟩
  rw [e₁] at hs'
  cases hs'

end Weenix.Vfs.VmSubmit
