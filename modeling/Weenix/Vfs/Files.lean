import Weenix.Lib.Tally
import Weenix.Vfs.Rename
/-!
# Open files (`fs/file.h`, `proc/proc.h`)

A process has a table `p_files` of `NFILES` descriptors, each empty or the number
of a `file_t`. `fget`, `fref` and `fput` are not part of the sources; `Lawful`
says what the code relies on.

`Counted held` is the account of references: the `f_refcount` of a file is the
number of slots that point to it, and of references the running code has in
`held`. Each primitive moves one reference.
-/

namespace Weenix.Files
open Lib Vfs

/-- Wrap around to `int`. -/
def sint (n : Int) : Int := n.bmod (2 ^ 32)

theorem sint_of_lt {n : Int} (h0 : -2 ^ 31 ≤ n) (h1 : n < 2 ^ 31) : sint n = n := by
  simp only [sint, Int.bmod]
  omega

structure FMode where
  read : Bool := false
  write : Bool := false
  append : Bool := false
  deriving DecidableEq

structure File where
  f_refcount : Nat
  f_mode : FMode := {}
  f_pos : Int := 0
  f_vnode : Option Nat := none
  deriving DecidableEq

structure Fproc where
  p_pid : Int
  p_files : List (Option Nat)
  p_cwd : Nat
  /-- `p_state` is `PROC_DEAD`. -/
  dead : Bool := false
  deriving DecidableEq

/-- A `file_t` that is not allocated, and a process that is not there, are `none`. -/
structure System (σ : Type) where
  vfs : State σ
  files : Nat → Option File
  procs : Nat → Option Fproc
  nprocs : Nat
  /-- There is an init process. -/
  initproc : Bool

variable {σ : Type}

namespace System

variable (s : System σ)

/-- `p_files[fd]`. -/
def slot (p fd : Nat) : Option Nat := (s.procs p).bind fun pr => (pr.p_files[fd]?).join

def setProc (p : Nat) (pr : Option Fproc) : System σ := { s with procs := Function.update s.procs p pr }

def setSlot (p fd : Nat) (x : Option Nat) : System σ :=
  s.setProc p ((s.procs p).map fun pr => { pr with p_files := pr.p_files.set fd x })

def setFs (fs : σ) : System σ := { s with vfs := { s.vfs with fs := fs } }

def setFile (f : Nat) (x : Option File) : System σ := { s with files := Function.update s.files f x }

def modify (f : Nat) (g : File → File) : System σ := s.setFile f ((s.files f).map g)

def addRef (f : Nat) : System σ := s.modify f fun file => { file with f_refcount := file.f_refcount + 1 }

theorem setProc_ne {p q : Nat} (pr : Option Fproc) (h : q ≠ p) : (s.setProc p pr).procs q = s.procs q :=
  Function.update_of_ne h _ _

theorem slot_setSlot_ne {p fd fd' : Nat} (x : Option Nat) (h : fd ≠ fd') : (s.setSlot p fd x).slot p fd' = s.slot p fd' := by
  cases hp : s.procs p <;> simp [slot, setSlot, setProc, hp, List.getElem?_set_ne h]

theorem slot_setSlot_other {p q fd fd' : Nat} (x : Option Nat) (h : p ≠ q) : (s.setSlot q fd x).slot p fd' = s.slot p fd' := by
  rw [slot, setSlot, setProc_ne s _ h]
  rfl

variable {s} in
theorem slot_setSlot_some {p fd f : Nat} {x : Option Nat} (h : (s.setSlot p fd x).slot p fd = some f) : x = some f := by
  cases hp : s.procs p with
  | none => simp [slot, setSlot, setProc, hp] at h
  | some pr =>
    simp only [slot, setSlot, setProc, hp, Function.update_self, Option.map_some, Option.bind_some, List.getElem?_set_self'] at h
    cases hx : pr.p_files[fd]? with
    | none => simp [hx] at h
    | some y => simpa [hx] using h

variable {s} in
theorem setSlot_none {p fd : Nat} (h : s.slot p fd = none) : s.setSlot p fd none = s := by
  have hp : ((s.procs p).map fun pr => { pr with p_files := pr.p_files.set fd none }) = s.procs p := by
    cases hp : s.procs p with
    | none => rfl
    | some pr =>
      simp only [slot, hp, Option.bind_some] at h
      have hset : pr.p_files.set fd none = pr.p_files := by
        by_cases hlt : fd < pr.p_files.length
        · rw [List.getElem?_eq_getElem hlt, Option.join_some] at h
          rw [← h, List.set_getElem_self]
        · exact List.set_eq_of_length_le (Nat.not_lt.1 hlt)
      rw [Option.map_some, hset]
  simp only [setSlot, setProc, hp, Function.update_eq_self]

end System

/-- The flags of `do_open`. -/
structure OFlags where
  wronly : Bool := false
  rdwr : Bool := false
  creat : Bool := false
  trunc : Bool := false
  append : Bool := false
  deriving DecidableEq

/-- The file system with the operations on open files. An operation that a vnode
does not have is `none`; what a call returns may be negative. -/
structure Io (σ : Type) extends VnodeOps σ where
  isChr : σ → Nat → Bool
  isBlk : σ → Nat → Bool
  isReg : σ → Nat → Bool
  vn_cdev : σ → Nat → Bool
  vn_bdev : σ → Nat → Bool
  vn_len : σ → Nat → Nat
  read : σ → Nat → Int → Nat → Option (σ × Int)
  write : σ → Nat → Int → Nat → Option (σ × Int)
  readdir : σ → Nat → Int → Option (σ × Int)
  sizeof_dirent : Int

/-- The calls of the process `p`; `fget` gives `NULL` for a descriptor that is not open. -/
structure FileCalls (σ : Type) where
  fget : System σ → Nat → Int → System σ × Option Nat
  fref : System σ → Nat → System σ
  fput : System σ → Nat → Option (System σ)

/-- A file without one of its references; the last one frees it. -/
def File.put (file : File) : Option File :=
  if file.f_refcount = 1 then none else some { file with f_refcount := file.f_refcount - 1 }

/-- `fget(-1)` gives a new file with count 1, or fails, `fget(fd)` and `fref` add
one, `fput` takes one away. A file that is freed may put its vnode. -/
structure Lawful (O : FileCalls σ) : Prop where
  fget_new : ∀ s p, O.fget s p (-1) = (s, none) ∨
    ∃ f file, s.files f = none ∧ file.f_refcount = 1 ∧ O.fget s p (-1) = (s.setFile f (some file), some f)
  fget_fd : ∀ s p (fd : Nat), O.fget s p fd = match s.slot p fd with
    | none => (s, none)
    | some f => (s.addRef f, some f)
  fref : ∀ s f, O.fref s f = s.addRef f
  fput : ∀ s f file, s.files f = some file → 0 < file.f_refcount →
    ∃ vfs, O.fput s f = some { s.setFile f file.put with vfs := vfs } ∧ (1 < file.f_refcount → vfs = s.vfs)

/-- The first empty slot of `p_files`; `none` is `-EMFILE`. -/
def get_empty_fd (N : Nat) (s : System σ) (p : Nat) : Option Nat := (List.range N).find? fun fd => (s.slot p fd).isNone

/-! ## The account -/

def row (procs : Nat → Option Fproc) (p : Nat) : List (Option Nat) := ((procs p).map Fproc.p_files).getD []

/-- How many slots of the first `n` processes point to `f`. -/
def slots (procs : Nat → Option Fproc) (n f : Nat) : Nat := tally (row procs) (· == some f) n

def refcount (files : Nat → Option File) (f : Nat) : Nat := ((files f).map File.f_refcount).getD 0

structure Counted (N : Nat) (held : List Nat) (procs : Nat → Option Fproc) (n : Nat) (files : Nat → Option File) : Prop where
  rows : ∀ p pr, procs p = some pr → p < n ∧ pr.p_files.length = N
  counts : ∀ f, refcount files f = slots procs n f + held.count f
  live : ∀ f file, files f = some file → 0 < file.f_refcount

namespace Counted

variable {N n p f fd : Nat} {held : List Nat} {procs : Nat → Option Fproc} {files : Nat → Option File} {pr : Fproc} {file : File}

/-- A file of which a reference is held is there. -/
theorem exists_file (h : Counted N (f :: held) procs n files) : ∃ file, files f = some file ∧ 0 < file.f_refcount := by
  have hc := h.counts f
  rw [List.count_cons_self, refcount] at hc
  cases hf : files f with
  | none => simp [hf] at hc
  | some file => exact ⟨file, rfl, h.live f file hf⟩

/-- A file's count changes by one, and so does what is held of it. -/
theorem setFile {x : Option File} {held' : List Nat} (h : Counted N held procs n files)
    (hx : (x.map File.f_refcount).getD 0 + held.count f = refcount files f + held'.count f)
    (ho : ∀ u, u ≠ f → held'.count u = held.count u) (hl : ∀ file, x = some file → 0 < file.f_refcount) :
    Counted N held' procs n (Function.update files f x) := by
  refine ⟨h.rows, fun u => ?_, fun u file hu => ?_⟩
  · by_cases e : u = f
    · subst e
      have := h.counts u
      simp only [refcount, Function.update_self] at hx this ⊢
      omega
    · rw [refcount, Function.update_of_ne e, ho u e]
      exact h.counts u
  · by_cases e : u = f
    · subst e
      rw [Function.update_self] at hu
      exact hl file hu
    · rw [Function.update_of_ne e] at hu
      exact h.live u file hu

theorem take (h : Counted N held procs n files) (hf : files f = some file) :
    Counted N (f :: held) procs n (Function.update files f (some { file with f_refcount := file.f_refcount + 1 })) := by
  apply h.setFile
  · simp only [Option.map_some, Option.getD_some, refcount, hf, List.count_cons_self]
    omega
  · intro u hu
    exact List.count_cons_of_ne (Ne.symm hu)
  · rintro _ ⟨⟩
    exact Nat.succ_pos _

theorem create (h : Counted N held procs n files) (hf : files f = none) (h1 : file.f_refcount = 1) :
    Counted N (f :: held) procs n (Function.update files f (some file)) := by
  apply h.setFile
  · simp only [Option.map_some, Option.getD_some, refcount, hf, List.count_cons_self, Option.map_none, Option.getD_none, h1]
    omega
  · intro u hu
    exact List.count_cons_of_ne (Ne.symm hu)
  · rintro _ ⟨⟩
    omega

theorem drop (h : Counted N (f :: held) procs n files) (hf : files f = some file) :
    Counted N held procs n (Function.update files f file.put) := by
  have hpos := h.live f file hf
  apply h.setFile
  · simp only [refcount, hf, List.count_cons_self, File.put, Option.map_some, Option.getD_some]
    split
    · simp; omega
    · simp; omega
  · intro u hu
    exact (List.count_cons_of_ne (Ne.symm hu)).symm
  · intro file' he
    simp only [File.put] at he
    split at he
    · cases he
    · cases he
      dsimp only
      omega

/-- The other fields of a file change. -/
theorem same {g : File → File} (h : Counted N held procs n files) (hg : ∀ file, (g file).f_refcount = file.f_refcount) :
    Counted N held procs n (Function.update files f ((files f).map g)) := by
  apply h.setFile
  · cases hf : files f <;> simp [refcount, hf, hg]
  · exact fun _ _ => rfl
  · intro file' he
    obtain ⟨file, hf, rfl⟩ := Option.map_eq_some_iff.1 he
    rw [hg]
    exact h.live f file hf

/-! ### Slots -/

theorem row_update (q : Nat) (x : Option Fproc) : row (Function.update procs q x) = Function.update (row procs) q ((x.map Fproc.p_files).getD []) := by
  funext r
  simp only [row, Function.update_apply]
  split <;> rfl

theorem set_count {l : List (Option Nat)} {x y : Option Nat} (u : Nat) (hl : l[fd]? = some x) :
    (l.set fd y).countP (· == some u) + (if x = some u then 1 else 0) =
      l.countP (· == some u) + if y = some u then 1 else 0 := by
  obtain ⟨hlt, hx⟩ := List.getElem?_eq_some_iff.1 hl
  rw [List.countP_set hlt, hx]
  have hpos : x = some u → 0 < l.countP (· == some u) := by
    rintro rfl
    exact List.countP_pos_iff.2 ⟨_, hx ▸ List.getElem_mem hlt, beq_self_eq_true _⟩
  simp only [beq_iff_eq]
  split
  next e => have := hpos e; omega
  next => omega

/-- A slot changes from `x` to `y`. -/
theorem setSlot {x y : Option Nat} {held' : List Nat} (h : Counted N held procs n files) (hp : procs p = some pr)
    (hx : pr.p_files[fd]? = some x)
    (he : ∀ u, held'.count u + (if y = some u then 1 else 0) = held.count u + if x = some u then 1 else 0) :
    Counted N held' (Function.update procs p (some { pr with p_files := pr.p_files.set fd y })) n files := by
  obtain ⟨hlt, hlen⟩ := h.rows p pr hp
  refine ⟨fun q pq hq => ?_, fun u => ?_, h.live⟩
  · by_cases e : q = p
    · subst e
      rw [Function.update_self] at hq
      cases hq
      exact ⟨hlt, by rw [List.length_set]; exact hlen⟩
    · rw [Function.update_of_ne e] at hq
      exact h.rows q pq hq
  · have h1 := Tally.update (f := row procs) (p := (· == some u)) (pr.p_files.set fd y) hlt
    have h2 := set_count u hx (y := y)
    have h3 := h.counts u
    have h4 := he u
    have hrow : row procs p = pr.p_files := by simp [row, hp]
    rw [hrow] at h1
    rw [slots] at h3 ⊢
    rw [row_update, Option.map_some, Option.getD_some]
    dsimp only
    omega

theorem fill (h : Counted N (f :: held) procs n files) (hp : procs p = some pr) (hx : pr.p_files[fd]? = some none) :
    Counted N held (Function.update procs p (some { pr with p_files := pr.p_files.set fd (some f) })) n files := by
  refine h.setSlot hp hx fun u => ?_
  by_cases e : f = u
  · subst e; simp
  · simp [e]

theorem clear (h : Counted N held procs n files) (hp : procs p = some pr) (hx : pr.p_files[fd]? = some (some f)) :
    Counted N (f :: held) (Function.update procs p (some { pr with p_files := pr.p_files.set fd none })) n files := by
  refine h.setSlot hp hx fun u => ?_
  by_cases e : f = u
  · subst e; simp
  · simp [e]

/-- A slot that is not empty has a file. -/
theorem open_file (h : Counted N held procs n files) (hp : procs p = some pr) (hx : pr.p_files[fd]? = some (some f)) :
    ∃ file, files f = some file ∧ 0 < file.f_refcount :=
  (h.clear hp hx).exists_file

/-! ### Processes -/

/-- The process changes in place; its files do not. -/
theorem setProc {pr' : Fproc} (h : Counted N held procs n files) (hp : procs p = some pr) (he : pr'.p_files = pr.p_files) :
    Counted N held (Function.update procs p (some pr')) n files := by
  refine ⟨fun q pq hq => ?_, fun u => ?_, h.live⟩
  · by_cases e : q = p
    · subst e
      rw [Function.update_self] at hq
      cases hq
      exact ⟨(h.rows q pr hp).1, he ▸ (h.rows q pr hp).2⟩
    · rw [Function.update_of_ne e] at hq
      exact h.rows q pq hq
  · have hrow : row procs p = pr.p_files := by simp [row, hp]
    rw [h.counts u, slots, slots, row_update, Option.map_some, Option.getD_some, he, ← hrow, Function.update_eq_self]

/-- A new process has no open file. -/
theorem spawn {pr : Fproc} (h : Counted N held procs n files) (hpr : pr.p_files = List.replicate N none) :
    Counted N held (Function.update procs n (some pr)) (n + 1) files := by
  refine ⟨fun q pq hq => ?_, fun u => ?_, h.live⟩
  · by_cases e : q = n
    · subst e
      rw [Function.update_self] at hq
      cases hq
      exact ⟨Nat.lt_succ_self q, by rw [hpr, List.length_replicate]⟩
    · rw [Function.update_of_ne e] at hq
      exact ⟨Nat.lt_succ_of_lt (h.rows q pq hq).1, (h.rows q pq hq).2⟩
  · rw [h.counts u, slots, slots, tally, row_update, Tally.update_ge _ (Nat.le_refl n), Function.update_self]
    simp [hpr, List.countP_replicate]

/-- The references of a process that is taken off are held. -/
theorem remove (h : Counted N held procs n files) (hp : procs p = some pr) :
    Counted N (pr.p_files.filterMap id ++ held) (Function.update procs p none) n files := by
  refine ⟨fun q pq hq => ?_, fun u => ?_, h.live⟩
  · by_cases e : q = p
    · subst e
      simp at hq
    · rw [Function.update_of_ne e] at hq
      exact h.rows q pq hq
  · have h1 := Tally.update (f := row procs) (p := (· == some u)) [] (h.rows p pr hp).1
    have hrow : row procs p = pr.p_files := by simp [row, hp]
    have hcount : (pr.p_files.filterMap id).count u = pr.p_files.countP (· == some u) := by
      rw [List.count, List.countP_filterMap]
      apply List.countP_congr
      rintro (_ | v) _ <;> simp
    have h3 := h.counts u
    rw [hrow, List.countP_nil] at h1
    rw [slots] at h3 ⊢
    rw [row_update, Option.map_none, Option.getD_none, List.count_append, hcount]
    omega

end Counted

def Accounted (N : Nat) (held : List Nat) (s : System σ) : Prop := Counted N held s.procs s.nprocs s.files

namespace Accounted

variable {N p f fd : Nat} {held : List Nat} {s s' : System σ} {O : FileCalls σ}

theorem slot_some (hs : s.slot p fd = some f) : ∃ pr, s.procs p = some pr ∧ pr.p_files[fd]? = some (some f) := by
  simp only [System.slot, Option.bind_eq_some_iff] at hs
  obtain ⟨pr, hp, hx⟩ := hs
  refine ⟨pr, hp, ?_⟩
  cases h : pr.p_files[fd]? with
  | none => simp [h] at hx
  | some x => rw [h] at hx; exact congrArg some hx

theorem slot_none (h : Accounted N held s) {pr : Fproc} (hp : s.procs p = some pr) (hfd : fd < N)
    (hs : s.slot p fd = none) : pr.p_files[fd]? = some none := by
  have hlen := (h.rows p pr hp).2
  simp only [System.slot, hp, Option.bind_some] at hs
  cases hx : pr.p_files[fd]? with
  | none => rw [List.getElem?_eq_none_iff] at hx; omega
  | some x => rw [hx] at hs; exact congrArg some hs

/-- A slot has a file, which is there. -/
theorem slot_file (h : Accounted N held s) (hs : s.slot p fd = some f) : ∃ file, s.files f = some file ∧ 0 < file.f_refcount := by
  obtain ⟨pr, hp, hx⟩ := slot_some hs
  exact h.open_file hp hx

theorem setFs (h : Accounted N held s) (fs : σ) : Accounted N held (s.setFs fs) := h

theorem modify (h : Accounted N held s) (f : Nat) {g : File → File} (hg : ∀ file, (g file).f_refcount = file.f_refcount) :
    Accounted N held (s.modify f g) :=
  h.same hg

theorem addRef (h : Accounted N held s) (hs : s.slot p fd = some f) : Accounted N (f :: held) (s.addRef f) := by
  obtain ⟨file, hf, -⟩ := h.slot_file hs
  simp only [System.addRef, System.modify, System.setFile, hf, Option.map_some]
  exact h.take hf

theorem fill (h : Accounted N (f :: held) s) (hp : (s.procs p).isSome) (hfd : fd < N) (hs : s.slot p fd = none) :
    Accounted N held (s.setSlot p fd (some f)) := by
  obtain ⟨pr, hp⟩ := Option.isSome_iff_exists.1 hp
  simp only [System.setSlot, System.setProc, hp, Option.map_some]
  exact Counted.fill h hp (h.slot_none hp hfd hs)

theorem clear (h : Accounted N held s) (hs : s.slot p fd = some f) : Accounted N (f :: held) (s.setSlot p fd none) := by
  obtain ⟨pr, hp, hx⟩ := slot_some hs
  simp only [System.setSlot, System.setProc, hp, Option.map_some]
  exact Counted.clear h hp hx

/-- An empty slot is emptied. -/
theorem empty (h : Accounted N held s) (hs : s.slot p fd = none) : Accounted N held (s.setSlot p fd none) := by
  rw [System.setSlot_none hs]
  exact h

/-- A new file is held by the code. -/
theorem fget_new (hO : Lawful O) (h : Accounted N held s) (hg : O.fget s p (-1) = (s', some f)) :
    Accounted N (f :: held) s' ∧ s'.procs = s.procs := by
  rcases hO.fget_new s p with hn | ⟨f', file, hf, h1, hn⟩
  · rw [hn] at hg; cases hg
  · rw [hn] at hg
    cases hg
    exact ⟨h.create hf h1, rfl⟩

/-- A file of a descriptor is held once more. -/
theorem fget_fd (hO : Lawful O) (h : Accounted N held s) {fd : Int} (hfd : ¬ fd < 0) (hg : O.fget s p fd = (s', some f)) :
    Accounted N (f :: held) s' ∧ s'.procs = s.procs := by
  obtain ⟨n, rfl⟩ := Int.eq_ofNat_of_zero_le (Int.not_lt.1 hfd)
  rw [hO.fget_fd] at hg
  split at hg
  next => cases hg
  next f' hs =>
    cases hg
    exact ⟨h.addRef hs, rfl⟩

/-- Without a file the call has changed nothing. -/
theorem fget_none (hO : Lawful O) {fd : Int} (hfd : fd = -1 ∨ ¬ fd < 0) (hg : O.fget s p fd = (s', none)) : s' = s := by
  rcases hfd with rfl | hfd
  · rcases hO.fget_new s p with hn | ⟨f', file, hf, h1, hn⟩
    · rw [hn] at hg; cases hg; rfl
    · rw [hn] at hg; cases hg
  · obtain ⟨n, rfl⟩ := Int.eq_ofNat_of_zero_le (Int.not_lt.1 hfd)
    rw [hO.fget_fd] at hg
    split at hg
    next => cases hg; rfl
    next => cases hg

/-- A way out without a file. -/
theorem fget_out {α : Type} {x r : α} {s₁ : System σ} (hO : Lawful O) (h : Accounted N held s) {fd : Int}
    (hfd : fd = -1 ∨ ¬ fd < 0) (hg : O.fget s p fd = (s₁, none)) (hc : some (s₁, x) = some (s', r)) : Accounted N held s' := by
  cases hc
  rw [fget_none hO hfd hg]
  exact h

/-- Putting a reference that is held touches only the file, and the vnodes. -/
theorem fput (hO : Lawful O) (h : Accounted N (f :: held) s) : ∃ s', O.fput s f = some s' ∧ Accounted N held s' ∧
    s'.procs = s.procs ∧ s'.nprocs = s.nprocs ∧ s'.initproc = s.initproc := by
  obtain ⟨file, hf, hpos⟩ := h.exists_file
  obtain ⟨vfs, hput, -⟩ := hO.fput s f file hf hpos
  exact ⟨_, hput, h.drop hf, rfl, rfl, rfl⟩

theorem fput_keeps (hO : Lawful O) (h : Accounted N (f :: held) s) (hput : O.fput s f = some s') :
    Accounted N held s' ∧ s'.procs = s.procs := by
  obtain ⟨s₁, h1, h2, h3, -⟩ := h.fput hO
  cases hput.symm.trans h1
  exact ⟨h2, h3⟩

/-- A way out that puts the file which the code holds. -/
theorem fput_out {α : Type} {x r : α} (hO : Lawful O) (h : Accounted N (f :: held) s)
    (hc : (do
        let s ← O.fput s f
        some (s, x)) = some (s', r)) : Accounted N held s' := by
  obtain ⟨s₁, hput, hc⟩ := Option.bind_eq_some_iff.1 hc
  cases hc
  exact (h.fput_keeps hO hput).1

/-- The file of a slot is put first, and the slot is emptied then. -/
theorem fput_clear (hO : Lawful O) (h : Accounted N held s) (hs : s.slot p fd = some f) (hput : O.fput s f = some s') :
    Accounted N held (s'.setSlot p fd none) := by
  have hc := h.clear hs
  obtain ⟨file, hf, hpos⟩ := h.slot_file hs
  obtain ⟨vfs, hput', -⟩ := hO.fput s f file hf hpos
  cases hput.symm.trans hput'
  exact hc.drop hf

theorem slot_setSlot (h : Accounted N held s) (hp : (s.procs p).isSome) (hfd : fd < N) (x : Option Nat) :
    (s.setSlot p fd x).slot p fd = x := by
  obtain ⟨pr, hp⟩ := Option.isSome_iff_exists.1 hp
  have hlen := (h.rows p pr hp).2
  simp [System.slot, System.setSlot, System.setProc, hp, hlen, hfd]

theorem procs_slot (h : s'.procs = s.procs) (p fd : Nat) : s'.slot p fd = s.slot p fd := by
  simp only [System.slot, h]

end Accounted

/-- Processes with empty tables. -/
def NoFiles (N : Nat) (s : System σ) : Prop :=
  (∀ f, s.files f = none) ∧ ∀ p pr, s.procs p = some pr → p < s.nprocs ∧ pr.p_files = List.replicate N none

theorem NoFiles.accounted {N : Nat} {s : System σ} (h : NoFiles N s) : Accounted N [] s := by
  refine ⟨fun p pr hp => ⟨(h.2 p pr hp).1, by rw [(h.2 p pr hp).2, List.length_replicate]⟩, fun f => ?_, fun f file hf => ?_⟩
  · have hrow (p : Nat) : (row s.procs p).countP (· == some f) = 0 := by
      rw [List.countP_eq_zero, row]
      intro x hx
      cases hp : s.procs p with
      | none => simp [hp] at hx
      | some pr =>
        rw [hp, Option.map_some, Option.getD_some, (h.2 p pr hp).2] at hx
        simp [List.eq_of_mem_replicate hx]
    simp [refcount, h.1, slots, Tally.eq_zero_iff.2 fun p _ => List.countP_eq_zero.1 (hrow p)]
  · rw [h.1] at hf
    cases hf

theorem get_empty_fd_some {N p fd : Nat} {s : System σ} (h : get_empty_fd N s p = some fd) : fd < N ∧ s.slot p fd = none := by
  obtain ⟨h1, h2⟩ := List.find?_eq_some_iff_append.1 h
  exact ⟨List.mem_range.1 (List.mem_of_find?_eq_some h), by simpa using h1⟩

/-! ## A small system -/

/-- The vnodes after a reference to the file is put. -/
def File.release (vfs : State σ) (file : File) : State σ :=
  if file.f_refcount = 1 then (file.f_vnode.bind vfs.vput).getD vfs else vfs

/-- There is room for eight files. -/
def slab : FileCalls σ where
  fget s p fd :=
    if fd = -1 then
      match (List.range 8).find? fun f => (s.files f).isNone with
      | none => (s, none)
      | some f => (s.setFile f (some { f_refcount := 1 }), some f)
    else if fd < 0 then (s, none)
    else
      match s.slot p fd.toNat with
      | none => (s, none)
      | some f => (s.addRef f, some f)
  fref s f := s.addRef f
  fput s f := do
    let file ← s.files f
    KASSERT (0 < file.f_refcount)
    some { s.setFile f file.put with vfs := file.release s.vfs }

theorem slab_lawful : Lawful (slab : FileCalls σ) := by
  refine ⟨fun s p => ?_, fun s p fd => ?_, fun s f => rfl, fun s f file hf hpos => ⟨file.release s.vfs, ?_, fun h => ?_⟩⟩
  · simp only [slab, if_true]
    split
    next => exact .inl rfl
    next f hf => exact .inr ⟨f, _, by simpa using List.find?_some hf, rfl, rfl⟩
  · have h1 : ¬ (fd : Int) = -1 := by omega
    have h2 : ¬ (fd : Int) < 0 := by omega
    simp only [slab, if_neg h1, if_neg h2, Int.toNat_natCast]
  · simp only [slab, hf, bind, Option.bind_some, KASSERT, if_pos hpos]
  · exact if_neg (by omega)

/-- No device, and files that are empty. -/
def flatIo : Io (Nat → Name → Option Nat) where
  toVnodeOps := flatOps
  isChr _ _ := false
  isBlk _ _ := false
  isReg _ v := v == 2
  vn_cdev _ _ := false
  vn_bdev _ _ := false
  vn_len _ _ := 0
  read s _ _ _ := some (s, 0)
  write _ _ _ _ := none
  readdir s _ _ := some (s, 0)
  sizeof_dirent := 40

/-- One process, in the root directory. -/
def oneProc (pid : Int) : System (Nat → Name → Option Nat) where
  vfs := oneFile
  files _ := none
  procs p := if p = 0 then some { p_pid := pid, p_files := List.replicate 4 none, p_cwd := 0 } else none
  nprocs := 1
  initproc := true

theorem oneProc_noFiles (pid : Int) : NoFiles 4 (oneProc pid) := by
  refine ⟨fun _ => rfl, fun p pr hp => ?_⟩
  simp only [oneProc] at hp
  split at hp
  next h => cases hp; exact ⟨by simp [oneProc, h], rfl⟩
  next => cases hp

end Weenix.Files
