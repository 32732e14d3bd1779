import Weenix.Lib.Handles
import Weenix.Vfs.Positions
import Weenix.Vfs.VmForkFiles
/-!
# Descriptors in vm-submit

A descriptor stands for an open file, with a mode, a position and a vnode, that
it shares with the descriptors it was copied to and with those of children. The
calls keep to this without counting anything (`Means`). The code counts, frees
and reuses the `file_t`, and shows the same.
-/

namespace Weenix.Files.VmSubmit
open Lib Vfs
open VfsSubmit (behind behind_eq fget_behind addRef_files fput_moved fput_still moved)

variable {σ : Type}

/-- What an open file is, apart from its count. -/
structure Desc where
  f_mode : FMode
  f_pos : Int
  f_vnode : Option Nat

def descOf (file : File) : Desc := ⟨file.f_mode, file.f_pos, file.f_vnode⟩

def descs (s : System σ) (f : Nat) : Option Desc := (s.files f).map descOf

/-! ## What the calls mean -/

section
variable (N : Nat) (a : Handles Desc) (p : Nat)

/-- The description behind `fd`. -/
def descAt (fd : Int) : Option Nat := if fd < 0 ∨ N ≤ fd then none else a.tab p fd.toNat

/-- The lowest handle that is free. -/
def Lowest (fd : Nat) : Prop := fd < N ∧ a.tab p fd = none ∧ ∀ fd' < fd, a.tab p fd' ≠ none

/-- A call that returns `n` moves the position of what `fd` stands for, as `moves` says. -/
def MovesTo (fd : Int) (moves : Desc → Int → Int → Prop) (r : Except Errno Int) (a' : Handles Desc) : Prop :=
  ∃ d n pos, descAt N a p fd = some d ∧ r = .ok n ∧ moves (a.desc d) n pos ∧ a' = a.put d { a.desc d with f_pos := pos }

end

/-- The new position after a call has returned `n`. -/
def readTo (d : Desc) (n pos : Int) : Prop := pos = if 0 < n then sint (d.f_pos + n) else d.f_pos

def writeTo (d : Desc) (n pos : Int) : Prop := d.f_mode.append = false → pos = if 0 ≤ n then sint (d.f_pos + n) else d.f_pos

def getdentTo (sizeof_dirent : Int) (d : Desc) (n pos : Int) : Prop := n = sizeof_dirent ∨ pos = d.f_pos

def lseekTo (_ : Desc) (n pos : Int) : Prop := pos = n

/-- What a call does when it succeeds. -/
def Succeeds (N : Nat) (F : Io σ) (a : Handles Desc) (p : Nat) (r : Except Errno Int) (a' : Handles Desc) : FileCall → Prop
  | .do_open _ oflags => ∃ (fd : Nat) (d : Desc), r = .ok fd ∧ Lowest N a p fd ∧ d.f_mode = openMode oflags ∧
      d.f_vnode.isSome ∧ a' = a.opened p fd d
  | .do_close fd => r = .ok 0 ∧ (descAt N a p fd).isSome ∧ a' = a.set p fd.toNat none
  | .do_dup fd => ∃ (d : Nat) (n : Nat), descAt N a p fd = some d ∧ Lowest N a p n ∧ r = .ok n ∧ a' = a.set p n (some d)
  | .do_dup2 ofd nfd => ∃ d, descAt N a p ofd = some d ∧ (0 ≤ nfd ∧ nfd < N) ∧ r = .ok nfd ∧
      a' = a.set p nfd.toNat (some d)
  | .do_read fd _ => MovesTo N a p fd readTo r a'
  | .do_write fd _ => MovesTo N a p fd writeTo r a'
  | .do_getdent fd => MovesTo N a p fd (getdentTo F.sizeof_dirent) r a'
  | .do_lseek fd _ _ => MovesTo N a p fd lseekTo r a'
  | .do_fork pid => ∃ q, q ≠ p ∧ (∀ fd, a.tab q fd = none) ∧ r = .ok pid ∧ a' = a.setRow q (a.tab p)
  | .exit => r = .ok 0 ∧ a' = a.setRow p fun _ => none

/-- A call fails and changes nothing, or succeeds. -/
def Means (N : Nat) (F : Io σ) (a : Handles Desc) (e : Nat × FileCall) (r : Except Errno Int) (a' : Handles Desc) : Prop :=
  (∃ err, r = .error err) ∧ a' = a ∨ Succeeds N F a e.1 r a' e.2

variable {N : Nat} {L : Limits} {F : Io σ} {O : FileCalls σ} {root p f fd : Nat} {held : List Nat} {s s' : System σ}
  {r : Except Errno Int} {m : Nat → Nat} {a a' : Handles Desc} {file : File}

/-! ## The code shows the model -/

/-- The counts are right, and the tables show `a`. -/
structure Match (N : Nat) (held : List Nat) (m : Nat → Nat) (s : System σ) (a : Handles Desc) : Prop where
  accounted : Accounted N held s
  shows : Shows s.slot (descs s) m a

/-- Files may go, but those that stay are as they were. -/
def Shrinks (s s' : System σ) : Prop :=
  ∀ f file', s'.files f = some file' → ∃ file, s.files f = some file ∧ descOf file' = descOf file

theorem Shrinks.descs_eq (h : Shrinks s s') (hacc : Accounted N held s') (hs : s'.slot p fd = some f) : descs s' f = descs s f := by
  obtain ⟨file', hf', -⟩ := hacc.slot_file hs
  obtain ⟨file, hf, hd⟩ := h f file' hf'
  rw [descs, descs, hf, hf', Option.map_some, Option.map_some, hd]

theorem shrinks_put (hf : s.files f = some file) (vfs : State σ) : Shrinks s { s.setFile f file.put with vfs := vfs } := by
  intro g file' hg
  simp only [System.setFile, Function.update_apply] at hg
  split at hg
  next e =>
    rw [File.put] at hg
    split at hg <;> cases hg
    exact ⟨file, e ▸ hf, rfl⟩
  next => exact ⟨file', hg, rfl⟩

theorem behind_of_slot (h : Accounted N held s) (hs : s.slot p fd = some f) : fd < N := by
  obtain ⟨pr, hp, hx⟩ := Accounted.slot_some hs
  rw [← (h.rows p pr hp).2]
  exact (List.getElem?_eq_some_iff.1 hx).1

theorem slot_setSlot_eq (h : Accounted N held s) (hp : (s.procs p).isSome) (hfd : fd < N) (x : Option Nat) :
    (s.setSlot p fd x).slot = Function.update s.slot p (Function.update (s.slot p) fd x) := by
  funext q fd'
  rw [Function.update_apply]
  split
  next e =>
    rw [e, Function.update_apply]
    split
    next e' =>
      rw [e']
      exact h.slot_setSlot hp hfd x
    next e' => exact s.slot_setSlot_ne x (Ne.symm e')
  next e => exact s.slot_setSlot_other x e

namespace Match

theorem descAt_eq (h : Match N held m s a) (fd : Int) : descAt N a p fd = (behind N s p fd).map m := by
  unfold descAt behind
  split
  next => rfl
  next => exact h.shows.tab p fd.toNat

theorem lowest (h : Match N held m s a) (hfd : get_empty_fd N s p = some fd) : Lowest N a p fd := by
  obtain ⟨hlt, hempty⟩ := get_empty_fd_some hfd
  refine ⟨hlt, by rw [h.shows.tab, hempty]; rfl, fun fd' hlt' => ?_⟩
  have hnone := (List.find?_range_eq_some.1 hfd).2.2 fd' hlt'
  rw [h.shows.tab, Ne, Option.map_eq_none_iff]
  simpa [Option.isSome_iff_ne_none] using hnone

theorem shrink (h : Match N held m s a) {held' : List Nat} (hacc : Accounted N held' s') (hslot : s'.slot = s.slot)
    (hfiles : Shrinks s s') : Match N held' m s' a :=
  ⟨hacc, h.shows.congr hslot fun q fd' g hg => hfiles.descs_eq hacc (by rwa [hslot])⟩

/-- Slots change to files that are open already. -/
theorem slots (h : Match N held m s a) {held' : List Nat} {tab' : Nat → Nat → Option Nat} (hacc : Accounted N held' s')
    (hfiles : ∀ f, descs s' f = descs s f) (htab : ∀ p fd, tab' p fd = (s'.slot p fd).map m)
    (hused : ∀ p fd f, s'.slot p fd = some f → ∃ q fd', s.slot q fd' = some f) :
    Match N held' m s' { a with tab := tab' } := by
  have hd : descs s' = descs s := funext hfiles
  refine ⟨hacc, ?_⟩
  rw [hd]
  exact h.shows.slots htab hused

theorem addRef (h : Match N held m s a) (hs : s.slot p fd = some f) : Match N (f :: held) m (s.addRef f) a := by
  obtain ⟨file, hf, -⟩ := h.accounted.slot_file hs
  refine h.shrink (h.accounted.addRef hs) rfl fun g file' hg => ?_
  rw [addRef_files hf, Function.update_apply] at hg
  split at hg
  next e =>
    cases hg
    exact ⟨file, e ▸ hf, rfl⟩
  next => exact ⟨file', hg, rfl⟩

theorem fput (hO : Lawful O) (h : Match N (f :: held) m s a) (hput : O.fput s f = some s') : Match N held m s' a := by
  obtain ⟨hacc, hprocs⟩ := h.accounted.fput_keeps hO hput
  obtain ⟨file, hf, hpos⟩ := h.accounted.exists_file
  obtain ⟨vfs, hput', -⟩ := hO.fput s f file hf hpos
  cases hput.symm.trans hput'
  exact h.shrink hacc rfl (shrinks_put hf vfs)

/-- A slot is filled with a file that is open, or emptied. -/
theorem setSlot (h : Match N held m s a) {held' : List Nat} {x : Option Nat} (hp : (s.procs p).isSome) (hfd : fd < N)
    (hacc : Accounted N held' (s.setSlot p fd x)) (hx : ∀ g, x = some g → ∃ q fd', s.slot q fd' = some g) :
    Match N held' m (s.setSlot p fd x) (a.set p fd (x.map m)) := by
  have hslot := slot_setSlot_eq h.accounted hp hfd x
  refine h.slots hacc (fun _ => rfl) (fun q fd' => ?_) fun q fd' g hg => ?_
  · rw [hslot, Function.update_apply, Function.update_apply]
    split
    next e =>
      rw [Function.update_apply, Function.update_apply]
      split
      next => rfl
      next => exact h.shows.tab p fd'
    next => exact h.shows.tab q fd'
  · rw [hslot, Function.update_apply] at hg
    split at hg
    next e =>
      rw [Function.update_apply] at hg
      split at hg
      next => exact hx g hg
      next => exact ⟨p, fd', hg⟩
    next => exact ⟨q, fd', hg⟩

/-- A file that is open moves its position. -/
theorem moved (h : Match N held m s a) (hs : s.slot p fd = some f) (hf : s.files f = some file) (fs : σ) (pos : Int) :
    Match N held m (moved s fs f file pos) (a.put (m f) { a.desc (m f) with f_pos := pos }) := by
  have hmod : VfsSubmit.moved s fs f file pos = (s.setFs fs).modify f fun file => { file with f_pos := pos } := by
    simp [VfsSubmit.moved, System.modify, System.setFile, System.setFs, hf]
  have hd := h.shows.desc p fd f hs
  rw [descs, hf, Option.map_some, Option.some.injEq] at hd
  refine ⟨hmod ▸ (h.accounted.setFs fs).modify f fun _ => rfl, ?_⟩
  have hv : descs (VfsSubmit.moved s fs f file pos) f = some { a.desc (m f) with f_pos := pos } := by
    simp only [descs, VfsSubmit.moved, Function.update_self, Option.map_some, ← hd]
    rfl
  exact h.shows.put hs hv fun g hg => by simp only [descs, VfsSubmit.moved, Function.update_of_ne hg]

end Match

/-! ## Calls on positions -/

/-- The state after a call shows what the call means. -/
def Shown (N : Nat) (F : Io σ) (a : Handles Desc) (e : Nat × FileCall) (r : Except Errno Int) (s' : System σ) : Prop :=
  ∃ held m a', Means N F a e r a' ∧ Match N held m s' a'

variable {e : Nat × FileCall} {i : Int}

theorem Match.failed (h : Match N held m s a) (err : Errno) : Shown N F a e (.error err) s :=
  ⟨held, m, a, .inl ⟨⟨err, rfl⟩, rfl⟩, h⟩

theorem fget_some (hO : Lawful O) {s₁ : System σ} (hneg : ¬ i < 0) (hbig : ¬ N ≤ i) (hg : O.fget s p i = (s₁, some f)) :
    behind N s p i = some f ∧ s₁ = s.addRef f := by
  have hget := hO.fget_fd s p i.toNat
  rw [Int.toNat_of_nonneg (by omega), hg] at hget
  have hb : behind N s p i = s.slot p i.toNat := if_neg (by omega)
  split at hget
  next => cases hget
  next g hs =>
    cases hget
    exact ⟨hb.trans hs, rfl⟩

/-- Behind an open descriptor there is a file. -/
theorem Match.behind_file (h : Match N held m s a) (hb : behind N s p i = some f) :
    ∃ file, s.files f = some file ∧ 0 < file.f_refcount ∧ descAt N a p i = some (m f) ∧ a.desc (m f) = descOf file := by
  obtain ⟨-, -, hs⟩ := behind_eq hb
  obtain ⟨file, hf, hpos⟩ := h.accounted.slot_file hs
  have hd := h.shows.desc p i.toNat f hs
  rw [descs, hf, Option.map_some, Option.some.injEq] at hd
  exact ⟨file, hf, hpos, by rw [h.descAt_eq, hb]; rfl, hd.symm⟩

/-- The position is moved. -/
theorem Match.succeeds (h : Match N held m s a) (hb : behind N s p i = some f) (hf : s.files f = some file) (fs : σ)
    (moves : Desc → Int → Int → Prop) {n pos : Int} (hmoves : moves (descOf file) n pos)
    (hmeans : ∀ a', MovesTo N a p i moves (.ok n) a' → Succeeds N F a e.1 (.ok n) a' e.2) :
    Shown N F a e (.ok n) (VfsSubmit.moved s fs f file pos) := by
  obtain ⟨file', hf', -, hname, hd⟩ := h.behind_file hb
  cases hf.symm.trans hf'
  exact ⟨held, m, _, .inr (hmeans _ ⟨m f, n, pos, hname, rfl, by rwa [hd], rfl⟩), h.moved (behind_eq hb).2.2 hf fs pos⟩

/-- How the calls begin that look a descriptor up. -/
theorem fget_begin (hO : Lawful O) {k : System σ → Nat → Option (System σ × Except Errno Int)} (hneg : ¬ i < 0) (hbig : ¬ N ≤ i)
    (hc : (match O.fget s p i with
      | (s, none) => some (s, .error .EBADF)
      | (s, some f) => k s f) = some (s', r)) :
    (r = .error .EBADF ∧ s' = s) ∨ ∃ f, behind N s p i = some f ∧ k (s.addRef f) f = some (s', r) := by
  split at hc
  next s₁ hg =>
    cases hc
    exact .inl ⟨rfl, Accounted.fget_none hO (.inr hneg) hg⟩
  next s₁ f hg =>
    obtain ⟨hb, rfl⟩ := fget_some hO hneg hbig hg
    exact .inr ⟨f, hb, hc⟩

/-- How they end: the reference is put, and the position has moved. -/
theorem fput_end (hO : Lawful O) (hpos : 0 < file.f_refcount) {t s₂ : System σ} (fs : σ) (pos : Int)
    (hput : O.fput t f = some s₂) (ht : t = { s.setFs fs with
      files := Function.update s.files f (some { file with f_refcount := file.f_refcount + 1, f_pos := pos }) }) :
    s₂ = VfsSubmit.moved s fs f file pos := by
  subst ht
  rw [fput_moved (s := s) hO hpos pos rfl] at hput
  cases hput
  rfl

/-- What they do to the file while they hold it. -/
theorem modify_held (hf : s.files f = some file) (fs : σ) (g : File → File) :
    ((s.addRef f).setFs fs).modify f g = { s.setFs fs with
      files := Function.update s.files f (some (g { file with f_refcount := file.f_refcount + 1 })) } := by
  simp [System.modify, System.setFile, System.setFs, System.addRef, hf]

theorem setFs_held (hf : s.files f = some file) (fs : σ) : (s.addRef f).setFs fs = { s.setFs fs with
      files := Function.update s.files f (some { file with f_refcount := file.f_refcount + 1 }) } := by
  simp [System.modify, System.setFile, System.setFs, System.addRef, hf]

theorem do_read_shown (hO : Lawful O) (h : Match N held m s a) {nbytes : Nat}
    (hc : do_read N F O s p i nbytes = some (s', r)) : Shown N F a (p, .do_read i nbytes) r s' := by
  simp only [do_read] at hc
  split at hc
  next =>
    cases hc
    exact h.failed _
  next hneg =>
  split at hc
  next =>
    cases hc
    exact h.failed _
  next hbig =>
  rcases fget_begin hO hneg hbig hc with ⟨rfl, rfl⟩ | ⟨f, hb, hc⟩
  · exact h.failed _
  obtain ⟨file, hf, hpos, -⟩ := h.behind_file hb
  simp only [addRef_files hf, Function.update_self, bind, Option.bind_some, fput_still hO hf hpos] at hc
  split at hc
  next =>
    cases hc
    exact h.failed _
  next =>
    obtain ⟨vn, -, hc⟩ := Option.bind_eq_some_iff.1 hc
    split at hc
    next =>
      cases hc
      exact h.failed _
    next =>
      simp only [Option.bind_eq_some_iff, Prod.exists] at hc
      obtain ⟨fs, n, -, s₂, hput, hc⟩ := hc
      cases hc
      obtain rfl := fput_end (s := s) hO hpos fs (if 0 < n then sint (file.f_pos + n) else file.f_pos) hput (by
        split
        · exact modify_held hf fs _
        · exact setFs_held hf fs)
      exact h.succeeds hb hf fs readTo rfl fun _ h => h

theorem do_getdent_shown (hO : Lawful O) (h : Match N held m s a)
    (hc : do_getdent N F O s p i = some (s', r)) : Shown N F a (p, .do_getdent i) r s' := by
  simp only [do_getdent] at hc
  split at hc
  next =>
    cases hc
    exact h.failed _
  next hbig =>
  split at hc
  next =>
    cases hc
    exact h.failed _
  next hneg =>
  rcases fget_begin hO hneg hbig hc with ⟨rfl, rfl⟩ | ⟨f, hb, hc⟩
  · exact h.failed _
  obtain ⟨file, hf, hpos, -⟩ := h.behind_file hb
  simp only [addRef_files hf, Function.update_self, bind, Option.bind_some, fput_still hO hf hpos] at hc
  obtain ⟨vn, -, hc⟩ := Option.bind_eq_some_iff.1 hc
  split at hc
  next =>
    cases hc
    exact h.failed _
  next =>
    simp only [Option.bind_eq_some_iff, Prod.exists] at hc
    obtain ⟨fs, n, -, hc⟩ := hc
    split at hc
    next =>
      obtain ⟨s₂, hput, hc⟩ := Option.bind_eq_some_iff.1 hc
      cases hc
      obtain rfl := fput_end (s := s) hO hpos fs (sint (file.f_pos + n)) hput (modify_held hf fs _)
      exact h.succeeds hb hf fs (getdentTo F.sizeof_dirent) (.inl rfl) fun _ h => h
    next =>
      obtain ⟨s₂, hput, hc⟩ := Option.bind_eq_some_iff.1 hc
      cases hc
      obtain rfl := fput_end (s := s) hO hpos fs file.f_pos hput (setFs_held hf fs)
      exact h.succeeds hb hf fs (getdentTo F.sizeof_dirent) (.inr rfl) fun _ h => h

/-- `do_lseek` fails, or moves the position to what it returns. -/
theorem do_lseek_cases {offset whence : Int} (hc : do_lseek N F s p i offset whence = some (s', r)) :
    (∃ err, r = .error err) ∧ s' = s ∨ ∃ f pos, behind N s p i = some f ∧ (s.files f).isSome ∧ r = .ok pos ∧
      s' = s.modify f fun file => { file with f_pos := pos } := by
  simp only [do_lseek] at hc
  split at hc
  next =>
    cases hc
    exact .inl ⟨⟨_, rfl⟩, rfl⟩
  next =>
    split at hc
    next =>
      cases hc
      exact .inl ⟨⟨_, rfl⟩, rfl⟩
    next hfd =>
      split at hc
      next =>
        cases hc
        exact .inl ⟨⟨_, rfl⟩, rfl⟩
      next f hs =>
        obtain ⟨file, hf, hc⟩ := Option.bind_eq_some_iff.1 hc
        -- whatever the new position is
        have hpos {pos : Int} (hc : (if pos < 0 then some (s, .error .EINVAL)
            else some (s.modify f fun file => { file with f_pos := pos }, .ok pos)) = some (s', r)) :
            (∃ err, r = .error err) ∧ s' = s ∨ ∃ f pos, behind N s p i = some f ∧ (s.files f).isSome ∧ r = .ok pos ∧
              s' = s.modify f fun file => { file with f_pos := pos } := by
          split at hc
          next =>
            cases hc
            exact .inl ⟨⟨_, rfl⟩, rfl⟩
          next =>
            cases hc
            exact .inr ⟨f, pos, (if_neg hfd).trans hs, by rw [hf]; rfl, rfl, rfl⟩
        split at hc
        next => exact hpos hc
        next =>
          split at hc
          next => exact hpos hc
          next =>
            obtain ⟨pos, -, hc⟩ := Option.bind_eq_some_iff.1 hc
            exact hpos hc

theorem do_lseek_shown (h : Match N held m s a) {offset whence : Int}
    (hc : do_lseek N F s p i offset whence = some (s', r)) : Shown N F a (p, .do_lseek i offset whence) r s' := by
  rcases do_lseek_cases hc with ⟨⟨err, rfl⟩, rfl⟩ | ⟨f, pos, hb, -, rfl, rfl⟩
  · exact h.failed err
  · obtain ⟨file, hf, -⟩ := h.behind_file hb
    have hmod : s.modify f (fun file => { file with f_pos := pos }) = VfsSubmit.moved s s.vfs.fs f file pos := by
      simp [System.modify, System.setFile, VfsSubmit.moved, System.setFs, hf]
    rw [hmod]
    exact h.succeeds hb hf s.vfs.fs lseekTo rfl fun _ h => h

/-- The end of `do_write`, with the position at `x`. -/
theorem write_end (hO : Lawful O) (h : Match N held m s a) (hb : behind N s p i = some f) (hf : s.files f = some file)
    (hpos : 0 < file.f_refcount) {t : System σ} {vn nbytes : Nat} {x pos : Int} (hx : file.f_mode.append = false → x = file.f_pos)
    (ht : t = { s with files := Function.update s.files f (some { file with f_refcount := file.f_refcount + 1, f_pos := x }) })
    (hc : (do
        let (fs, retVal) ← F.write t.vfs.fs vn pos nbytes
        let s := t.setFs fs
        let ftemp ← s.files f
        KASSERT (retVal ≥ 0 → F.isBlk fs vn ∨ F.isChr fs vn ∨ (F.isReg fs vn ∧ ftemp.f_pos ≤ F.vn_len fs vn))
        let s := if retVal ≥ 0 then s.modify f fun file => { file with f_pos := sint (file.f_pos + retVal) } else s
        let s ← O.fput s f
        some (s, .ok retVal)) = some (s', r)) : Shown N F a (p, .do_write i nbytes) r s' := by
  simp only [bind, Option.bind_eq_some_iff, Prod.exists] at hc
  obtain ⟨fs, n, -, ftemp, -, -, -, s₂, hput, hc⟩ := hc
  cases hc
  obtain rfl := fput_end (s := s) hO hpos fs (if 0 ≤ n then sint (x + n) else x) hput (by
    subst ht
    split <;> simp [System.setFs, System.modify, System.setFile])
  refine h.succeeds hb hf fs writeTo (fun happ => ?_) fun _ h => h
  rw [hx happ]
  rfl

theorem do_write_shown (hO : Lawful O) (h : Match N held m s a) {nbytes : Nat}
    (hc : do_write N F O s p i nbytes = some (s', r)) : Shown N F a (p, .do_write i nbytes) r s' := by
  simp only [do_write] at hc
  split at hc
  next =>
    cases hc
    exact h.failed _
  next hneg =>
  split at hc
  next =>
    cases hc
    exact h.failed _
  next hbig =>
  rcases fget_begin hO hneg hbig hc with ⟨rfl, rfl⟩ | ⟨f, hb, hc⟩
  · exact h.failed _
  obtain ⟨file, hf, hpos, -⟩ := h.behind_file hb
  have hheld : s.addRef f = { s with files := Function.update s.files f (some { file with f_refcount := file.f_refcount + 1 }) } := by
    simp [System.addRef, System.modify, System.setFile, hf]
  have hf₁ : (s.addRef f).files f = some { file with f_refcount := file.f_refcount + 1 } := by
    rw [addRef_files hf, Function.update_self]
  obtain ⟨ftemp, hftemp, hc⟩ := Option.bind_eq_some_iff.1 hc
  cases hf₁.symm.trans hftemp
  split at hc
  next =>
    simp only [bind, fput_still hO hf hpos, Option.bind_some] at hc
    cases hc
    exact h.failed _
  next =>
    obtain ⟨vn, -, hc⟩ := Option.bind_eq_some_iff.1 hc
    split at hc
    next happ =>
      obtain ⟨⟨s₂, pos⟩, hseek, hc⟩ := Option.bind_eq_some_iff.1 hc
      obtain ⟨pos', hpos', hc⟩ := Option.bind_eq_some_iff.1 hc
      rcases do_lseek_cases hseek with ⟨⟨err, rfl⟩, rfl⟩ | ⟨g, x, hg, -, rfl, rfl⟩
      · cases hpos'
      · obtain rfl : f = g := Option.some.inj (hb.symm.trans hg)
        refine write_end hO h hb hf hpos (x := x) (fun hn => ?_) ?_ hc
        · have happ : file.f_mode.append = true := happ
          rw [hn] at happ
          cases happ
        · rw [hheld]
          simp [System.modify, System.setFile]
    next happ =>
      obtain ⟨_, ⟨⟩, hc⟩ := Option.bind_eq_some_iff.1 hc
      obtain ⟨pos', -, hc⟩ := Option.bind_eq_some_iff.1 hc
      exact write_end hO h hb hf hpos (fun _ => rfl) hheld hc

end Weenix.Files.VmSubmit
