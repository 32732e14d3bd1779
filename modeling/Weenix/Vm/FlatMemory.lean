import Weenix.Vm.System
/-!
# Flat memory

The memory of processes and files without page frames, shadow objects, page
tables and page-outs. A page of a process is a page of its own or a page of a
file. `flatStep` is what the events of the system do to it: `fork` copies the
pages, and a page-out does nothing.
-/

namespace Weenix.Vm

/-- What is behind a page: a page of its own, or page `pn` of the file of a vnode. -/
inductive Cell
  | own (x : Page)
  | file (vn pn : Nat)

/-- What the page holds, where the files hold `data`. -/
def Cell.look (data : Nat → Nat → Page) : Cell → Page
  | .own x => x
  | .file vn pn => data vn pn

/-- A mapped page. A store to a shared page of a file changes the file, one to another page makes it the process's own. -/
structure Slot where
  cell : Cell
  shared : Bool
  write : Bool

/-- A process: its pages, and the vnodes behind its descriptors. -/
structure FlatProc where
  pages : Nat → Option Slot
  fds : Nat → Option Nat

structure Flat where
  procs : Nat → Option FlatProc
  data : Nat → Nat → Page

/-- The pages `[lo, lo + n)` become those of `g`. -/
def setRange (f : Nat → Option Slot) (lo n : Nat) (g : Nat → Option Slot) (v : Nat) : Option Slot :=
  if lo ≤ v ∧ v < lo + n then g v else f v

/-- The bytes of page `v` between the addresses `u` and `u + n` are those of `k`. -/
def overlay (u n : Nat) (k : Nat → UInt8) (v : Nat) (x : Page) : Page := fun j =>
  if j < PAGE_SIZE ∧ u ≤ v * PAGE_SIZE + j ∧ v * PAGE_SIZE + j < u + n then k (v * PAGE_SIZE + j - u) else x j

namespace Flat

variable (M : Flat)

def slot (p v : Nat) : Option Slot := (M.procs p).bind (·.pages v)

def setProc (p : Nat) (x : Option FlatProc) : Flat := { M with procs := Function.update M.procs p x }

def setPages (p : Nat) (x : FlatProc) (f : Nat → Option Slot) : Flat := M.setProc p (some { x with pages := f })

/-- Process `p` changes its page `v` by `g`. -/
def change (p v : Nat) (g : Page → Page) : Flat :=
  match M.procs p with
  | none => M
  | some x =>
    match x.pages v with
    | none => M
    | some ⟨.file vn pn, true, _⟩ =>
      { M with data := Function.update M.data vn (Function.update (M.data vn) pn (g (M.data vn pn))) }
    | some s => M.setPages p x (Function.update x.pages v (some { s with cell := .own (g (s.cell.look M.data)) }))

/-- A copy of `k` to `[u, u + n)` changes the pages of the range in order, those before `v`. -/
def copied (p u n : Nat) (k : Nat → UInt8) (v : Nat) : Flat :=
  (List.range' (ADDR_TO_PN u) (v - ADDR_TO_PN u)).foldl (fun M v => M.change p v (overlay u n k v)) M

/-- The pages that an `mmap` to `addr` maps: zeros, or those of the file, counted from `off` on. -/
def mapped (x : FlatProc) (addr : Nat) (prot : Prot) (flags : MapFlags) (fd : Int) (off : Nat) : Option (Nat → Option Slot) :=
  if flags.anon then some fun _ => some ⟨.own fun _ => 0, false, prot.write⟩
  else (x.fds fd.toNat).map fun vn => fun v => some ⟨.file vn (off + (v - ADDR_TO_PN addr)), flags.shared, prot.write⟩

end Flat

/-- The machine. A load or store that the page does not allow ends the process. -/
def flatStep (M : Flat) : Event → Outcome → Option Flat
  | .spawn, .value c => if (M.procs c).isNone then some (M.setProc c (some ⟨fun _ => none, fun _ => none⟩)) else none
  | .opened p fd _ _ vn, .done => do
    let x ← M.procs p
    some (M.setProc p (some { x with fds := Function.update x.fds fd (some vn) }))
  | .mmap p _ len prot flags fd off, .value addr => do
    let x ← M.procs p
    let g ← Flat.mapped x addr prot flags fd off
    some (M.setPages p x (setRange x.pages (ADDR_TO_PN addr) (ADDR_TO_PN (roundLen len)) g))
  | .mmap .., .error _ => some M
  | .munmap p addr len, .value _ => do
    let x ← M.procs p
    some (M.setPages p x (setRange x.pages (ADDR_TO_PN addr) (ADDR_TO_PN (roundLen len)) fun _ => none))
  | .munmap .., .error _ => some M
  | .remove p lo npages, .done => do
    let x ← M.procs p
    some (M.setPages p x (setRange x.pages lo npages fun _ => none))
  | .fork p, .value c => do
    let x ← M.procs p
    if (M.procs c).isNone then some (M.setProc c (some x)) else none
  | .load p vaddr, .byte b => do
    let x ← M.slot p (ADDR_TO_PN vaddr)
    if b = x.cell.look M.data (vaddr % PAGE_SIZE) then some M else none
  | .load p vaddr, .killed =>
    if (M.procs p).isSome ∧ (M.slot p (ADDR_TO_PN vaddr)).isNone then some (M.setProc p none) else none
  | .store p vaddr b, .done => do
    let x ← M.slot p (ADDR_TO_PN vaddr)
    if x.write then some (M.change p (ADDR_TO_PN vaddr) (Function.update · (vaddr % PAGE_SIZE) b)) else none
  | .store p vaddr _, .killed =>
    if (M.procs p).isSome ∧ (M.slot p (ADDR_TO_PN vaddr)).all (!·.write) then some (M.setProc p none) else none
  | .copyout p u k n, .value _ => some (M.copied p u n k (1 + ADDR_TO_PN (u + n)))
  | .copyout .., .error _ => some M
  | .pageout, .done => some M
  | .exit p, .done => if (M.procs p).isSome then some (M.setProc p none) else none
  | _, _ => none

variable {M : Flat} {p v : Nat} {x : FlatProc} {s : Slot}

namespace Flat

theorem slot_eq (hx : M.procs p = some x) (v : Nat) : M.slot p v = x.pages v := by
  simp only [slot, hx, Option.bind_some]

theorem setPages_slot (M : Flat) (p : Nat) (x : FlatProc) (f : Nat → Option Slot) (v : Nat) : (M.setPages p x f).slot p v = f v := by
  simp only [setPages, setProc, slot, Function.update_self, Option.bind_some]

theorem change_none (h : M.slot p v = none) (g : Page → Page) : M.change p v g = M := by
  unfold change
  unfold slot at h
  cases hx : M.procs p with
  | none => rfl
  | some x =>
    rw [hx, Option.bind_some] at h
    simp only [h]

theorem change_file {vn pn : Nat} {w : Bool} (h : M.slot p v = some ⟨.file vn pn, true, w⟩) (g : Page → Page) :
    M.change p v g = { M with data := Function.update M.data vn (Function.update (M.data vn) pn (g (M.data vn pn))) } := by
  obtain ⟨x, hx, hv⟩ := Option.bind_eq_some_iff.1 h
  simp only [change, hx, hv]

theorem change_other (hx : M.procs p = some x) (hv : x.pages v = some s) (hs : ∀ vn pn, s.cell = .file vn pn → s.shared = false)
    (g : Page → Page) : M.change p v g =
      M.setPages p x (Function.update x.pages v (some { s with cell := .own (g (s.cell.look M.data)) })) := by
  obtain ⟨c, sh, w⟩ := s
  cases c with
  | own y => simp only [change, hx, hv]
  | file vn pn =>
    obtain rfl : sh = false := hs vn pn rfl
    simp only [change, hx, hv]

theorem change_own (hx : M.procs p = some x) (hv : x.pages v = some s) (hs : s.shared = false) (g : Page → Page) :
    M.change p v g =
      M.setPages p x (Function.update x.pages v (some { s with cell := .own (g (s.cell.look M.data)) })) :=
  change_other hx hv (fun _ _ _ => hs) g

/-- Two changes of a page are one. -/
theorem change_change (M : Flat) (p v : Nat) (g g' : Page → Page) : (M.change p v g).change p v g' = M.change p v (g' ∘ g) := by
  cases hs : M.slot p v with
  | none => rw [change_none hs, change_none hs, change_none hs]
  | some s =>
    obtain ⟨x, hx, hv⟩ := Option.bind_eq_some_iff.1 hs
    by_cases hfile : ∃ vn pn, s.cell = .file vn pn ∧ s.shared = true
    · obtain ⟨c, sh, w⟩ := s
      obtain ⟨vn, pn, rfl, rfl⟩ := hfile
      have hs' (d : Nat → Nat → Page) : Flat.slot { M with data := d } p v = some ⟨.file vn pn, true, w⟩ := hs
      rw [change_file hs, change_file (hs' _), change_file hs]
      simp only [Function.update_self, Function.update_idem, Function.comp_apply]
    · have hother (vn pn : Nat) (hc : s.cell = .file vn pn) : s.shared = false := by
        by_contra hsh
        exact hfile ⟨vn, pn, hc, by simpa using hsh⟩
      rw [change_other hx hv hother, change_other hx hv hother]
      unfold setPages setProc
      rw [change_other (Function.update_self ..) (Function.update_self ..) fun _ _ h => by cases h]
      simp only [setPages, setProc, Function.update_idem, Cell.look, Function.comp_apply]

/-- Whether a page is there and may be written does not change. -/
theorem change_slot (M : Flat) (p v : Nat) (g : Page → Page) (q u : Nat) :
    ((M.change p v g).slot q u).map Slot.write = (M.slot q u).map Slot.write := by
  cases hs : M.slot p v with
  | none => rw [change_none hs]
  | some s =>
    obtain ⟨x, hx, hv⟩ := Option.bind_eq_some_iff.1 hs
    by_cases hfile : ∃ vn pn, s.cell = .file vn pn ∧ s.shared = true
    · obtain ⟨c, sh, w⟩ := s
      obtain ⟨vn, pn, rfl, rfl⟩ := hfile
      rw [change_file hs]
      rfl
    · have hother (vn pn : Nat) (hc : s.cell = .file vn pn) : s.shared = false := by
        by_contra hsh
        exact hfile ⟨vn, pn, hc, by simpa using hsh⟩
      rw [change_other hx hv hother]
      by_cases hq : q = p
      · subst hq
        rw [setPages_slot, slot_eq hx]
        by_cases hu : u = v
        · rw [hu, Function.update_self, hv, Option.map_some, Option.map_some]
        · rw [Function.update_of_ne hu]
      · simp only [slot, setPages, setProc, Function.update_of_ne hq]

end Flat

end Weenix.Vm
