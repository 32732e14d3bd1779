import Weenix.Vm.Objects
import Weenix.Lib.Intervals
/-!
# Address spaces (`vm/vmmap.c`)

The functions that only look at an area list take the list. The others take
the state, the current process `p` (its page table is the one they unmap from)
and the map `m`.
-/

namespace Weenix.Vm

open Lib

variable (C : Config)

/-! ## Looking at an area list -/

def vmmap_lookup (l : List VmArea) (vfn : Nat) : Option VmArea :=
  l.find? (fun a => decide (Intervals.Covers VmArea.vma_start VmArea.vma_end a vfn))

/-- The loop of `vmmap_is_range_empty`; `low` is the end of the area before. -/
def range_empty_from (startvfn endvfn : Nat) : Nat → List VmArea → Bool
  | low, [] => decide (endvfn ≤ C.high ∧ low ≤ startvfn)
  | low, a :: l =>
    if endvfn ≤ a.vma_start ∧ low ≤ startvfn then true
    else if startvfn < a.vma_start ∧ a.vma_start < endvfn then false
    else if startvfn < low then false
    else range_empty_from startvfn endvfn a.vma_end l

def vmmap_is_range_empty (l : List VmArea) (startvfn npages : Nat) : Option Bool := do
  let endvfn := u32 (startvfn + npages)
  KASSERT (startvfn < endvfn ∧ C.low ≤ startvfn ∧ endvfn ≤ C.high)
  some (range_empty_from C startvfn endvfn C.low l)

inductive Dir
  | lohi | hilo
  deriving DecidableEq

/-- The search upwards; `low` is the end of the area before. -/
def find_range_lohi (npages : Nat) : Nat → List VmArea → Int
  | low, [] => if C.high < u32 (npages + low) then -1 else int32 low
  | low, a :: l => if usub a.vma_start low < npages then find_range_lohi npages a.vma_end l else int32 low

/-- The search downwards, over the reversed list; `high` is the start of the area after. -/
def find_range_hilo (npages : Nat) : Nat → List VmArea → Int
  | high, [] => if usub high npages < C.low then -1 else int32 (usub high npages)
  | high, a :: l =>
    if usub high a.vma_end < npages then find_range_hilo npages a.vma_start l else int32 (usub high npages)

def vmmap_find_range (l : List VmArea) (npages : Nat) (dir : Dir) : Option Int := do
  KASSERT (0 < npages)
  match dir with
  | .lohi => some (find_range_lohi C npages C.low l)
  | .hilo => some (find_range_hilo C npages C.high l.reverse)

/-! ## Changing maps -/

/-- `vmmap_create`: the new map is `s.nmaps`. -/
def vmmap_create (s : State) : State :=
  { s with
    nmaps := s.nmaps + 1
    vmm_list := Function.update s.vmm_list s.nmaps []
    vmm_proc := Function.update s.vmm_proc s.nmaps none }

/-- Does nothing when the range is taken. -/
def vmmap_insert (s : State) (m : Nat) (newvma : VmArea) : Option State := do
  KASSERT (newvma.vma_vmmap = none)
  KASSERT (newvma.vma_start < newvma.vma_end)
  KASSERT (C.low ≤ newvma.vma_start ∧ newvma.vma_end ≤ C.high)
  if ← vmmap_is_range_empty C (s.vmm_list m) newvma.vma_start (usub newvma.vma_end newvma.vma_start) then
    some (s.setList m (Intervals.insertBefore VmArea.vma_start VmArea.vma_end
      { newvma with vma_vmmap := some m } (s.vmm_list m)))
  else some s

/-- The second half of an area that the range `[lo, fin)` splits. -/
def splitArea (id fin : Nat) (a : VmArea) : VmArea :=
  { vma_id := id, vma_start := fin, vma_end := a.vma_end, vma_off := usub (a.vma_off + fin) a.vma_start,
    vma_prot := a.vma_prot, vma_flags := a.vma_flags, vma_vmmap := none, vma_obj := a.vma_obj }

/-- One turn of the loop of `vmmap_remove`; the result also says whether the
loop ends there. The four cases are those of the comment in the source. -/
def vmmap_remove_area (s : State) (p m lo fin : Nat) (a : VmArea) : Option (State × Bool) :=
  if fin < a.vma_end ∧ a.vma_start < lo then do
    let new := splitArea s.nareas fin a
    let s := s.vmarea_alloc
    let s := s.modArea m a.vma_id (VmArea.cutEnd lo)
    let s ← vmmap_insert C s m new
    let o ← new.vma_obj
    let b ← s.bottomOf o
    let s := s.linkVma b new.vma_id
    let s ← mmobj_ref s o
    some (s.pt_unmap_range p lo fin, true)
  else if lo < a.vma_end ∧ a.vma_start < lo then
    let s := s.pt_unmap_range p lo a.vma_end
    some (s.modArea m a.vma_id (VmArea.cutEnd lo), false)
  else if fin < a.vma_end ∧ a.vma_start < fin then
    let s := s.pt_unmap_range p a.vma_start fin
    some (s.modArea m a.vma_id (VmArea.cutStart fin), true)
  else if a.vma_end ≤ fin ∧ lo ≤ a.vma_start then do
    let o ← a.vma_obj
    let b ← s.bottomOf o
    let s := s.unlinkVma b a.vma_id
    let s ← put s o
    let s := s.dropArea m a.vma_id
    some (s.pt_unmap_range p a.vma_start a.vma_end, false)
  else some (s, false)

/-- The loop, over the areas the list has when it starts. -/
def vmmap_remove_from (p m lo fin : Nat) : State → List VmArea → Option State
  | s, [] => some s
  | s, a :: l => do
    let (s, done) ← vmmap_remove_area C s p m lo fin a
    if done then some s else vmmap_remove_from p m lo fin s l

def vmmap_remove (s : State) (p m lopage npages : Nat) : Option State :=
  vmmap_remove_from C p m lopage (u32 (lopage + npages)) s (s.vmm_list m)

/-- The loop of `vmmap_destroy`. -/
def vmmap_destroy_from (p m : Nat) : State → List VmArea → Option State
  | s, [] => some s
  | s, a :: l => do
    let s ← vmmap_remove C s p m a.vma_start (usub a.vma_end a.vma_start)
    vmmap_destroy_from p m s l

def vmmap_destroy (s : State) (p m : Nat) : Option State := vmmap_destroy_from C p m s (s.vmm_list m)

/-- The copy `vmmap_clone` makes of an area. -/
def cloneArea (m id : Nat) (a : VmArea) : VmArea := { a with vma_id := id, vma_vmmap := some m, vma_obj := none }

/-- The copies of `l`, with the addresses from `id` on. -/
def cloneAreas (m : Nat) : Nat → List VmArea → List VmArea
  | _, [] => []
  | id, a :: l => cloneArea m id a :: cloneAreas m (id + 1) l

/-- `vmmap_clone`: the new map is `s.nmaps`. -/
def vmmap_clone (s : State) (m : Nat) : State :=
  let m' := s.nmaps
  let s' := vmmap_create s
  { s' with
    nareas := s.nareas + (s.vmm_list m).length
    vmm_list := Function.update s'.vmm_list m' (cloneAreas m' s.nareas (s.vmm_list m)) }

/-- The vnode's `mmap` operation: the object it stores in `*ret`, to which it
takes a reference. An error stores nothing. -/
def vn_mmap (s : State) (vn : Nat) : Option (State × Option Nat) :=
  match (s.vnodes vn).vn_mmap with
  | none => none
  | some (.error _) => some (s, none)
  | some (.ok o) => do
    let s ← mmobj_ref s o
    some (s, some o)

/-- The object of a new area. The result of the vnode's `mmap` operation is not
looked at; without an object for `*ret` the code goes on with a null or
uninitialised pointer. -/
def attachObject (s : State) (file : Option Nat) (flags : MapFlags) (area : VmArea) :
    Option (State × VmArea) :=
  if !flags.priv then
    match file with
    | some vn => do
      let (s, o) ← vn_mmap s vn
      let o ← o
      some (s.linkVma o area.vma_id, area.withObj (some o))
    | none => some (s, area)
  else
    match file with
    | none =>
      -- The shadow object is set up in one go, after `anon_create`.
      let bottom := s.nobjs
      let s := s.newObj ⟨.anon, none, none⟩
      let sh := s.nobjs
      let s := s.newObj ⟨.shadow, some bottom, some bottom⟩
      some (s.linkVma bottom area.vma_id, area.withObj (some sh))
    | some vn => do
      let (s, bottom) ← vn_mmap s vn
      let bottom ← bottom
      let sh := s.nobjs
      let s := s.newObj ⟨.shadow, some bottom, some bottom⟩
      some (s.linkVma bottom area.vma_id, area.withObj (some sh))

/-- Make room for `npages` pages: at `lopage`, removing what is mapped there, or
where `vmmap_find_range` finds a gap. The first page of the room. -/
def makeRoom (s : State) (p m lopage npages : Nat) (dir : Dir) : Option (State × Option Nat) :=
  if lopage ≠ 0 then do
    if ← vmmap_is_range_empty C (s.vmm_list m) lopage npages then some (s, some lopage)
    else do
      let s ← vmmap_remove C s p m lopage npages
      let e ← vmmap_is_range_empty C (s.vmm_list m) lopage npages
      KASSERT (e = true)
      some (s, some lopage)
  else do
    let r ← vmmap_find_range C (s.vmm_list m) npages dir
    some (s, if 0 < r then some r.toNat else none)

/-- The area's first page, or an error. -/
def vmmap_map (s : State) (p m : Nat) (file : Option Nat) (lopage npages : Nat) (prot : Prot) (flags : MapFlags)
    (off : Nat) (dir : Dir) : Option (State × Except Errno Nat) := do
  KASSERT (0 < npages)
  KASSERT (prot.other = false)
  KASSERT (flags.shared = true ∨ flags.priv = true)
  KASSERT (lopage = 0 ∨ C.low ≤ lopage)
  KASSERT (lopage = 0 ∨ u32 (lopage + npages) ≤ C.high)
  KASSERT (PAGE_ALIGNED off = true)
  let id := s.nareas
  let s := s.vmarea_alloc
  let (s, start) ← makeRoom C s p m lopage npages dir
  match start with
  | none => some (s, .error .ENOMEM)
  | some start => do
    let area : VmArea :=
      { vma_id := id, vma_start := start, vma_end := u32 (npages + start), vma_off := off, vma_prot := prot,
        vma_flags := flags, vma_vmmap := none, vma_obj := none }
    let (s, area) ← attachObject s file flags area
    let s ← vmmap_insert C s m area
    some (s, .ok start)

end Weenix.Vm
