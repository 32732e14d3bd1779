import Weenix.Basic
import Weenix.Lib.Layers
import Mathlib.Logic.Function.Basic
/-!
# The memory-management state of vm-submit

Pointers are numbers, handed out by counters and never reused, except for the
physical pages, which `page_alloc` picks and `page_free` gives back. A page
frame is named by its physical page. Fields that change after a structure is
created are columns of `State`, indexed by the pointer (`mmo_refcount`,
`pf_dirty`, `p_pagedir`, ...); the others stay in the structure.

`pframes` is the resident page table (`pframe_hash`), last allocated first; the
frames of one object in it, in this order, are the object's `mmo_respages`. An
`vmarea_t` lives in the `vmm_list` of its map, and `mmo_vmas` lists areas by
their `vma_id`. Page tables and ranges of user memory are by page number.
-/

namespace Weenix.Vm

/-- `vmarea_t`; `vma_id` stands for its address. A `vma_obj` that was never set is `none`. -/
structure VmArea where
  vma_id : Nat
  vma_start : Nat
  vma_end : Nat
  vma_off : Nat
  vma_prot : Prot
  vma_flags : MapFlags
  vma_vmmap : Option Nat
  vma_obj : Option Nat
  deriving DecidableEq

inductive MmobjOps
  | anon
  | shadow
  | vnode (vn : Nat)
  deriving DecidableEq

/-- The part of an `mmobj_t` that is fixed once it is set up. -/
structure Mmobj where
  mmo_ops : MmobjOps
  mmo_shadowed : Option Nat
  mmo_bottom_obj : Option Nat
  deriving DecidableEq

/-- The identity of a `pframe_t`: its physical page, and the page of an object it holds. -/
structure Pframe where
  pf_addr : Nat
  pf_obj : Nat
  pf_pagenum : Nat
  deriving DecidableEq

/-- A present user page-table entry. -/
structure Pte where
  pt_page : Nat
  pt_write : Bool
  deriving DecidableEq

/-- A live `proc_t`. -/
structure Proc where
  p_vmmap : Nat
  p_start_brk : Nat
  p_files : Nat → Option Nat

structure FileMode where
  read : Bool := false
  write : Bool := false
  append : Bool := false
  deriving DecidableEq

structure File where
  f_refcount : Nat
  f_mode : FileMode
  f_vnode : Nat

inductive VnMode
  | reg | dir | chr | blk
  deriving DecidableEq

/-- A vnode. `vn_mmap` is the outcome of its `mmap` operation (`none`: it has
none): the object it returns, with a reference, or an error. `query_vnode` says
whether the file is still linked. -/
structure Vnode where
  vn_mode : VnMode
  vn_mmap : Option (Except Errno Nat)
  query_vnode : Bool

structure State where
  procs : Nat → Option Proc
  nprocs : Nat
  p_pagedir : Nat → Nat → Option Pte
  p_brk : Nat → Nat
  /-- The `p_status` of the processes that are `PROC_DEAD`. -/
  zombies : Nat → Option Int
  vmm_list : Nat → List VmArea
  vmm_proc : Nat → Option Nat
  nmaps : Nat
  nareas : Nat
  objs : Nat → Option Mmobj
  nobjs : Nat
  mmo_refcount : Nat → Nat
  mmo_nrespages : Nat → Nat
  mmo_vmas : Nat → List Nat
  pframes : List Pframe
  pf_busy : Nat → Bool
  pf_dirty : Nat → Bool
  pf_pincount : Nat → Nat
  alloc_list : List Nat
  pinned_list : List Nat
  mem : Nat → Page
  vnodes : Nat → Vnode
  /-- What a file system holds for a vnode, by byte offset of the page. -/
  disk : Nat → Nat → Page
  files : Nat → Option File
  /-- Counts the calls to the code outside this model. -/
  clock : Nat
  /-- `static uint32_t num` of `shadow_put`. -/
  num : Nat
  /-- `static uint32_t temp_c` of `anon_put`. -/
  temp_c : Nat

/-- Before the first process, with the vnodes, their objects and the data on disk as given. -/
def State.boot (vnodes : Nat → Vnode) (objs : Nat → Option Mmobj) (nobjs : Nat) (mmo_refcount : Nat → Nat)
    (disk : Nat → Nat → Page) : State where
  procs _ := none
  nprocs := 0
  p_pagedir _ _ := none
  p_brk _ := 0
  zombies _ := none
  vmm_list _ := []
  vmm_proc _ := none
  nmaps := 0
  nareas := 0
  objs := objs
  nobjs := nobjs
  mmo_refcount := mmo_refcount
  mmo_nrespages _ := 0
  mmo_vmas _ := []
  pframes := []
  pf_busy _ := false
  pf_dirty _ := false
  pf_pincount _ := 0
  alloc_list := []
  pinned_list := []
  mem _ _ := 0
  vnodes := vnodes
  disk := disk
  files _ := none
  clock := 0
  num := 0
  temp_c := 0

/-- Without any file. -/
def State.bare : State :=
  .boot (fun _ => ⟨.reg, none, false⟩) (fun _ => none) 0 (fun _ => 0) (fun _ _ _ => 0)

/-- The code the model calls but does not contain: `page_alloc`, which gives a
page that is not in use, and the file systems' page operations, which may fail. -/
structure Env where
  page_alloc : Nat → List Nat → Nat
  page_fresh : ∀ t used, page_alloc t used ∉ used
  io : Nat → Bool

theorem le_foldr_max {x : Nat} {l : List Nat} (h : x ∈ l) : x ≤ l.foldr max 0 := by
  induction l with
  | nil => cases h
  | cons y l ih =>
    rcases List.mem_cons.1 h with rfl | h
    · exact Nat.le_max_left _ _
    · exact (ih h).trans (Nat.le_max_right _ _)

/-- Pages in ascending order, and a disk that never fails. -/
def Env.simple : Env where
  page_alloc _ used := used.foldr max 0 + 1
  page_fresh _ _ h := absurd (le_foldr_max h) (Nat.not_succ_le_self _)
  io _ := true

namespace VmArea

/-- `vma_off + vfn - vma_start`. -/
def pagenum (a : VmArea) (vfn : Nat) : Nat := usub (a.vma_off + vfn) a.vma_start

/-- The distance from the pages of the area to those of its object. -/
def delta (a : VmArea) : Nat := usub a.vma_off a.vma_start

/-- Move the end. -/
def cutEnd (lo : Nat) (a : VmArea) : VmArea := { a with vma_end := lo }

/-- Move the start, and the offset with it. -/
def cutStart (fin : Nat) (a : VmArea) : VmArea :=
  { a with vma_off := usub (a.vma_off + fin) a.vma_start, vma_start := fin }

/-- Set `vma_obj`. -/
def withObj (o : Option Nat) (a : VmArea) : VmArea := { a with vma_obj := o }

@[simp] theorem cutEnd_id (lo : Nat) (a : VmArea) : (a.cutEnd lo).vma_id = a.vma_id := rfl
@[simp] theorem cutEnd_start (lo : Nat) (a : VmArea) : (a.cutEnd lo).vma_start = a.vma_start := rfl
@[simp] theorem cutEnd_end (lo : Nat) (a : VmArea) : (a.cutEnd lo).vma_end = lo := rfl
@[simp] theorem cutStart_start (fin : Nat) (a : VmArea) : (a.cutStart fin).vma_start = fin := rfl
@[simp] theorem cutStart_end (fin : Nat) (a : VmArea) : (a.cutStart fin).vma_end = a.vma_end := rfl

/-- The area contains the page `vfn`. -/
def Has (a : VmArea) (vfn : Nat) : Prop := a.vma_start ≤ vfn ∧ vfn < a.vma_end

instance (a : VmArea) (vfn : Nat) : Decidable (a.Has vfn) := inferInstanceAs (Decidable (_ ∧ _))

end VmArea

namespace State

variable (s : State)

/-- `mmo_shadowed`. -/
def parent (o : Nat) : Option Nat := (s.objs o).bind (·.mmo_shadowed)

/-- `mmobj_bottom_obj(o)`. -/
def bottomOf (o : Nat) : Option Nat :=
  (s.objs o).bind fun ob =>
    match ob.mmo_shadowed with
    | none => some o
    | some _ => ob.mmo_bottom_obj

/-- The resident frame of page `pn` of object `o`. -/
def frame? (o pn : Nat) : Option Pframe :=
  s.pframes.find? (fun pf => decide (pf.pf_obj = o ∧ pf.pf_pagenum = pn))

/-- The area with the address `id`. -/
def areaById (id : Nat) : Option VmArea :=
  (List.range s.nmaps).findSome? (fun m => (s.vmm_list m).find? (fun a => decide (a.vma_id = id)))

/-- The pages in use as frames. -/
def usedPages : List Nat := s.pframes.map (·.pf_addr)

def setList (m : Nat) (l : List VmArea) : State := { s with vmm_list := Function.update s.vmm_list m l }

/-- Change the area `id` of map `m`. -/
def modArea (m id : Nat) (f : VmArea → VmArea) : State :=
  s.setList m ((s.vmm_list m).map (fun a => if a.vma_id = id then f a else a))

/-- `list_remove(&vma->vma_plink)`. -/
def dropArea (m id : Nat) : State := s.setList m ((s.vmm_list m).filter (fun a => decide (a.vma_id ≠ id)))

def setRefcount (o n : Nat) : State := { s with mmo_refcount := Function.update s.mmo_refcount o n }

def setNres (o n : Nat) : State := { s with mmo_nrespages := Function.update s.mmo_nrespages o n }

/-- `list_insert_tail(&o->mmo_un.mmo_vmas, &vma->vma_olink)`. -/
def linkVma (o id : Nat) : State := { s with mmo_vmas := Function.update s.mmo_vmas o (s.mmo_vmas o ++ [id]) }

/-- `list_remove(&vma->vma_olink)`, where the link is on the list of `o`. -/
def unlinkVma (o id : Nat) : State := { s with mmo_vmas := Function.update s.mmo_vmas o ((s.mmo_vmas o).erase id) }

def setBusy (pg : Nat) (b : Bool) : State := { s with pf_busy := Function.update s.pf_busy pg b }

def setDirty (pg : Nat) (b : Bool) : State := { s with pf_dirty := Function.update s.pf_dirty pg b }

def setPin (pg n : Nat) : State := { s with pf_pincount := Function.update s.pf_pincount pg n }

/-- A new frame, on `alloc_list` and in the resident page table. -/
def insertFrame (pf : Pframe) : State :=
  { s with alloc_list := s.alloc_list ++ [pf.pf_addr], pframes := pf :: s.pframes }

/-- Take a frame off `alloc_list` and out of the resident page table. -/
def dropFrame (pf : Pframe) : State :=
  { s with pframes := s.pframes.erase pf, alloc_list := s.alloc_list.erase pf.pf_addr }

/-- Put a frame at the back of `alloc_list`. -/
def touchFrame (pf : Pframe) : State :=
  { s with alloc_list := s.alloc_list.erase pf.pf_addr ++ [pf.pf_addr] }

def setMem (pg : Nat) (x : Page) : State := { s with mem := Function.update s.mem pg x }

/-- `vmarea_alloc`: the new area has the address `s.nareas`. -/
def vmarea_alloc : State := { s with nareas := s.nareas + 1 }

def setProc (p : Nat) (pr : Option Proc) : State := { s with procs := Function.update s.procs p pr }

/-- Process `p` is `PROC_DEAD` with the status `st`. -/
def setZombie (p : Nat) (st : Int) : State := { s with zombies := Function.update s.zombies p (some st) }

def setNum (n : Nat) : State := { s with num := n }

def setTempC (n : Nat) : State := { s with temp_c := n }

def setFiles (fs : Nat → Option File) : State := { s with files := fs }

/-- One call to the code outside. -/
def tick : State := { s with clock := s.clock + 1 }

/-- `pt_map`. -/
def pt_map (p vfn page : Nat) (write : Bool) : State :=
  { s with p_pagedir := Function.update s.p_pagedir p (Function.update (s.p_pagedir p) vfn (some ⟨page, write⟩)) }

/-- `pt_unmap`. -/
def pt_unmap (p vfn : Nat) : State :=
  { s with p_pagedir := Function.update s.p_pagedir p (Function.update (s.p_pagedir p) vfn none) }

/-- `pt_unmap_range`, for the pages from `lo` up to `hi`. -/
def pt_unmap_range (p lo hi : Nat) : State :=
  { s with p_pagedir :=
      Function.update s.p_pagedir p (fun v => if lo ≤ v ∧ v < hi then none else s.p_pagedir p v) }

/-- A new object, with the reference its creator holds. -/
def newObj (ob : Mmobj) : State :=
  { s with
    objs := Function.update s.objs s.nobjs (some ob)
    nobjs := s.nobjs + 1
    mmo_refcount := Function.update s.mmo_refcount s.nobjs 1
    mmo_nrespages := Function.update s.mmo_nrespages s.nobjs 0
    mmo_vmas := Function.update s.mmo_vmas s.nobjs [] }

/-- `slab_obj_free` of an object. -/
def freeObj (o : Nat) : State := { s with objs := Function.update s.objs o none }

end State

end Weenix.Vm
