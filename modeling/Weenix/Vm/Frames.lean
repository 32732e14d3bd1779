import Weenix.Vm.State
/-!
# Page frames (`mm/pframe.c`, `vm/anon.c`, `vm/shadow.c`)

Getting a page of an object: the resident frame, or a new one that the
object's `fillpage` fills. A shadow object fills a page from the first object
of its chain that has it; only the object at the end of a chain, which shadows
nothing, fills a page from scratch. So `pframe_get` is one function,
`pframe_get_by`, of the fill operation, used twice.

A thread never sleeps inside these functions: a busy page where the source
waits or spins gives `none`.
-/

namespace Weenix.Vm

variable (E : Env)

/-- `anon_ref`, `shadow_ref` and `vo_vref`, which differ only in the operations
table they assert the object has. -/
def mmobj_ref (s : State) (o : Nat) : Option State := do
  let _ ← s.objs o
  KASSERT (0 < s.mmo_refcount o)
  some (s.setRefcount o (s.mmo_refcount o + 1))

/-- The hash-table lookup. A frame that is not pinned goes to the back of `alloc_list`. -/
def pframe_get_resident (s : State) (o pn : Nat) : State × Option Pframe :=
  match s.frame? o pn with
  | none => (s, none)
  | some pf =>
    if s.pf_pincount pf.pf_addr = 0 then (s.touchFrame pf, some pf) else (s, some pf)

def pframe_alloc (s : State) (o pn : Nat) : Option (State × Pframe) := do
  let pg := E.page_alloc s.clock s.usedPages
  let pf : Pframe := ⟨pg, o, pn⟩
  let s := s.tick.insertFrame pf
  let s := ((s.setBusy pg false).setDirty pg false).setPin pg 0
  let s ← mmobj_ref s o
  some (s.setNres o (s.mmo_nrespages o + 1), pf)

def pframe_pin (s : State) (pg : Nat) : State :=
  if pg ∈ s.alloc_list then
    { s with alloc_list := s.alloc_list.erase pg, pinned_list := s.pinned_list ++ [pg] }.setPin pg
      (s.pf_pincount pg + 1)
  else if pg ∈ s.pinned_list then s.setPin pg (s.pf_pincount pg + 1)
  else s

def pframe_unpin (s : State) (pg : Nat) : State :=
  if pg ∈ s.pinned_list then
    let s := s.setPin pg (s.pf_pincount pg - 1)
    if s.pf_pincount pg = 0 then
      { s with pinned_list := s.pinned_list.erase pg, alloc_list := s.alloc_list ++ [pg] }
    else s
  else s

/-- Mark the page busy while `fill` fills it. The result says whether it did. -/
def pframe_fill (fill : State → Nat → Pframe → Option (State × Bool)) (s : State) (pf : Pframe) :
    Option (State × Bool) := do
  let (s, ok) ← fill (s.setBusy pf.pf_addr true) pf.pf_obj pf
  some (s.setBusy pf.pf_addr false, ok)

/-- `pframe_get`, for the `fillpage` operation `fill`. Like the source it
returns the frame even when filling it fails. -/
def pframe_get_by (fill : State → Nat → Pframe → Option (State × Bool)) (s : State) (o pn : Nat) :
    Option (State × Pframe × Bool) :=
  match pframe_get_resident s o pn with
  | (s, some pf) => if s.pf_busy pf.pf_addr then none else some (s, pf, true)
  | (s, none) => do
    let (s, pf) ← pframe_alloc E s o pn
    let (s, ok) ← pframe_fill fill s pf
    some (s, pf, ok)

/-! ## Filling pages -/

def anon_fillpage (s : State) (pf : Pframe) : Option (State × Bool) := do
  KASSERT (s.pf_busy pf.pf_addr = true)
  KASSERT (s.pf_pincount pf.pf_addr = 0)
  let s := pframe_pin s pf.pf_addr
  some (s.setMem pf.pf_addr (fun _ => 0), true)

/-- The vnode's `fillpage` operation, at the page's offset in the file. -/
def vreadpage (s : State) (vn : Nat) (pf : Pframe) : Option (State × Bool) :=
  if E.io s.clock then some (s.tick.setMem pf.pf_addr (s.disk vn (PN_TO_ADDR pf.pf_pagenum)), true)
  else some (s.tick, false)

/-- `fillpage` of an object that shadows nothing. A shadow object would follow
its null `mmo_shadowed`. -/
def fillBottom (s : State) (o : Nat) (pf : Pframe) : Option (State × Bool) := do
  let ob ← s.objs o
  match ob.mmo_ops with
  | .anon => anon_fillpage s pf
  | .vnode vn => vreadpage E s vn pf
  | .shadow => none

/-- `pframe_get` on the object at the end of a chain. -/
def pframe_get_bottom (s : State) (o pn : Nat) : Option (State × Pframe × Bool) :=
  pframe_get_by E (fillBottom E) s o pn

/-- The loop over a chain from `o`: the first shadow object with page `pn`
resident, or the object at the end. -/
def chainWalk (s : State) (pn : Nat) : Nat → Nat → Option (Pframe ⊕ Nat)
  | 0, _ => none
  | n + 1, o => do
    let ob ← s.objs o
    match ob.mmo_shadowed with
    | none => some (.inr o)
    | some o' =>
      match s.frame? o pn with
      | some pf => some (.inl pf)
      | none => chainWalk s pn n o'

/-- An object shadows an older one, or one that shadows nothing, so this
is enough fuel to walk the chain from `o`. -/
def chainFuel (o : Nat) : Nat := o + 2

/-- Pin the page and copy it from the first object below `o` that has it. -/
def shadow_fillpage (s : State) (o : Nat) (pf : Pframe) : Option (State × Bool) := do
  KASSERT (s.pf_busy pf.pf_addr = true)
  KASSERT (s.pf_pincount pf.pf_addr = 0)
  let s := pframe_pin s pf.pf_addr
  let below ← s.parent o
  match ← chainWalk s pf.pf_pagenum (chainFuel below) below with
  | .inl npframe => some (s.setMem pf.pf_addr (s.mem npframe.pf_addr), true)
  | .inr b => do
    let (s, npframe, _) ← pframe_get_bottom E s b pf.pf_pagenum
    some (s.setMem pf.pf_addr (s.mem npframe.pf_addr), true)

/-- The object's `fillpage` operation. -/
def fillpage (s : State) (o : Nat) (pf : Pframe) : Option (State × Bool) := do
  let ob ← s.objs o
  match ob.mmo_ops with
  | .shadow => shadow_fillpage E s o pf
  | _ => fillBottom E s o pf

def pframe_get (s : State) (o pn : Nat) : Option (State × Pframe × Bool) :=
  pframe_get_by E (fillpage E) s o pn

/-- The frame page `pn` of `o` reads from: that of the first shadow object of
the chain that has one, or else of the object at the end. -/
def shadow_resolve (s : State) (o pn : Nat) : Option (State × Pframe) := do
  let ob ← s.objs o
  match ← chainWalk s pn (chainFuel o) o with
  | .inl pf => some (s, pf)
  | .inr _ => do
    let bottom ← ob.mmo_bottom_obj
    let (s, pf, _) ← pframe_get E s bottom pn
    some (s, pf)

/-- For writing, the page is copied up into `o` itself. -/
def shadow_lookuppage (s : State) (o pn : Nat) (forwrite : Bool) : Option (State × Pframe) := do
  let (s, spframe) ← shadow_resolve E s o pn
  if forwrite && spframe.pf_obj ≠ o then do
    let (s, pf, _) ← pframe_get E s o pn
    some (s, pf)
  else some (s, spframe)

/-! ## Dirtying -/

/-- The object's `dirtypage` operation: whether it returns 0. -/
def dirtypage (s : State) (o : Nat) (pf : Pframe) : Option (State × Bool) := do
  let ob ← s.objs o
  match ob.mmo_ops with
  | .anon => some (s, false)
  | .shadow => some (s, true)
  | .vnode _ => if s.pf_dirty pf.pf_addr then some (s, true) else some (s.tick, E.io s.clock)

def pframe_dirty (s : State) (pf : Pframe) : Option State := do
  KASSERT (s.pf_busy pf.pf_addr = false)
  let (s, ok) ← dirtypage E (s.setBusy pf.pf_addr true) pf.pf_obj pf
  let s := if ok then s.setDirty pf.pf_addr true else s
  some (s.setBusy pf.pf_addr false)

/-! ## Releasing -/

/-- One area of the bottom object's list: unmap the page there if the area covers it. -/
def remove_from_area (s : State) (pf : Pframe) (vma : VmArea) : Option State :=
  if vma.vma_off ≤ pf.pf_pagenum ∧ pf.pf_pagenum < u32 (vma.vma_off + usub vma.vma_end vma.vma_start) then do
    let vaddr := PN_TO_ADDR (usub (vma.vma_start + pf.pf_pagenum) vma.vma_off)
    let m ← vma.vma_vmmap
    match s.vmm_proc m with
    | some p => some (s.pt_unmap p (ADDR_TO_PN vaddr))
    | none => some s
  else some s

def remove_from_areas (pf : Pframe) : State → List Nat → Option State
  | s, [] => some s
  | s, id :: ids => do
    let vma ← s.areaById id
    let s ← remove_from_area s pf vma
    remove_from_areas pf s ids

/-- Unmap a frame in the areas on its bottom object's list. An area whose map
belongs to no process is passed over. -/
def pframe_remove_from_pts (s : State) (pf : Pframe) : Option State := do
  let b ← s.bottomOf pf.pf_obj
  remove_from_areas pf s (s.mmo_vmas b)

/-- `pframe_free` up to the final `put` of the object. -/
def pframe_release (s : State) (pf : Pframe) : Option State := do
  KASSERT (s.pf_pincount pf.pf_addr = 0)
  KASSERT (s.pf_busy pf.pf_addr = false)
  let s ← pframe_remove_from_pts s pf
  let s := s.dropFrame pf
  some (s.setNres pf.pf_obj (s.mmo_nrespages pf.pf_obj - 1))

end Weenix.Vm
