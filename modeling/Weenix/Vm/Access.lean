import Weenix.Vm.Vmmap
/-!
# Access to user memory (`vm/pagefault.c`, `api/access.c`, `vm/vmmap.c`)

The page-fault handler, and the copies between kernel and user memory, which
do not go through page tables. Each has its own expression for the page of the
object behind a page of an area.
-/

namespace Weenix.Vm

variable (C : Config) (E : Env)

def addr_perm (l : List VmArea) (vaddr : Nat) (perm : Prot) : Bool :=
  match vmmap_lookup l (ADDR_TO_PN vaddr) with
  | some a => a.vma_prot.grants perm
  | none => false

/-- The loop of `range_perm`. -/
def range_perm_from (initial final : Nat) (perm : Prot) : Bool → List VmArea → Bool
  | found, [] => found
  | found, a :: l =>
    if a.vma_end ≤ initial then range_perm_from initial final perm found l
    else if final ≤ a.vma_start then found
    else if a.vma_prot.grants perm then range_perm_from initial final perm true l
    else false

def range_perm (l : List VmArea) (avaddr len : Nat) (perm : Prot) : Bool :=
  range_perm_from (ADDR_TO_PN avaddr) (ADDR_TO_PN (u32 (avaddr + len)) + 1) perm false l

/-! ## Page faults -/

inductive FaultResult
  | mapped
  | killed
  deriving DecidableEq

/-- The memory side of the exit of process `p` with the `p_status` it has. -/
def exit_process (s : State) (p : Nat) (p_status : Int) : Option State := do
  let pr ← s.procs p
  let s ← vmmap_destroy C s p pr.p_vmmap
  some ((s.setProc p none).setZombie p p_status)

/-- The right `handle_pagefault` asks for; `FAULT_RESERVED` asks for `PROT_NONE`. -/
def accessRight (cause : Cause) : Prot := { read := cause.present, write := cause.write, exec := cause.exec }

def fault_pagenum (a : VmArea) (vaddr : Nat) : Nat := usub (a.vma_off + ADDR_TO_PN vaddr) a.vma_start

/-- The frame to map for a fault in `a`. -/
def fault_frame (s : State) (a : VmArea) (vaddr : Nat) (forwrite : Bool) : Option (State × Pframe) := do
  let o ← a.vma_obj
  let ob ← s.objs o
  match ob.mmo_shadowed with
  | none => do
    let (s, pf, _) ← pframe_get E s o (fault_pagenum a vaddr)
    some (s, pf)
  | some _ => shadow_lookuppage E s o (fault_pagenum a vaddr) forwrite

def handle_pagefault (s : State) (p vaddr : Nat) (cause : Cause) : Option (State × FaultResult) := do
  let pr ← s.procs p
  let l := s.vmm_list pr.p_vmmap
  let kill := (exit_process C s p EFAULT).map (·, FaultResult.killed)
  match vmmap_lookup l (ADDR_TO_PN vaddr) with
  | none => kill
  | some a =>
    if addr_perm l vaddr (accessRight cause) = false then kill
    else do
      let (s, pf) ← fault_frame E s a vaddr cause.write
      some (s.pt_map p (ADDR_TO_PN (PN_TO_ADDR (ADDR_TO_PN vaddr))) pf.pf_addr cause.write, .mapped)

/-! ## Copies -/

/-- Replace `n` bytes at `off` by those at `src` of `from`. -/
def blit (dst : Page) (off n : Nat) (from_ : Nat → UInt8) (src : Nat) : Page :=
  fun i => if off ≤ i ∧ i < off + n then from_ (src + (i - off)) else dst i

/-- The locals of the copy loops: the address reached, the bytes copied so far
(`temp`) and the place in the kernel buffer (`buf`). -/
structure Cursor where
  vaddr : Nat
  temp : Nat
  buf : Nat

def write_pagenum (a : VmArea) (counter : Nat) : Nat := u32 (usub a.vma_off a.vma_start + counter)

def read_pagenum (a : VmArea) (counter : Nat) : Nat := usub (a.vma_off + counter) a.vma_start

/-- The page loop of `vmmap_write` over one area, for the pages from `counter` on. -/
def write_pages (a : VmArea) (kmem : Nat → UInt8) (count : Nat) :
    Nat → Nat → State → Cursor → Option (State × Cursor)
  | 0, _, s, c => some (s, c)
  | k + 1, counter, s, c => do
    let o ← a.vma_obj
    let (s, pf, _) ← pframe_get E s o (write_pagenum a counter)
    let pgOfset := c.vaddr % PAGE_SIZE
    let buf := c.buf + c.temp
    let n := min (count - c.temp) (PAGE_SIZE - pgOfset)
    let s ← pframe_dirty E s pf
    let s := s.setBusy pf.pf_addr true
    let s := s.setMem pf.pf_addr (blit (s.mem pf.pf_addr) pgOfset n kmem buf)
    let s := s.setBusy pf.pf_addr false
    write_pages a kmem count k (counter + 1) s ⟨PN_TO_ADDR (1 + counter), c.temp + n, buf⟩

/-- The area loop of `vmmap_write`. -/
def write_areas (kmem : Nat → UInt8) (vfnInitial vfnFinal count : Nat) :
    State → Cursor → List VmArea → Option State
  | s, _, [] => some s
  | s, c, a :: l =>
    if a.vma_end ≤ vfnInitial then write_areas kmem vfnInitial vfnFinal count s c l
    else if vfnFinal ≤ a.vma_start then some s
    else do
      let initialAddr := if a.vma_start ≤ vfnInitial then vfnInitial else a.vma_start
      let finalAddr := if a.vma_end > vfnFinal then vfnFinal else a.vma_end
      let (s, c) ← write_pages E a kmem count (finalAddr - initialAddr) initialAddr s c
      write_areas kmem vfnInitial vfnFinal count s c l

/-- Copy `count` bytes from the start of the kernel memory `kmem` to `vaddr`. -/
def vmmap_write (s : State) (m vaddr : Nat) (kmem : Nat → UInt8) (count : Nat) : Option State :=
  write_areas E kmem (ADDR_TO_PN vaddr) (1 + ADDR_TO_PN (u32 (vaddr + count))) count s ⟨vaddr, 0, 0⟩ (s.vmm_list m)

/-- The page loop of `vmmap_read`; `temp` starts again at 0 in each area. -/
def read_pages (a : VmArea) (count : Nat) :
    Nat → Nat → State → Cursor → (Nat → UInt8) → Option (State × Cursor × (Nat → UInt8))
  | 0, _, s, c, kmem => some (s, c, kmem)
  | k + 1, counter, s, c, kmem => do
    let o ← a.vma_obj
    let (s, pf, _) ← pframe_get E s o (read_pagenum a counter)
    let pgofset := c.vaddr % PAGE_SIZE
    let buf := c.buf + c.temp
    let n := min (count - c.temp) (PAGE_SIZE - pgofset)
    let kmem := blit kmem buf n (s.mem pf.pf_addr) pgofset
    read_pages a count k (counter + 1) s ⟨PN_TO_ADDR (1 + counter), c.temp + n, buf⟩ kmem

/-- The area loop of `vmmap_read`. -/
def read_areas (vfnInitial vfnFinal count : Nat) :
    State → Cursor → (Nat → UInt8) → List VmArea → Option (State × (Nat → UInt8))
  | s, _, kmem, [] => some (s, kmem)
  | s, c, kmem, a :: l =>
    if a.vma_end ≤ vfnInitial then read_areas vfnInitial vfnFinal count s c kmem l
    else if vfnFinal ≤ a.vma_start then some (s, kmem)
    else do
      let initialAddr := if a.vma_start ≤ vfnInitial then vfnInitial else a.vma_start
      let finalAddr := if a.vma_end > vfnFinal then vfnFinal else a.vma_end
      let (s, c, kmem) ← read_pages E a count (finalAddr - initialAddr) initialAddr s { c with temp := 0 } kmem
      read_areas vfnInitial vfnFinal count s c kmem l

/-- Copy `count` bytes from `vaddr` to the start of the kernel memory `kmem`. -/
def vmmap_read (s : State) (m vaddr : Nat) (kmem : Nat → UInt8) (count : Nat) :
    Option (State × (Nat → UInt8)) :=
  read_areas E (ADDR_TO_PN vaddr) (1 + ADDR_TO_PN (u32 (vaddr + count))) count s ⟨vaddr, 0, 0⟩ kmem (s.vmm_list m)

def copy_from_user (s : State) (p : Nat) (kmem : Nat → UInt8) (uaddr nbytes : Nat) :
    Option (State × (Nat → UInt8) × Except Errno Unit) := do
  let pr ← s.procs p
  if range_perm (s.vmm_list pr.p_vmmap) uaddr nbytes { read := true } = false then
    some (s, kmem, .error .EFAULT)
  else do
    let (s, kmem) ← vmmap_read E s pr.p_vmmap uaddr kmem nbytes
    some (s, kmem, .ok ())

def copy_to_user (s : State) (p uaddr : Nat) (kmem : Nat → UInt8) (nbytes : Nat) :
    Option (State × Except Errno Unit) := do
  let pr ← s.procs p
  if range_perm (s.vmm_list pr.p_vmmap) uaddr nbytes { write := true } = false then some (s, .error .EFAULT)
  else do
    let s ← vmmap_write E s pr.p_vmmap uaddr kmem nbytes
    some (s, .ok ())

end Weenix.Vm
