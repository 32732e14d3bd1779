import Weenix.Vm.Mmap
/-!
# Creating processes (`proc/proc.c`, `proc/fork.c`)

The memory side of `proc_create` and `do_fork`. The new map of a child comes
from `vmmap_clone` and takes the place of the one `proc_create` made.
-/

namespace Weenix.Vm

/-- `proc_create`: the new process is `s.nprocs`, with an empty map of its own. -/
def proc_create (s : State) : State :=
  let c := s.nprocs
  let m := s.nmaps
  let s := vmmap_create s
  { s with
    procs := Function.update s.procs c (some ⟨m, 0, fun _ => none⟩)
    nprocs := c + 1
    p_pagedir := Function.update s.p_pagedir c (fun _ => none)
    p_brk := Function.update s.p_brk c 0
    vmm_proc := Function.update s.vmm_proc m (some c) }

/-- One turn of the loop of `do_fork`, on an area of the parent's map `m` and
its copy in the child's map `m'`. -/
def fork_area (s : State) (p m m' : Nat) (vmareaP vmarea_newChild : VmArea) : Option State := do
  let o ← vmareaP.vma_obj
  if !vmareaP.vma_flags.shared then do
    let ob ← s.objs o
    let bottom ← ob.mmo_bottom_obj
    let sh_p := s.nobjs
    let s := s.newObj ⟨.shadow, some o, some bottom⟩
    let sh_c := s.nobjs
    let s := s.newObj ⟨.shadow, some o, some bottom⟩
    let s := s.linkVma bottom vmarea_newChild.vma_id
    let s ← mmobj_ref s o
    let s := s.modArea m' vmarea_newChild.vma_id (VmArea.withObj (some sh_c))
    let s := s.modArea m vmareaP.vma_id (VmArea.withObj (some sh_p))
    some (s.pt_unmap_range p vmareaP.vma_start vmareaP.vma_end)
  else do
    let s := s.modArea m' vmarea_newChild.vma_id (VmArea.withObj (some o))
    let s ← mmobj_ref s o
    some (s.linkVma o vmarea_newChild.vma_id)

/-- The loop of `do_fork` over both area lists. -/
def fork_areas (p m m' : Nat) : State → List VmArea → List VmArea → Option State
  | s, a :: l, b :: l' => do
    let s ← fork_area s p m m' a b
    fork_areas p m m' s l l'
  | s, _, _ => some s

/-- `do_fork` of process `p`: the next state and the child. -/
def do_fork (s : State) (p : Nat) : Option (State × Nat) := do
  let pr ← s.procs p
  let c := s.nprocs
  let s := proc_create s
  let m' := s.nmaps
  let s := vmmap_clone s pr.p_vmmap
  let s ← fork_areas p pr.p_vmmap m' s (s.vmm_list pr.p_vmmap) (s.vmm_list m')
  some (setBrk (s.setProc c (some ⟨m', pr.p_start_brk, pr.p_files⟩)) c (s.p_brk p), c)

end Weenix.Vm
