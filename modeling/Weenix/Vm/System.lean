import Weenix.Vm.Access
import Weenix.Vm.Fork
import Weenix.Lib.Runs
/-!
# The memory system as a state machine

One event is one kernel entry or one user access of a process, run to its end.
A user access goes through the page table and, when the entry is missing or
does not allow it, through the page-fault handler first.
-/

namespace Weenix.Vm

inductive Event
  | spawn
  /-- Descriptor `fd` of `p` becomes the new `file_t` `f`. -/
  | opened (p fd f : Nat) (mode : FileMode) (vn : Nat)
  | mmap (p addr len : Nat) (prot : Prot) (flags : MapFlags) (fd : Int) (off : Nat)
  | munmap (p addr len : Nat)
  /-- A call of `vmmap_remove` on the map of `p`. -/
  | remove (p lopage npages : Nat)
  | fork (p : Nat)
  | load (p vaddr : Nat)
  | store (p vaddr : Nat) (b : UInt8)
  | copyout (p uaddr : Nat) (kmem : Nat → UInt8) (nbytes : Nat)
  | pageout
  | exit (p : Nat)

inductive Outcome
  | done
  | value (n : Nat)
  | byte (b : UInt8)
  | error (e : Errno)
  | killed
  deriving DecidableEq

/-- The outcome of a system call. -/
def sysret : Except Errno Nat → Outcome
  | .ok n => .value n
  | .error e => .error e

variable (C : Config) (E : Env)

/-- The byte a user load reads through the page table. -/
def readPte (s : State) (p vaddr : Nat) : Option UInt8 :=
  (s.p_pagedir p (ADDR_TO_PN vaddr)).map (fun pte => s.mem pte.pt_page (vaddr % PAGE_SIZE))

/-- The state after a user store through a writable page-table entry. -/
def writePte (s : State) (p vaddr : Nat) (b : UInt8) : Option State :=
  match s.p_pagedir p (ADDR_TO_PN vaddr) with
  | some pte =>
    if pte.pt_write then some (s.setMem pte.pt_page (Function.update (s.mem pte.pt_page) (vaddr % PAGE_SIZE) b))
    else none
  | none => none

/-- A user load. A read fault finds no entry present. -/
def userLoad (s : State) (p vaddr : Nat) : Option (State × Outcome) :=
  match readPte s p vaddr with
  | some b => some (s, .byte b)
  | none => do
    let (s, r) ← handle_pagefault C E s p vaddr {}
    match r with
    | .killed => some (s, .killed)
    | .mapped => do
      let b ← readPte s p vaddr
      some (s, .byte b)

/-- A user store. A write fault may find a read-only entry present. -/
def userStore (s : State) (p vaddr : Nat) (b : UInt8) : Option (State × Outcome) :=
  match writePte s p vaddr b with
  | some s => some (s, .done)
  | none => do
    let present := (s.p_pagedir p (ADDR_TO_PN vaddr)).isSome
    let (s, r) ← handle_pagefault C E s p vaddr { present := present, write := true }
    match r with
    | .killed => some (s, .killed)
    | .mapped => do
      let s ← writePte s p vaddr b
      some (s, .done)

/-- What `do_open` leaves behind: a new `file_t`, and a descriptor for it. -/
def openFile (s : State) (p : Nat) (pr : Proc) (fd f : Nat) (mode : FileMode) (vn : Nat) : State :=
  (s.setProc p (some { pr with p_files := Function.update pr.p_files fd (some f) })).setFiles
    (Function.update s.files f (some ⟨1, mode, vn⟩))

/-- One event. -/
def step (s : State) : Event → Option (State × Outcome)
  | .spawn => some (proc_create s, .value s.nprocs)
  | .opened p fd f mode vn => do
    let pr ← s.procs p
    KASSERT ((s.files f).isNone = true)
    some (openFile s p pr fd f mode vn, .done)
  | .mmap p addr len prot flags fd off => do
    let (s, r) ← do_mmap C s p addr len prot flags fd off
    some (s, sysret r)
  | .munmap p addr len => do
    let (s, r) ← do_munmap C s p addr len
    some (s, sysret r)
  | .remove p lopage npages => do
    let pr ← s.procs p
    let s ← vmmap_remove C s p pr.p_vmmap lopage npages
    some (s, .done)
  | .fork p => do
    let (s, c) ← do_fork s p
    some (s, .value c)
  | .load p vaddr => do
    let _ ← s.procs p
    userLoad C E s p vaddr
  | .store p vaddr b => do
    let _ ← s.procs p
    userStore C E s p vaddr b
  | .copyout p uaddr kmem nbytes => do
    let (s, r) ← copy_to_user E s p uaddr kmem nbytes
    match r with
    | .ok () => some (s, .value 0)
    | .error e => some (s, .error e)
  | .pageout => do
    let s ← pageoutd_turn E s
    some (s, .done)
  | .exit p => do
    let s ← exit_process C s p 0
    some (s, .done)

end Weenix.Vm
