import Weenix.Vm.Vmmap
/-!
# `mmap`, `munmap` and `brk` (`vm/mmap.c`, `vm/brk.c`)

The system calls of the process `p`. Each returns the next state and the
value stored through `ret`, or the error it returns.
-/

namespace Weenix.Vm

variable (C : Config)

/-- `fget(fd)` of a descriptor: one more reference. -/
def fget (s : State) (pr : Proc) (fd : Nat) : State × Option (Nat × File) :=
  match pr.p_files fd with
  | none => (s, none)
  | some f =>
    match s.files f with
    | none => (s, none)
    | some fl =>
      (s.setFiles (Function.update s.files f (some { fl with f_refcount := fl.f_refcount + 1 })), some (f, fl))

/-- One reference less; the last one frees the `file_t`. -/
def fput (s : State) (f : Nat) : State :=
  match s.files f with
  | none => s
  | some fl =>
    let fl' := if fl.f_refcount ≤ 1 then none else some { fl with f_refcount := fl.f_refcount - 1 }
    s.setFiles (Function.update s.files f fl')

/-- Round a length up to whole pages. -/
def roundLen (len : Nat) : Nat := if PAGE_ALIGNED len then len else PN_TO_ADDR (ADDR_TO_PN len + 1)

/-- The checks of `do_mmap` on an open file; `none` is no objection. An error
in the first component returns without `fput`. -/
def checkFile (s : State) (fl : File) (len off : Nat) (prot : Prot) (flags : MapFlags) : Option (Bool × Errno) :=
  if C.NFILES < ADDR_TO_PN len + ADDR_TO_PN off then some (false, .EOVERFLOW)
  else if fl.f_mode = { append := true } ∧ prot.write then some (true, .EACCES)
  else if flags.priv ∧ !fl.f_mode.read then some (true, .EACCES)
  else if (s.vnodes fl.f_vnode).vn_mode ≠ .chr ∧ (s.vnodes fl.f_vnode).vn_mode ≠ .reg then some (true, .EACCES)
  else if flags.shared ∧ prot.write ∧ (!fl.f_mode.write ∨ !fl.f_mode.read) then some (true, .EACCES)
  else if (s.vnodes fl.f_vnode).vn_mmap.isNone then some (true, .ENODEV)
  else none

/-- The file to map: `none` for an anonymous mapping. -/
def mmapFile (s : State) (pr : Proc) (len : Nat) (prot : Prot) (flags : MapFlags) (fd : Int) (off : Nat) :
    State × Except Errno (Option (Nat × Nat)) :=
  if fd > C.MAX_FILES ∨ fd < 0 then
    if !flags.anon then (s, .error .EBADF) else (s, .ok none)
  else if flags.anon then (s, .ok none)
  else
    match fget s pr fd.toNat with
    | (s, none) => (s, .error .EBADF)
    | (s, some (f, fl)) =>
      match checkFile C s fl len off prot flags with
      | some (release, e) => (if release then fput s f else s, .error e)
      | none => (s, .ok (some (f, fl.f_vnode)))

/-- The page-aligned address to map at. -/
def mmapAddr (l : List VmArea) (addr len : Nat) (flags : MapFlags) : Option (Except Errno Nat) :=
  if !flags.fixed then do
    let r ← vmmap_find_range C l (ADDR_TO_PN len) .lohi
    if r < 0 then some (.error .EINVAL)
    else if ADDR_TO_PN len = 0 then some (.error .EINVAL)
    else some (.ok (PN_TO_ADDR r.toNat))
  else if u32 (addr + len) > C.USER_MEM_HIGH ∨ addr > C.USER_MEM_HIGH ∨ addr < C.USER_MEM_LOW then
    some (.error .EINVAL)
  else if !PAGE_ALIGNED addr then some (.error .EINVAL)
  else some (.ok addr)

def do_mmap (s : State) (p addr len : Nat) (prot : Prot) (flags : MapFlags) (fd : Int) (off : Nat) :
    Option (State × Except Errno Nat) := do
  let pr ← s.procs p
  if !PAGE_ALIGNED off then some (s, .error .EINVAL)
  else if flags.other then some (s, .error .ENOTSUP)
  else
    let len := roundLen len
    if len = 0 then some (s, .error .EINVAL)
    else if flags.shared = flags.priv then some (s, .error .EINVAL)
    else do
      match ← mmapAddr C (s.vmm_list pr.p_vmmap) addr len flags with
      | .error e => some (s, .error e)
      | .ok addr =>
        match mmapFile C s pr len prot flags fd off with
        | (s, .error e) => some (s, .error e)
        | (s, .ok file) => do
          let (s, r) ← vmmap_map C s p pr.p_vmmap (file.map (·.2)) (ADDR_TO_PN addr) (ADDR_TO_PN len) prot flags
            off .lohi
          match r with
          | .error _ => none -- `vmArea` was never set
          | .ok start =>
            let s := match file with
              | some (f, _) => fput s f
              | none => s
            some (s, .ok (PN_TO_ADDR start))

def do_munmap (s : State) (p addr len : Nat) : Option (State × Except Errno Nat) := do
  let pr ← s.procs p
  if !PAGE_ALIGNED addr then some (s, .error .EINVAL)
  else
    let len := roundLen len
    if len = 0 then some (s, .error .EINVAL)
    else if u32 (addr + len) > C.USER_MEM_HIGH ∨ addr > C.USER_MEM_HIGH ∨ addr < C.USER_MEM_LOW then
      some (s, .error .EINVAL)
    else do
      let s ← vmmap_remove C s p pr.p_vmmap (ADDR_TO_PN addr) (ADDR_TO_PN len)
      some (s, .ok 0)

/-- The label `lblEnd` of `do_brk`. -/
def setBrk (s : State) (p addr : Nat) : State := { s with p_brk := Function.update s.p_brk p addr }

def do_brk (s : State) (p addr : Nat) : Option (State × Except Errno Nat) := do
  let pr ← s.procs p
  let m := pr.p_vmmap
  if addr = 0 then some (s, .ok (s.p_brk p))
  else if pr.p_start_brk > addr then some (s, .error .ENOMEM)
  else if C.USER_MEM_HIGH < addr then some (s, .error .ENOMEM)
  else
    let finalbrkPg := ADDR_TO_PN addr
    let initialbrkPg := ADDR_TO_PN pr.p_start_brk
    match vmmap_lookup (s.vmm_list m) initialbrkPg with
    | none => do
      let (s, r) ← do_mmap C s p (PN_TO_ADDR initialbrkPg) (PN_TO_ADDR (usub finalbrkPg initialbrkPg))
        { read := true, write := true } { priv := true, anon := true } (-1) 0
      match r with
      | .error e => some (s, .error e)
      | .ok _ => some (setBrk s p addr, .ok addr)
    | some _ =>
      let uintInitPg := ADDR_TO_PN (s.p_brk p)
      if uintInitPg = finalbrkPg then some (setBrk s p addr, .ok addr)
      else if uintInitPg < finalbrkPg then do
        let a ← vmmap_lookup (s.vmm_list m) uintInitPg
        let e ← vmmap_is_range_empty C (s.vmm_list m) a.vma_end (usub (1 + finalbrkPg) a.vma_end)
        if e then
          some (setBrk (s.modArea m a.vma_id (VmArea.cutEnd (1 + finalbrkPg))) p addr, .ok addr)
        else some (s, .error .ENOMEM)
      else do
        let s ← vmmap_remove C s p m (finalbrkPg + 1) (uintInitPg - finalbrkPg)
        some (setBrk s p addr, .ok addr)

end Weenix.Vm
