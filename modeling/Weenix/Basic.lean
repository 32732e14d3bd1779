import Mathlib.Algebra.Ring.Int.Defs
import Mathlib.Algebra.Ring.Nat
import Mathlib.Data.Nat.Basic
import Mathlib.Order.Basic
import Mathlib.Tactic.Common
/-!
# Words, pages and flag sets

`uint32_t` values are natural numbers below `2^32`; `u32` and `usub` wrap
around. The bit flags of `mman.h`, `pagefault.h` and `file.h` are records with
one field a bit, so that no result depends on their values. The bounds of user
memory and the table sizes are the fields of a `Config`.
-/

namespace Weenix

/-- Wrap around to `uint32_t`. -/
def u32 (n : Nat) : Nat := n % 2 ^ 32

/-- `a - b` on `uint32_t`. -/
def usub (a b : Nat) : Nat := (a + (2 ^ 32 - b)) % 2 ^ 32

/-- A `uint32_t` read as an `int`. -/
def int32 (n : Nat) : Int := if n < 2 ^ 31 then n else (n : Int) - 2 ^ 32

def PAGE_SIZE : Nat := 4096
def ADDR_TO_PN (addr : Nat) : Nat := addr / PAGE_SIZE
def PN_TO_ADDR (pn : Nat) : Nat := u32 (pn * PAGE_SIZE)
def PAGE_ALIGNED (n : Nat) : Bool := n % PAGE_SIZE == 0

/-- The bytes of a page, by offset. -/
abbrev Page := Nat → UInt8

/-- The constants of `mm/mm.h` and `config.h` that the code compares with. User
memory is given by its first page and the page after its last. -/
structure Config where
  low : Nat
  high : Nat
  NFILES : Nat
  MAX_FILES : Nat
  low_pos : 0 < low
  low_lt : low < high
  high_lt : high < 2 ^ 20
  nfiles_lt : NFILES < 2 ^ 16

namespace Config
def USER_MEM_LOW (C : Config) : Nat := C.low * PAGE_SIZE
def USER_MEM_HIGH (C : Config) : Nat := C.high * PAGE_SIZE

/-- User memory from 4 MB to 3 GB. -/
def stock : Config where
  low := 0x400
  high := 0xc0000
  NFILES := 32
  MAX_FILES := 1024
  low_pos := by decide
  low_lt := by decide
  high_lt := by decide
  nfiles_lt := by decide

end Config

inductive Errno
  | EINVAL | ENOMEM | ENOTSUP | EBADF | EOVERFLOW | EACCES | ENODEV | EFAULT | ECHILD | ENOENT | ENOTDIR
  | EISDIR | EEXIST | ENAMETOOLONG | ENOTEMPTY | EINTR | EMFILE | ENXIO
  deriving DecidableEq, Repr

/-- `PROT_READ`, `PROT_WRITE`, `PROT_EXEC`; `other` is any further bit. -/
structure Prot where
  read : Bool := false
  write : Bool := false
  exec : Bool := false
  other : Bool := false
  deriving DecidableEq, Repr

/-- `perm == (prot & perm)`. -/
def Prot.grants (prot perm : Prot) : Bool :=
  (!perm.read || prot.read) && (!perm.write || prot.write) && (!perm.exec || prot.exec) && (!perm.other || prot.other)

/-- `MAP_SHARED`, `MAP_PRIVATE`, `MAP_FIXED`, `MAP_ANON`; `other` is any further bit. -/
structure MapFlags where
  shared : Bool := false
  priv : Bool := false
  fixed : Bool := false
  anon : Bool := false
  other : Bool := false
  deriving DecidableEq, Repr

/-- The bits of a fault's cause word that the handler reads. -/
structure Cause where
  present : Bool := false
  write : Bool := false
  exec : Bool := false
  reserved : Bool := false
  deriving DecidableEq, Repr

/-- `EFAULT` of `errno.h`. -/
def EFAULT : Int := 14

/-- `KASSERT`: the run ends when the condition fails. -/
def KASSERT (p : Prop) [Decidable p] : Option Unit := if p then some () else none

@[simp] theorem KASSERT_eq_some {p : Prop} [Decidable p] {u : Unit} : KASSERT p = some u ↔ p := by
  unfold KASSERT; split <;> simp_all

theorem usub_lt (a b : Nat) : usub a b < 2 ^ 32 := Nat.mod_lt _ (by decide)

theorem usub_of_le {a b : Nat} (h : b ≤ a) (ha : a < 2 ^ 32) : usub a b = a - b := by
  unfold usub; omega

theorem u32_of_lt {a : Nat} (h : a < 2 ^ 32) : u32 a = a := Nat.mod_eq_of_lt h

end Weenix
