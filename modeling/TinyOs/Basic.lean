import Mathlib.Data.Fin.Basic
import Mathlib.Algebra.Group.Nat.Defs

/-!
The machine constants the kernel's memory code is written against (`threads/vaddr.h`,
`threads/loader.h`, `userprog/process.h`, `threads/thread.h`, `devices/disk.h`), and the
bytes of a page.

Addresses are natural numbers below `2 ^ 32`; where the source computes in 32-bit unsigned
arithmetic the model reduces modulo `2 ^ 32` explicitly.
-/

namespace TinyOs

/-- `PGSIZE`: bytes in a page. -/
def pgSize : ℕ := 4096

/-- `PHYS_BASE` (`LOADER_PHYS_BASE`): user virtual addresses lie below it, kernel ones at or
above it. -/
def physBase : ℕ := 0xc0000000

/-- `MAX_STACK_SIZE`: the user stack may grow to this many pages. -/
def maxStackSize : ℕ := 2000

/-- `STACK_BOTTOM`: the lowest address of the user stack region. -/
def stackBottom : ℕ := physBase - pgSize * maxStackSize

/-- `NUM_FD`: slots in a process's descriptor table. -/
def numFd : ℕ := 128

/-- `DISK_SECTOR_SIZE`: bytes in a disk sector. -/
def diskSectorSize : ℕ := 512

/-- A 32-bit unsigned computation (`size_t`, `uint32_t`, or `char *` arithmetic): the result
modulo `2 ^ 32`. -/
def wrap32 (a : ℕ) : ℕ := a % 2 ^ 32

lemma wrap32_of_lt {a : ℕ} (h : a < 2 ^ 32) : wrap32 a = a := Nat.mod_eq_of_lt h

/-- `pg_ofs`: the offset of an address within its page. -/
def pgOfs (va : ℕ) : ℕ := va % pgSize

/-- `pg_round_down`: the start of the page an address lies in. -/
def pgRoundDown (va : ℕ) : ℕ := va - pgOfs va

/-- Thread identifiers (`tid_t`); a process is named by its thread. -/
abbrev Tid := ℕ

/-- The contents of a page of memory, byte by byte. -/
abbrev Page : Type := Fin pgSize → UInt8

/-- A page of zero bytes. -/
def Page.zero : Page := fun _ => 0

end TinyOs
