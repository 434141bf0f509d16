/-
  PROCESSES AND THEIR PAGES (`kernel/proc.c`): page tables with the trampoline and the trapframe in
  them, and `sbrk`.
-/
import Xv6.Vm.Pages

namespace Xv6.Vm

open Bytes

namespace Vcode

/-- Create a user page table for a given process, with no user memory, but with trampoline pages. -/
def procPagetable (L : Layout) (trapframe : Nat) : Vcode Nat := do
  let pagetable ← uvmcreate
  if pagetable = 0 then pure 0
  else if (← mappages pagetable TRAMPOLINE PGSIZE L.trampoline (PTE_R ||| PTE_X)) < 0 then do
    uvmfree pagetable 0
    pure 0
  else if (← mappages pagetable TRAPFRAME PGSIZE trapframe (PTE_R ||| PTE_W)) < 0 then do
    uvmunmap pagetable TRAMPOLINE 1 false
    uvmfree pagetable 0
    pure 0
  else pure pagetable

/-- Grow or shrink user memory by `n` bytes; `sz` is a `uint`. -/
def growproc (p : Nat) (n : Int) : Vcode Int := do
  let m ← mem p
  let sz := m.sz % 4294967296
  if 0 < n then do
    let sz ← uvmalloc m.pagetable sz (toUint (sz + n))
    if sz % 4294967296 = 0 then pure (-1)
    else do
      setMem p { m with sz := sz % 4294967296 }
      pure 0
  else if n < 0 then do
    let sz ← uvmdealloc m.pagetable sz (toUint (sz + n))
    setMem p { m with sz := sz % 4294967296 }
    pure 0
  else do
    setMem p { m with sz := sz }
    pure 0

/-- `sys_sbrk`: the old size, as an `int`. -/
def sysSbrk (p : Nat) (n : Int) : Vcode Int := do
  let m ← mem p
  if (← growproc p n) < 0 then pure (-1) else pure (toInt m.sz)

end Vcode

end Xv6.Vm
