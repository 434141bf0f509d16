/-
  PHYSICAL PAGES AND PAGE TABLES (`kernel/kalloc.c`, `kernel/vm.c`).

  Memory is 4096-byte pages of 512 words, named by their address; a page-table page is such a page with
  a PTE in every word.  The code is a program over `Vcall`, what it does to memory and to the tables of
  the kernel; `Machine.serve` runs the calls.

  The `next` pointers that make up `kmem.freelist` are kept in the free pages themselves, so the list is
  a list only as long as no free page is freed again: `kfree` of a page on the list is undefined.
  `deny` says, call by call, whether `kalloc` is to return 0 although there may be a page.

  Where bytes are copied, a page is its words seen as bytes, and a copy into it is a `Words.poke`.
  Buffers of the kernel are values and not pages: `copyin` and `copyinstr` give back what the buffer
  holds afterwards.
-/
import Xv6.Lib.Words
import Xv6.Fs.Sysfile

namespace Xv6.Vm

open Function Bytes Words

/-! ## `riscv.h`, `memlayout.h` -/

/-- Valid. -/
def PTE_V : Nat := 1
def PTE_R : Nat := 2
def PTE_W : Nat := 4
def PTE_X : Nat := 8
/-- User can access. -/
def PTE_U : Nat := 16

/-- Shift a physical address to the right place for a PTE. -/
def PA2PTE (pa : Nat) : Nat := (pa >>> 12) <<< 10
def PTE2PA (pte : Nat) : Nat := (pte >>> 10) <<< 12
def PTE_FLAGS (pte : Nat) : Nat := pte &&& 0x3FF

/-- One of the three 9-bit page table indices of a virtual address. -/
def PX (level va : Nat) : Nat := (va >>> (12 + 9 * level)) &&& 0x1FF

/-- `1 << (9 + 9 + 9 + 12 - 1)`. -/
def MAXVA : Nat := 274877906944

def KERNBASE : Nat := 0x80000000
def PHYSTOP : Nat := 0x88000000

/-- The highest page of user and kernel space. -/
def TRAMPOLINE : Nat := MAXVA - PGSIZE
def TRAPFRAME : Nat := TRAMPOLINE - PGSIZE

/-- Addresses and sizes are `uint64`. -/
def wrap (n : Nat) : Nat := n % 18446744073709551616

def PGROUNDUP (sz : Nat) : Nat := wrap (sz + (PGSIZE - 1)) / PGSIZE * PGSIZE
def PGROUNDDOWN (a : Nat) : Nat := a / PGSIZE * PGSIZE

/-- A number stored in an `int` and taken as a `uint64` again. -/
def viaInt (n : Nat) : Nat :=
  if n % 4294967296 < 2147483648 then n % 4294967296
  else 18446744069414584320 + n % 4294967296

/-- What the linker decides: `end`, the first address after the kernel, and where the trampoline is. -/
structure Layout where
  kend : Nat
  trampoline : Nat
  base : KERNBASE ≤ kend

/-- The pages that `kinit` hands to the allocator. -/
def Layout.Page (L : Layout) (a : Nat) : Prop := a % PGSIZE = 0 ∧ L.kend ≤ a ∧ a + PGSIZE ≤ PHYSTOP

instance (L : Layout) (a : Nat) : Decidable (L.Page a) := inferInstanceAs (Decidable (_ ∧ _ ∧ _))

/-! ## The state -/

/-- The memory of a process: `p->pagetable`, `p->sz` and `p->trapframe`, and the string in `p->name`. -/
structure ProcMem where
  pagetable : Nat
  sz : Nat
  trapframe : Nat
  name : List UInt8
deriving DecidableEq, Repr

/-- No memory. -/
def ProcMem.zero : ProcMem := ⟨0, 0, 0, []⟩

/-- The free list, the words of the pages, and what each process has. -/
structure St where
  freelist : List Nat
  word : Nat → Nat → Nat
  mem : Nat → ProcMem

/-- The state, and what the coming calls of `kalloc` find: nothing, where `deny` says so. -/
structure Machine where
  st : St
  deny : List Bool

namespace St

variable (s : St)

/-- `memset(pa, c, PGSIZE)`, with the word that the byte makes. -/
def fill (pa w : Nat) : St := { s with word := update s.word pa fun _ => w }

/-- Change the words of a page. -/
def patch (pa : Nat) (f : (Nat → Nat) → Nat → Nat) : St :=
  { s with word := update s.word pa (f (s.word pa)) }

/-- `pagetable[i] = w`. -/
def store (pt i w : Nat) : St :=
  { s with word := update s.word pt (update (s.word pt) i w) }

/-- `kalloc`'s success: the page leaves the list, filled with junk. -/
def take (pa : Nat) (rest : List Nat) : St := { s with freelist := rest }.fill pa 0x0505050505050505

/-- `kfree`, after its check. -/
def give (pa : Nat) : St := { s with freelist := pa :: s.freelist }.fill pa 0x0101010101010101

def setMem (p : Nat) (m : ProcMem) : St := { s with mem := update s.mem p m }

@[simp] theorem setMem_self (p : Nat) (m : ProcMem) : (s.setMem p m).mem p = m := update_self ..

end St

/-! ## The calls -/

/-- What the code does to the machine. -/
inductive Vcall
  | kalloc
  | kfree (pa : Nat)
  | load (pt i : Nat)
  | store (pt i w : Nat)
  | memset (pa w : Nat)
  | patch (pa : Nat) (f : (Nat → Nat) → Nat → Nat)
  | bytes (pa : Nat)
  | mem (p : Nat)
  | setMem (p : Nat) (m : ProcMem)
  | fail (e : Err)

def Vcall.Res : Vcall → Type
  | kalloc | load .. => Nat
  | bytes _ => Bytes
  | mem _ => ProcMem
  | fail _ => Empty
  | _ => Unit

/-- The interface the memory code is written against. -/
def Calls : Prog.Iface := ⟨Vcall, Vcall.Res⟩

/-- `kfree`'s check. -/
def Layout.Freeable (L : Layout) (pa : Nat) : Prop := ¬(pa % PGSIZE ≠ 0 ∨ pa < L.kend ∨ PHYSTOP ≤ pa)

instance (L : Layout) (a : Nat) : Decidable (L.Freeable a) := inferInstanceAs (Decidable (¬_))

namespace Machine

/-- A call that changes the state and returns nothing. -/
def upd (m : Machine) (s : St) : Except Err (Unit × Machine) := .ok ((), { m with st := s })

/-- The coming `k` calls of `kalloc` all find a page. -/
def Supplies (m : Machine) (k : Nat) : Prop := k ≤ m.st.freelist.length ∧ true ∉ m.deny.take k

/-- The machine serves the calls. -/
def serve (L : Layout) : (o : Vcall) → Machine → Except Err (o.Res × Machine)
  | .kalloc, m =>
    match m.deny, m.st.freelist with
    | true :: deny, _ => .ok ((0 : Nat), { m with deny := deny })
    | deny, [] => .ok ((0 : Nat), { m with deny := deny.tail })
    | deny, pa :: rest => .ok (pa, ⟨m.st.take pa rest, deny.tail⟩)
  | .kfree pa, m =>
    if ¬L.Freeable pa then .error (.panic "kfree")
    else if pa ∈ m.st.freelist then .error .undef
    else m.upd (m.st.give pa)
  | .load pt i, m => .ok (m.st.word pt i, m)
  | .store pt i w, m => m.upd (m.st.store pt i w)
  | .memset pa w, m => m.upd (m.st.fill pa w)
  | .patch pa f, m => m.upd (m.st.patch pa f)
  | .bytes pa, m => .ok (Words.bytes (m.st.word pa), m)
  | .mem p, m => .ok (m.st.mem p, m)
  | .setMem p x, m => m.upd (m.st.setMem p x)
  | .fail e, _ => .error e

end Machine

/-- Code of `vm.c` and above. -/
abbrev Vcode (α : Type) := Prog Calls α

namespace Vcode

def kalloc : Vcode Nat := Prog.op (I := Calls) .kalloc
def kfree (pa : Nat) : Vcode Unit := Prog.op (I := Calls) (.kfree pa)
def load (pt i : Nat) : Vcode Nat := Prog.op (I := Calls) (.load pt i)
def store (pt i w : Nat) : Vcode Unit := Prog.op (I := Calls) (.store pt i w)
def memset (pa w : Nat) : Vcode Unit := Prog.op (I := Calls) (.memset pa w)
def patch (pa : Nat) (f : (Nat → Nat) → Nat → Nat) : Vcode Unit := Prog.op (I := Calls) (.patch pa f)
def bytes (pa : Nat) : Vcode Bytes := Prog.op (I := Calls) (.bytes pa)
def mem (p : Nat) : Vcode ProcMem := Prog.op (I := Calls) (.mem p)
def setMem (p : Nat) (m : ProcMem) : Vcode Unit := Prog.op (I := Calls) (.setMem p m)
def panic {α : Type} (msg : String) : Vcode α := Prog.call (I := Calls) (.fail (.panic msg)) Empty.elim
def undef {α : Type} : Vcode α := Prog.call (I := Calls) (.fail .undef) Empty.elim

/-! ## `vm.c` -/

/-- The loop of `walk`, from the page `pagetable` of level `level` down. -/
def walkFrom (va : Nat) (alloc : Bool) : Nat → Nat → Vcode (Option (Nat × Nat))
  | 0, pagetable => pure (some (pagetable, PX 0 va))
  | level + 1, pagetable => do
    let pte ← load pagetable (PX (level + 1) va)
    if pte &&& PTE_V ≠ 0 then walkFrom va alloc level (PTE2PA pte)
    else if !alloc then pure none
    else do
      let pg ← kalloc
      if pg = 0 then pure none
      else do
        memset pg 0
        store pagetable (PX (level + 1) va) (PA2PTE pg ||| PTE_V)
        walkFrom va alloc level pg

/-- The page and the index of the PTE for `va`. -/
def walk (pagetable va : Nat) (alloc : Bool) : Vcode (Option (Nat × Nat)) :=
  if MAXVA ≤ va then panic "walk" else walkFrom va alloc 2 pagetable

/-- Look up a virtual address, return the physical address, or 0 if not mapped. -/
def walkaddr (pagetable va : Nat) : Vcode Nat :=
  if MAXVA ≤ va then pure 0
  else do
    match ← walk pagetable va false with
    | none => pure 0
    | some (pg, i) => do
      let pte ← load pg i
      if pte &&& PTE_V = 0 then pure 0
      else if pte &&& PTE_U = 0 then pure 0
      else pure (PTE2PA pte)

/-- The loop of `mappages`, for at most `n` pages. -/
def mapLoop (pagetable last perm : Nat) : Nat → Nat → Nat → Vcode Int
  | 0, _, _ => undef
  | n + 1, a, pa => do
    match ← walk pagetable a true with
    | none => pure (-1)
    | some (pg, i) => do
      let pte ← load pg i
      if pte &&& PTE_V ≠ 0 then panic "remap"
      else do
        store pg i (PA2PTE pa ||| perm ||| PTE_V)
        if a = last then pure 0 else mapLoop pagetable last perm n (a + PGSIZE) (pa + PGSIZE)

/-- Create PTEs for virtual addresses starting at `va` that refer to physical addresses starting
    at `pa`. -/
def mappages (pagetable va size pa perm : Nat) : Vcode Int :=
  let a := PGROUNDDOWN va
  let last := PGROUNDDOWN (va + size - 1)
  mapLoop pagetable last perm ((last - a) / PGSIZE + 1) a pa

/-- The loop of `uvmunmap`, for `n` more pages. -/
def unmapLoop (pagetable : Nat) (doFree : Bool) : Nat → Nat → Vcode Unit
  | 0, _ => pure ()
  | n + 1, a => do
    match ← walk pagetable a false with
    | none => panic "uvmunmap: walk"
    | some (pg, i) => do
      let pte ← load pg i
      if pte &&& PTE_V = 0 then panic "uvmunmap: not mapped"
      else if PTE_FLAGS pte = PTE_V then panic "uvmunmap: not a leaf"
      else do
        if doFree then kfree (PTE2PA pte)
        store pg i 0
        unmapLoop pagetable doFree n (a + PGSIZE)

/-- Remove `npages` of mappings starting from `va`, which must exist; optionally free the physical
    memory. -/
def uvmunmap (pagetable va npages : Nat) (doFree : Bool) : Vcode Unit :=
  if va % PGSIZE ≠ 0 then panic "uvmunmap: not aligned"
  else unmapLoop pagetable doFree npages va

/-- Create an empty user page table; 0 if out of memory. -/
def uvmcreate : Vcode Nat := do
  let pagetable ← kalloc
  if pagetable = 0 then pure 0
  else do
    memset pagetable 0
    pure pagetable

/-- Deallocate user pages to bring the process size from `oldsz` to `newsz`. -/
def uvmdealloc (pagetable oldsz newsz : Nat) : Vcode Nat :=
  if oldsz ≤ newsz then pure oldsz
  else do
    if PGROUNDUP newsz < PGROUNDUP oldsz then
      uvmunmap pagetable (PGROUNDUP newsz) (viaInt ((PGROUNDUP oldsz - PGROUNDUP newsz) / PGSIZE)) true
    pure newsz

/-- The loop of `uvmalloc`. -/
def allocLoop (pagetable oldsz newsz : Nat) : Nat → Nat → Vcode Nat
  | 0, _ => undef
  | n + 1, a =>
    if newsz ≤ a then pure newsz
    else do
      let pg ← kalloc
      if pg = 0 then do
        let _ ← uvmdealloc pagetable a oldsz
        pure 0
      else do
        memset pg 0
        if (← mappages pagetable a PGSIZE pg (PTE_W ||| PTE_X ||| PTE_R ||| PTE_U)) ≠ 0 then do
          kfree pg
          let _ ← uvmdealloc pagetable a oldsz
          pure 0
        else allocLoop pagetable oldsz newsz n (a + PGSIZE)

/-- Allocate PTEs and physical memory to grow process from `oldsz` to `newsz`: the new size, or 0 on
    error. -/
def uvmalloc (pagetable oldsz newsz : Nat) : Vcode Nat :=
  if newsz < oldsz then pure oldsz
  else
    let oldsz := PGROUNDUP oldsz
    allocLoop pagetable oldsz newsz (newsz / PGSIZE + 2) oldsz

/-- The loop of `freewalk`, over the `n` entries from `i` on. -/
def freeLoop (freewalk : Nat → Vcode Unit) (pagetable : Nat) : Nat → Nat → Vcode Unit
  | 0, _ => pure ()
  | n + 1, i => do
    let pte ← load pagetable i
    if pte &&& PTE_V ≠ 0 ∧ pte &&& (PTE_R ||| PTE_W ||| PTE_X) = 0 then do
      freewalk (PTE2PA pte)
      store pagetable i 0
      freeLoop freewalk pagetable n (i + 1)
    else if pte &&& PTE_V ≠ 0 then panic "freewalk: leaf"
    else freeLoop freewalk pagetable n (i + 1)

/-- Recursively free page-table pages, at most `n` levels of them. -/
def freewalk : Nat → Nat → Vcode Unit
  | 0, _ => undef
  | n + 1, pagetable => do
    freeLoop (freewalk n) pagetable 512 0
    kfree pagetable

/-- Free user memory pages, then free page-table pages. -/
def uvmfree (pagetable sz : Nat) : Vcode Unit := do
  if 0 < sz then uvmunmap pagetable 0 (PGROUNDUP sz / PGSIZE) true
  freewalk 3 pagetable

/-! A round of the copying functions goes up to the end of a page, and copies at least one byte: there
    are no more rounds than bytes. -/

/-- The loop of `copyout`, with `done` bytes copied and `len` to go. -/
def copyoutFrom (pagetable : Nat) (src : Bytes) : Nat → Nat → Nat → Nat → Vcode Int
  | 0, _, _, _ => pure 0
  | fuel + 1, dstva, done, len =>
    if len = 0 then pure 0
    else do
      let va0 := PGROUNDDOWN dstva
      let pa0 ← walkaddr pagetable va0
      if pa0 = 0 then pure (-1)
      else do
        let n := min (PGSIZE - (dstva - va0)) len
        patch pa0 (poke (dstva - va0) n fun i => src (done + i))
        copyoutFrom pagetable src fuel (wrap (va0 + PGSIZE)) (done + n) (len - n)

/-- Copy `len` bytes from `src` to virtual address `dstva`. -/
def copyout (pagetable dstva : Nat) (src : Bytes) (len : Nat) : Vcode Int :=
  copyoutFrom pagetable src len dstva 0 len

/-- The loop of `copyin`. -/
def copyinFrom (pagetable : Nat) : Nat → Bytes → Nat → Nat → Nat → Vcode (Bytes × Int)
  | 0, dst, _, _, _ => pure (dst, 0)
  | fuel + 1, dst, done, srcva, len =>
    if len = 0 then pure (dst, 0)
    else do
      let va0 := PGROUNDDOWN srcva
      let pa0 ← walkaddr pagetable va0
      if pa0 = 0 then pure (dst, -1)
      else do
        let n := min (PGSIZE - (srcva - va0)) len
        let pg ← bytes pa0
        copyinFrom pagetable fuel (blit dst done n fun i => pg (srcva - va0 + i)) (done + n)
          (wrap (va0 + PGSIZE)) (len - n)

/-- Copy `len` bytes to `dst` from virtual address `srcva`. -/
def copyin (pagetable : Nat) (dst : Bytes) (srcva len : Nat) : Vcode (Bytes × Int) :=
  copyinFrom pagetable len dst 0 srcva len

/-- The inner loop of `copyinstr`: `n` bytes from `p` on, to `done`; whether one was a NUL. -/
def copyChars (pg : Bytes) : Nat → Bytes → Nat → Nat → Bytes × Bool
  | 0, dst, _, _ => (dst, false)
  | n + 1, dst, done, p =>
    if pg p = 0 then (update dst done 0, true)
    else copyChars pg n (update dst done (pg p)) (done + 1) (p + 1)

/-- The loop of `copyinstr`. -/
def copyinstrFrom (pagetable : Nat) : Nat → Bytes → Nat → Nat → Nat → Vcode (Bytes × Int)
  | 0, dst, _, _, _ => pure (dst, -1)
  | fuel + 1, dst, done, srcva, max =>
    if max = 0 then pure (dst, -1)
    else do
      let va0 := PGROUNDDOWN srcva
      let pa0 ← walkaddr pagetable va0
      if pa0 = 0 then pure (dst, -1)
      else do
        let n := min (PGSIZE - (srcva - va0)) max
        let pg ← bytes pa0
        let r := copyChars pg n dst done (srcva - va0)
        if r.2 then pure (r.1, 0)
        else copyinstrFrom pagetable fuel r.1 (done + n) (wrap (va0 + PGSIZE)) (max - n)

/-- Copy bytes to `dst` from virtual address `srcva`, until a NUL, or `max`. -/
def copyinstr (pagetable : Nat) (dst : Bytes) (srcva max : Nat) : Vcode (Bytes × Int) :=
  copyinstrFrom pagetable max dst 0 srcva max

end Vcode

end Xv6.Vm
