/-
  THE BUFFER CACHE (`kernel/bio.c`).

  `NBUF` buffers, kept in a list ordered by how recently each was released.  A buffer is named by
  its position in `bcache.buf`; `lru` is the order of the doubly linked list from `head.next` (most
  recent) to `head.prev` (least recent).  Each function that runs under `bcache.lock` is ONE pure
  function on the cache (`bgetRef`, `bput`, `bpin`, `bunpin`), so that the sequential kernel below
  and the interleaved one of `Xv6.Conc` run the same text.

  `Mach` is the machine the file system sits on when one process runs a system call to its end: the
  disk, the cache, the log and the two fault hooks.  `writes` is a ghost field that nothing reads:
  the block writes issued to the device so far, oldest first — a crash is a prefix of it.
-/
import Xv6.Params

namespace Xv6

open Function

/-! ## `struct buf` and the cache -/

/-- `struct buf`.  `lock` is the sleep lock: the pid of its holder, if any.  (`disk`, the flag of
    the virtio driver, is not read here.) -/
structure Buf where
  valid : Bool
  dev : Nat
  blockno : Nat
  lock : Option Nat
  refcnt : Nat
  data : Block

/-- `bcache`: the buffers and the list order. -/
structure Bcache where
  buf : Nat → Buf
  lru : List Nat

/-- A buffer of zeroed static memory. -/
def Buf.zero : Buf := ⟨false, 0, 0, none, 0, fun _ => 0⟩

/-- `binit`: every buffer is pushed at the front, the first one first. -/
def binit : Bcache := ⟨fun _ => Buf.zero, (List.range NBUF).reverse⟩

namespace Bcache

variable (bc : Bcache)

/-- Change one buffer. -/
def upd (i : Nat) (f : Buf → Buf) : Bcache :=
  { bc with buf := update bc.buf i (f (bc.buf i)) }

/-- `bget`'s first loop: is the block already cached? -/
def lookup (dev blockno : Nat) : Option Nat :=
  bc.lru.find? fun i => (bc.buf i).dev == dev && (bc.buf i).blockno == blockno

/-- `bget`'s second loop: the least recently used buffer nobody refers to. -/
def victim : Option Nat := bc.lru.reverse.find? fun i => (bc.buf i).refcnt == 0

/-- `bget` up to its `release(&bcache.lock)`; `none` is `panic("bget: no buffers")`. -/
def bgetRef (dev blockno : Nat) : Option (Nat × Bcache) :=
  match bc.lookup dev blockno with
  | some i => some (i, bc.upd i fun b => { b with refcnt := inc32 b.refcnt })
  | none =>
    match bc.victim with
    | some i => some (i, bc.upd i fun b =>
        { b with dev := dev, blockno := blockno, valid := false, refcnt := 1 })
    | none => none

/-- `brelse` after its `releasesleep`: drop the reference, and move a buffer nobody waits for to the
    front of the list. -/
def bput (i : Nat) : Bcache :=
  let bc' := bc.upd i fun b => { b with refcnt := dec32 b.refcnt }
  if (bc'.buf i).refcnt = 0 then { bc' with lru := i :: bc.lru.erase i } else bc'

def bpin (i : Nat) : Bcache := bc.upd i fun b => { b with refcnt := inc32 b.refcnt }

def bunpin (i : Nat) : Bcache := bc.upd i fun b => { b with refcnt := dec32 b.refcnt }

@[simp] theorem upd_self (i : Nat) (f : Buf → Buf) : (bc.upd i f).buf i = f (bc.buf i) :=
  update_self ..

theorem upd_ne {i j : Nat} (f : Buf → Buf) (h : j ≠ i) : (bc.upd i f).buf j = bc.buf j :=
  update_of_ne h ..

end Bcache

/-! ## The sequential machine -/

/-- How a kernel run ends other than by returning: a panic, a sleep that no other process is there
    to end, or behaviour C leaves undefined. -/
inductive Err
  | panic (msg : String)
  | blocked
  | undef
deriving DecidableEq, Repr

/-- `struct log` with its in-memory header: `lh` is `lh.block[0 .. lh.n)`. -/
structure Log where
  start : Nat
  size : Nat
  outstanding : Int
  committing : Bool
  lh : List Nat

/-- One process's view of the machine under the file system; `me` is `myproc()->pid`. -/
structure Mach where
  me : Nat
  disk : Nat → Block
  writes : List (Nat × Block)
  bc : Bcache
  log : Log
  forceReadErrorPbn : Int
  forceDiskFailId : Int

namespace Mach

variable (s : Mach)

/-- Buffer `i`. -/
abbrev buf (i : Nat) : Buf := s.bc.buf i

/-- Change buffer `i`. -/
def updBuf (i : Nat) (f : Buf → Buf) : Mach := { s with bc := s.bc.upd i f }

/-- `acquiresleep`, run by the only process there is: a held lock is never released. -/
def acquiresleep (i : Nat) : Except Err Mach :=
  if (s.buf i).lock = none then .ok (s.updBuf i fun b => { b with lock := some s.me })
  else .error .blocked

/-- `holdingsleep`. -/
def holding (i : Nat) : Bool := (s.buf i).lock == some s.me

def bget (dev blockno : Nat) : Except Err (Nat × Mach) :=
  match s.bc.bgetRef dev blockno with
  | none => .error (.panic "bget: no buffers")
  | some (i, bc) => do
    let s ← acquiresleep { s with bc := bc } i
    pure (i, s)

/-- Does `bread` treat a cached copy of `blockno` as missing (the fault hooks)? -/
def forced (blockno : Nat) : Bool :=
  ((blockno : Int) == s.forceReadErrorPbn && s.forceReadErrorPbn != -1) || s.forceDiskFailId != -1

/-- `virtio_disk_rw(b, 0)`. -/
def diskRead (i : Nat) : Mach := s.updBuf i fun b => { b with data := s.disk b.blockno }

/-- `virtio_disk_rw(b, 1)`. -/
def diskWrite (i : Nat) : Mach :=
  { s with
    disk := update s.disk (s.buf i).blockno (s.buf i).data
    writes := s.writes ++ [((s.buf i).blockno, (s.buf i).data)] }

def bread (dev blockno : Nat) : Except Err (Nat × Mach) := do
  let (i, s) ← s.bget dev blockno
  if !(s.buf i).valid || s.forced (s.buf i).blockno then
    let s := s.diskRead i
    pure (i, s.updBuf i fun b => { b with valid := true })
  else
    pure (i, s)

def bwrite (i : Nat) : Except Err Mach :=
  if s.holding i then .ok (s.diskWrite i) else .error (.panic "bwrite")

/-- `releasesleep`, then the rest of `brelse`. -/
def drop (i : Nat) : Mach :=
  { s with bc := (s.bc.upd i fun b => { b with lock := none }).bput i }

def brelse (i : Nat) : Except Err Mach :=
  if s.holding i then .ok (s.drop i) else .error (.panic "brelse")

def bpin (i : Nat) : Mach := { s with bc := s.bc.bpin i }

def bunpin (i : Nat) : Mach := { s with bc := s.bc.bunpin i }

/-- Overwrite `b->data`. -/
def setData (i : Nat) (d : Block) : Mach := s.updBuf i fun b => { b with data := d }

end Mach

end Xv6
