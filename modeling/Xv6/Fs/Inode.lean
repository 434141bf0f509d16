/-
  THE LOWER HALF OF `kernel/fs.c`: the block allocator, inodes, and their contents.

  An inode is named by its position `k` in `icache.inode`, as `ip` points to it.  A C loop is a
  recursion over the list of indices it visits, or, where an iteration advances by a computed
  amount (`readi`, `writei`), over a bound on the number of iterations: each of those advances by
  at least one byte, so `n` of them are enough.
-/
import Xv6.Fs.Kernel

namespace Xv6

open Bytes

namespace Code

/-- Change the inode cache entry `k`. -/
def modify (k : Nat) (f : Inode → Inode) : Code Unit := do
  let m ← mem
  setMem (m.upd k f)

variable (sb : Superblock)

/-! ## Blocks -/

/-- Zero a block. -/
def bzero (bno : Nat) : Code Unit := do
  bread bno
  store bno fun _ => 0
  logWrite bno
  brelse bno

/-- `balloc`'s scan, over the bitmap blocks still to be looked at. -/
def ballocFrom : List Nat → Code Nat
  | [] => panic "balloc: out of blocks"
  | c :: cs => do
    let b := c * BPB
    bread (sb.bblock b)
    let d ← data (sb.bblock b)
    match (List.range (min BPB (sb.size - b))).find? fun bi => !getBit d bi with
    | some bi =>
      store (sb.bblock b) (setBit d bi)
      logWrite (sb.bblock b)
      brelse (sb.bblock b)
      bzero (b + bi)
      pure (b + bi)
    | none =>
      brelse (sb.bblock b)
      ballocFrom cs

/-- Allocate a zeroed disk block. -/
def balloc : Code Nat := ballocFrom sb (List.range ((sb.size + BPB - 1) / BPB))

/-- Free a disk block. -/
def bfree (b : Nat) : Code Unit := do
  bread (sb.bblock b)
  let d ← data (sb.bblock b)
  if getBit d (b % BPB) then do
    store (sb.bblock b) (clearBit d (b % BPB))
    logWrite (sb.bblock b)
    brelse (sb.bblock b)
  else panic "freeing free block"

/-! ## Inodes -/

/-- Find the inode with number `inum` and return the in-memory copy; neither locks nor reads it. -/
def iget (inum : Nat) : Code Nat := do
  let m ← mem
  match m.iget inum with
  | some (k, m') => do
    setMem m'
    pure k
  | none => panic "iget: no inodes"

def idup (k : Nat) : Code Unit := modify k fun ip => { ip with ref := ip.ref + 1 }

/-- A fresh inode on disk. -/
def newInode (type : Nat) : Dinode :=
  { Dinode.zero with type := type, mode := M_ALL, perm := M_READ ||| M_WRITE }

/-- The loop of `ialloc`. -/
def iallocFrom (type : Nat) : List Nat → Code Nat
  | [] => panic "ialloc: no inodes"
  | inum :: inums => do
    bread (sb.iblock inum)
    let d ← data (sb.iblock inum)
    if (Dinode.get d (inum % IPB)).type = 0 then do
      store (sb.iblock inum) (Dinode.put d (inum % IPB) (newInode type))
      logWrite (sb.iblock inum)
      brelse (sb.iblock inum)
      iget inum
    else do
      brelse (sb.iblock inum)
      iallocFrom type inums

/-- Allocate an inode: mark it allocated by giving it type `type`. -/
def ialloc (type : Nat) : Code Nat := iallocFrom sb type (List.range' 1 (sb.ninodes - 1))

/-- Copy a modified in-memory inode to disk. -/
def iupdate (k : Nat) : Code Unit := do
  let m ← mem
  let ip := m.icache k
  bread (sb.iblock ip.inum)
  let d ← data (sb.iblock ip.inum)
  store (sb.iblock ip.inum) (Dinode.put d (ip.inum % IPB) ip.din)
  logWrite (sb.iblock ip.inum)
  brelse (sb.iblock ip.inum)

/-- Lock the given inode; read it from disk if necessary.  `major` and `minor` stay as they are. -/
def ilock (k : Nat) : Code Unit := do
  let m ← mem
  let ip := m.icache k
  if ip.ref < 1 then panic "ilock"
  else if ip.locked then block
  else do
    setMem (m.upd k fun ip => { ip with locked := true })
    if ip.valid then pure ()
    else do
      bread (sb.iblock ip.inum)
      let d ← data (sb.iblock ip.inum)
      brelse (sb.iblock ip.inum)
      modify k fun ip => { ip with din := Dinode.get d (ip.inum % IPB), valid := true }
      if (Dinode.get d (ip.inum % IPB)).type = 0 then panic "ilock: no type" else pure ()

def iunlock (k : Nat) : Code Unit := do
  let m ← mem
  if !(m.icache k).locked || (m.icache k).ref < 1 then panic "iunlock"
  else setMem (m.upd k fun ip => { ip with locked := false })

/-! ## Inode content -/

/-- `ip->addrs[i] = addr`. -/
def setAddr (k i addr : Nat) : Code Unit :=
  modify k fun ip => { ip with din := { ip.din with addrs := Function.update ip.din.addrs i addr } }

/-- `ip->addrs[i]`, allocated if there is none: the direct blocks, and the indirect block. -/
def bmapAddr (k i : Nat) (msg : String) : Code Nat := do
  let m ← mem
  if (m.icache k).din.addrs i = 0 then do
    let addr ← balloc sb
    if addr = 0 then panic msg
    else do
      setAddr k i addr
      pure addr
  else pure ((m.icache k).din.addrs i)

/-- The disk block address of the `bn`th block of the inode; if there is none, allocate one. -/
def bmap (k bn : Nat) : Code Nat :=
  if bn < NDIRECT then bmapAddr sb k bn "bmap: balloc failed"
  else if bn - NDIRECT < NINDIRECT then do
    let addr ← bmapAddr sb k NDIRECT "bmap: balloc failed for indirect block"
    bread addr
    let a ← data addr
    if le32 a (4 * (bn - NDIRECT)) = 0 then do
      let target ← balloc sb
      if target = 0 then panic "bmap: balloc failed for data block via indirect"
      else do
        store addr (put32 a (4 * (bn - NDIRECT)) target)
        logWrite addr
        brelse addr
        pure target
    else do
      brelse addr
      pure (le32 a (4 * (bn - NDIRECT)))
  else panic "bmap: out of range"

/-- `itrunc`'s loop over the direct blocks. -/
def freeDirect (k : Nat) : List Nat → Code Unit
  | [] => pure ()
  | i :: is => do
    let m ← mem
    if (m.icache k).din.addrs i = 0 then freeDirect k is
    else do
      bfree sb ((m.icache k).din.addrs i)
      setAddr k i 0
      freeDirect k is

/-- `itrunc`'s loop over the entries of the indirect block, whose contents are `a`. -/
def freeEntries (a : Block) : List Nat → Code Unit
  | [] => pure ()
  | j :: js =>
    if le32 a (4 * j) = 0 then freeEntries a js
    else do
      bfree sb (le32 a (4 * j))
      freeEntries a js

/-- `itrunc`'s part for the indirect block. -/
def freeIndirect (k : Nat) : Code Unit := do
  let m ← mem
  let addr := (m.icache k).din.addrs NDIRECT
  if addr = 0 then pure ()
  else do
    bread addr
    let a ← data addr
    freeEntries sb a (List.range NINDIRECT)
    brelse addr
    bfree sb addr
    setAddr k NDIRECT 0

/-- Truncate inode (discard contents). -/
def itrunc (k : Nat) : Code Unit := do
  freeDirect sb k (List.range NDIRECT)
  freeIndirect sb k
  modify k fun ip => { ip with din := { ip.din with size := 0 } }
  iupdate sb k

/-- `iput`'s part for an inode with no links and no other references: truncate and free. -/
def ifree (k : Nat) : Code Unit := do
  modify k fun ip => { ip with locked := true }
  itrunc sb k
  modify k fun ip => { ip with din := { ip.din with type := 0 } }
  iupdate sb k
  modify k fun ip => { ip with valid := false, locked := false }

/-- Drop a reference to an in-memory inode. -/
def iput (k : Nat) : Code Unit := do
  let m ← mem
  let ip := m.icache k
  if ip.ref = 1 ∧ ip.valid = true ∧ ip.din.nlink = 0 then
    if ip.locked then block
    else do
      ifree sb k
      modify k fun ip => { ip with ref := ip.ref - 1 }
  else modify k fun ip => { ip with ref := ip.ref - 1 }

/-- `readi`'s loop; `out` is what has been delivered so far. -/
def readLoop (k : Nat) (dst : Dst) (n : Nat) : Nat → Nat → Nat → Bytes → Code (Nat × Bytes)
  | 0, tot, _, out => pure (tot, out)
  | fuel + 1, tot, off, out =>
    if tot < n then do
      let b ← bmap sb k (off / BSIZE)
      bread b
      let m := min (n - tot) (BSIZE - off % BSIZE)
      let d ← data b
      if dst.copy tot m then do
        brelse b
        readLoop k dst n fuel (tot + m) (off + m) (blit out tot m fun i => d (off % BSIZE + i))
      else do
        brelse b
        pure (tot, out)
    else pure (tot, out)

/-- Read data from inode: the number of bytes and the bytes. -/
def readi (k : Nat) (dst : Dst) (off n : Nat) : Code (Nat × Bytes) := do
  let m ← mem
  let size := (m.icache k).din.size
  if size < off ∨ (off + n) % 4294967296 < off then pure (0, fun _ => 0)
  else
    let n := if size < off + n then size - off else n
    readLoop sb k dst n n 0 off fun _ => 0

/-- `writei`'s loop; returns the offset it got to. -/
def writeLoop (k : Nat) (src : Src) (n : Nat) : Nat → Nat → Nat → Code Nat
  | 0, _, off => pure off
  | fuel + 1, tot, off =>
    if tot < n then do
      let b ← bmap sb k (off / BSIZE)
      bread b
      let m := min (n - tot) (BSIZE - off % BSIZE)
      let d ← data b
      let r ← copyin src tot d (off % BSIZE) m
      store b r.1
      if r.2 then do
        logWrite b
        brelse b
        writeLoop k src n fuel (tot + m) (off + m)
      else do
        brelse b
        pure off
    else pure off

/-- `ip->size = off`, if that is larger. -/
def growSize (k off : Nat) : Code Unit :=
  modify k fun ip => { ip with din := { ip.din with size := max ip.din.size off } }

/-- Write data to inode.  Returns `n` also when the copy stopped early. -/
def writei (k : Nat) (src : Src) (off n : Nat) : Code Int := do
  let m ← mem
  if (m.icache k).din.size < off ∨ (off + n) % 4294967296 < off then pure (-1)
  else if MAXFILE * BSIZE < off + n then pure (-1)
  else do
    let off' ← writeLoop sb k src n n 0 off
    if 0 < n then do
      growSize k off'
      iupdate sb k
      pure n
    else pure n

end Code

end Xv6
