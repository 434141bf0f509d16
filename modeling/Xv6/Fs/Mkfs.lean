/-
  `mkfs` (`mkfs/mkfs.c`): the program that writes the first image.

  It runs on the host, on a file of `FSSIZE` sectors, and keeps two counters: the next inode and the
  next block to hand out.  A failed `assert` and a read past the end of the file end it (`none`).

  An input file is its name on the command line and the pieces in which the host's `read` delivers
  it, up to `BSIZE` bytes each.
-/
import Xv6.Fs.Image
import Xv6.Fs.Refs

namespace Xv6

open Function Bytes

def FSMAGIC : Nat := 270544960

/-- `struct superblock` as bytes: `magic`, `size`, `nblocks`, `ninodes`, `nlog`, `logstart`,
    `inodestart`, `bmapstart`. -/
def Superblock.bytes (sb : Superblock) (nblocks : Nat) : Bytes :=
  let fields := [FSMAGIC, sb.size, nblocks, sb.ninodes, sb.nlog, sb.logstart, sb.inodestart,
    sb.bmapstart]
  fun i => if i < 32 then UInt8.ofNat (fields.getD (i / 4) 0 / 256 ^ (i % 4)) else 0

/-- The image under construction, `freeinode` and `freeblock`. -/
structure Mkfs where
  img : Nat → Block
  freeinode : Nat
  freeblock : Nat

namespace Mkfs

variable (st : Mkfs)

def rsect (sec : Nat) : Option Block := if sec < FSSIZE then some (st.img sec) else none

def wsect (sec : Nat) (buf : Block) : Mkfs := { st with img := update st.img sec buf }

@[simp] theorem wsect_self (sec : Nat) (buf : Block) : (st.wsect sec buf).img sec = buf :=
  update_self ..

theorem wsect_ne {sec c : Nat} (buf : Block) (h : c ≠ sec) : (st.wsect sec buf).img c = st.img c :=
  update_of_ne h ..

def winode (inum : Nat) (x : Dinode) : Option Mkfs := do
  let buf ← st.rsect (mkfsSb.iblock inum)
  pure (st.wsect (mkfsSb.iblock inum) (Dinode.put buf (inum % IPB) x))

def rinode (inum : Nat) : Option Dinode := do
  let buf ← st.rsect (mkfsSb.iblock inum)
  pure (Dinode.get buf (inum % IPB))

/-- A fresh inode of type `type`. -/
def newInode (type : Nat) : Dinode :=
  { Dinode.zero with type := type, nlink := 1, mode := M_READ ||| M_WRITE, perm := M_READ ||| M_WRITE }

def ialloc (type : Nat) : Option (Nat × Mkfs) := do
  let st' ← { st with freeinode := st.freeinode + 1 }.winode st.freeinode (newInode type)
  pure (st.freeinode, st')

/-- `din.addrs[i] = freeblock++`, if there is no address yet. -/
def addrFor (din : Dinode) (i : Nat) : Dinode × Mkfs :=
  if din.addrs i = 0 then
    (din.setAddr i st.freeblock, { st with freeblock := st.freeblock + 1 })
  else (din, st)

/-- The block `x` for block `fbn` of the inode `din`, in the round of `iappend`. -/
def blockFor (din : Dinode) (fbn : Nat) : Option (Nat × Dinode × Mkfs) :=
  if fbn < NDIRECT then
    let r := st.addrFor din fbn
    some (r.1.addrs fbn, r)
  else do
    let (din, st) := st.addrFor din NDIRECT
    let indirect ← st.rsect (din.addrs NDIRECT)
    if le32 indirect (4 * (fbn - NDIRECT)) = 0 then
      pure (st.freeblock, din, { st with freeblock := st.freeblock + 1 }.wsect (din.addrs NDIRECT)
        (put32 indirect (4 * (fbn - NDIRECT)) st.freeblock))
    else pure (le32 indirect (4 * (fbn - NDIRECT)), din, st)

/-- One round of `iappend`: `n1` bytes of `p`, from `pos` on, go to offset `off` of the inode. -/
def appendRound (p : Bytes) (pos n1 off : Nat) (din : Dinode) : Option (Dinode × Mkfs) := do
  let (x, din, st) ← st.blockFor din (off / BSIZE)
  let buf ← st.rsect x
  pure (din, st.wsect x (blit buf (off - off / BSIZE * BSIZE) n1 fun i => p (pos + i)))

/-- `iappend`'s loop; every round takes at least one byte, so `n` of them are enough. -/
def iappendFrom (p : Bytes) : Nat → Nat → Nat → Nat → Dinode → Mkfs → Option (Nat × Dinode × Mkfs)
  | 0, _, _, off, din, st => some (off, din, st)
  | fuel + 1, pos, n, off, din, st =>
    if n = 0 then some (off, din, st)
    else if MAXFILE ≤ off / BSIZE then none
    else do
      let n1 := min n ((off / BSIZE + 1) * BSIZE - off)
      let (din, st) ← st.appendRound p pos n1 off din
      iappendFrom p fuel (pos + n1) (n - n1) (off + n1) din st

def iappend (inum : Nat) (data : List UInt8) : Option Mkfs := do
  let din ← st.rinode inum
  let (off, din, st) ← iappendFrom (ofList data) data.length 0 data.length din.size din st
  st.winode inum { din with size := off }

/-- `balloc`: the bitmap block, with the first `used` bits set. -/
def balloc (used : Nat) : Option Mkfs :=
  if used < BSIZE * 8 then
    some (st.wsect mkfsSb.bmapstart ((List.range used).foldl setBit fun _ => 0))
  else none

end Mkfs

/-- An input file. -/
structure Input where
  arg : List UInt8
  chunks : List (List UInt8)

/-- The name in the root directory: without `user/`, then without one leading `_`. -/
def Input.shortname (f : Input) : Option Name :=
  let s := if f.arg.take 5 = [117, 115, 101, 114, 47] then f.arg.drop 5 else f.arg
  if 47 ∈ s then none else some (if s.head? = some 95 then s.tail else s)

/-- The file's bytes. -/
def Input.bytes (f : Input) : List UInt8 := f.chunks.flatten

namespace Mkfs

variable (st : Mkfs)

/-- A directory entry at the end of the root. -/
def addEntry (inum : Nat) (name : Name) : Option Mkfs :=
  st.iappend ROOTINO (toList (dirent inum name) 0 DIRENT)

/-- `main`'s loop body. -/
def addFile (f : Input) : Option Mkfs := do
  let name ← f.shortname
  let (inum, st) ← st.ialloc T_FILE
  let st ← st.addEntry inum name
  f.chunks.foldlM (fun st c => st.iappend inum c) st

/-- Fix the size of the root directory. -/
def fixRoot : Option Mkfs := do
  let din ← st.rinode ROOTINO
  st.winode ROOTINO { din with size := (din.size / BSIZE + 1) * BSIZE }

/-- All sectors zero but the superblock. -/
def blank : Mkfs where
  img := update (fun _ _ => 0) 1 (mkfsSb.bytes (LOGICAL_DISK_SIZE - mkfsSb.data))
  freeinode := 1
  freeblock := mkfsSb.data

/-- `main`, up to the loop over the files: the root directory with "." and "..". -/
def start : Option Mkfs := do
  let (rootino, st) ← blank.ialloc T_DIR
  if rootino = ROOTINO then do
    let st ← st.addEntry rootino [46]
    st.addEntry rootino [46, 46]
  else none

/-- `main` as a whole. -/
def main (files : List Input) : Option (Nat → Block) := do
  let st ← start
  let st ← files.foldlM addFile st
  let st ← st.fixRoot
  let st ← st.balloc st.freeblock
  pure st.img

end Mkfs

end Xv6
