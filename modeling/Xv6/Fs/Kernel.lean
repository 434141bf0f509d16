/-
  THE FILE SYSTEM'S STATE (`kernel/fs.h`, `kernel/file.h`) AND WHAT ITS CODE CALLS.

  The file-system code is written as programs over `Bcall`, the calls it makes: to the buffer cache
  and the log, to the memory it shares between system calls (`Mem`: the inode cache, the file table
  and the process table), and to `panic`.  `Kern.serve` runs the calls on the machine of `Xv6.Bio`
  and `Xv6.Log`.

  A buffer that is held is named by its block number: at most one buffer caches a block, and a held
  one is not recycled, so `bp` and `bp->blockno` determine each other.

  System calls run one at a time, each to its end, so a sleep lock that is held is held by the
  caller, and one bit says it.  There is one device, and `iget` is never given another: `dev` is
  left out.  The `short` fields of an inode are their 16 bits, a natural number below `2 ^ 16`.
-/
import Xv6.Log
import Xv6.Lib.Prog

namespace Xv6

open Function Bytes

/-! ## The disk layout -/

/-- `struct superblock`, the fields the kernel reads. -/
structure Superblock where
  size : Nat
  ninodes : Nat
  nlog : Nat
  logstart : Nat
  inodestart : Nat
  bmapstart : Nat

namespace Superblock

variable (sb : Superblock)

/-- Block containing inode `i`. -/
def iblock (i : Nat) : Nat := i / IPB + sb.inodestart

/-- Block of free map containing bit for block `b`. -/
def bblock (b : Nat) : Nat := b / BPB + sb.bmapstart

end Superblock

/-- `struct dinode`: size, `addrs[NDIRECT + 1]`, then four `short`s, 64 bytes in all. -/
structure Dinode where
  type : Nat
  nlink : Nat
  size : Nat
  addrs : Nat → Nat
  mode : Nat
  perm : Nat

namespace Dinode

/-- All zero: `memset(dip, 0, sizeof(*dip))`. -/
def zero : Dinode := ⟨0, 0, 0, fun _ => 0, 0, 0⟩

/-- The inode in slot `k` of an inode block. -/
def get (d : Block) (k : Nat) : Dinode where
  size := le32 d (64 * k)
  addrs j := if j ≤ NDIRECT then le32 d (64 * k + 4 + 4 * j) else 0
  type := le16 d (64 * k + 56)
  nlink := le16 d (64 * k + 58)
  mode := le16 d (64 * k + 60)
  perm := le16 d (64 * k + 62)

/-- The 64 bytes of an inode. -/
def bytes (x : Dinode) : Bytes := fun i =>
  if i < 4 then UInt8.ofNat (x.size / 256 ^ i)
  else if i < 56 then UInt8.ofNat (x.addrs ((i - 4) / 4) / 256 ^ ((i - 4) % 4))
  else if i < 58 then UInt8.ofNat (x.type / 256 ^ (i - 56))
  else if i < 60 then UInt8.ofNat (x.nlink / 256 ^ (i - 58))
  else if i < 62 then UInt8.ofNat (x.mode / 256 ^ (i - 60))
  else UInt8.ofNat (x.perm / 256 ^ (i - 62))

/-- Store an inode in slot `k` of an inode block. -/
def put (d : Block) (k : Nat) (x : Dinode) : Block := blit d (64 * k) 64 x.bytes

end Dinode

/-! ## Kernel memory -/

/-- `struct inode`.  `din` is the copy of the disk inode: `type`, `nlink`, `size`, `addrs`, `mode`
    and `perm`; `major` and `minor` have no place in `struct dinode`. -/
structure Inode where
  inum : Nat
  ref : Int
  locked : Bool
  valid : Bool
  major : Nat
  minor : Nat
  din : Dinode

/-- `struct file`'s `type`. -/
inductive FdType
  | none
  | pipe
  | inode
  | device
deriving DecidableEq, Repr

/-- `struct file`.  `pipe` is a position in `Tabs.pipe` and `ip` one in `icache.inode`; a slot whose
    `ip` was never set has the null pointer there. -/
structure File where
  type : FdType
  ref : Int
  readable : Bool
  writable : Bool
  pipe : Nat
  ip : Option Nat
  off : Nat
  major : Nat

/-- `struct pipe`; the page is free when both ends are closed. -/
structure Pipe where
  data : Bytes
  nread : Nat
  nwrite : Nat
  readopen : Bool
  writeopen : Bool

inductive ProcState
  | unused
  | running
  | zombie
deriving DecidableEq, Repr

/-- The part of `struct proc` the file system reads: a descriptor is a position in `ftable.file`,
    the current directory one in `icache.inode`. -/
structure Proc where
  state : ProcState
  parent : Option Nat
  ofile : Nat → Option Nat
  cwd : Option Nat

/-- `ftable`, `proc`, and the pages that hold pipes. -/
structure Tabs where
  file : Nat → File
  proc : Nat → Proc
  pipe : Nat → Pipe

/-- What the file system keeps in memory between system calls. -/
structure Mem where
  icache : Nat → Inode
  tabs : Tabs

namespace Mem

variable (m : Mem)

/-- Change one entry of the inode cache. -/
def upd (k : Nat) (f : Inode → Inode) : Mem :=
  { m with icache := update m.icache k (f (m.icache k)) }

@[simp] theorem upd_self (k : Nat) (f : Inode → Inode) :
    (m.upd k f).icache k = f (m.icache k) := update_self ..

theorem upd_ne {k j : Nat} (f : Inode → Inode) (h : j ≠ k) :
    (m.upd k f).icache j = m.icache j := update_of_ne h ..

/-- `iget`'s loop: an entry in use for `inum`, or else the first one nobody refers to. -/
def iget (inum : Nat) : Option (Nat × Mem) :=
  match (List.range NINODE).find? fun k => (m.icache k).ref > 0 && (m.icache k).inum == inum with
  | some k => some (k, m.upd k fun ip => { ip with ref := ip.ref + 1 })
  | none =>
    match (List.range NINODE).find? fun k => (m.icache k).ref == 0 with
    | some k => some (k, m.upd k fun ip => { ip with inum := inum, ref := 1, valid := false })
    | none => none

end Mem

/-! ## User memory -/

/-- The caller's pages, by page number; none at or above `MAXVA`. -/
structure UserMem where
  page : Nat → Option Bytes
  bound : ∀ p, 67108864 ≤ p → page p = none

namespace UserMem

variable (um : UserMem)

/-- `copyin`, into `dst` at `off`: what was copied before a page turned out to be missing stays
    copied.  Each round copies at least one byte, so `len` rounds are enough. -/
def copyinFrom : Nat → Bytes → Nat → Nat → Nat → Bytes × Bool
  | 0, dst, _, _, _ => (dst, true)
  | fuel + 1, dst, off, src, len =>
    if len = 0 then (dst, true)
    else
      match um.page (src / PGSIZE) with
      | none => (dst, false)
      | some pg =>
        let n := min (PGSIZE - src % PGSIZE) len
        copyinFrom fuel (blit dst off n fun i => pg (src % PGSIZE + i)) (off + n)
          ((src / PGSIZE + 1) * PGSIZE) (len - n)

/-- `copyin(pagetable, dst + off, src, len)`. -/
def copyin (dst : Bytes) (off src len : Nat) : Bytes × Bool := um.copyinFrom len dst off src len

/-- Does `copyout` of `len` bytes to `dst` succeed? -/
def copyoutFrom : Nat → Nat → Nat → Bool
  | 0, _, _ => true
  | fuel + 1, dst, len =>
    if len = 0 then true
    else
      match um.page (dst / PGSIZE) with
      | none => false
      | some _ =>
        copyoutFrom fuel ((dst / PGSIZE + 1) * PGSIZE) (len - min (PGSIZE - dst % PGSIZE) len)

def copyout (dst len : Nat) : Bool := um.copyoutFrom len dst len

end UserMem

/-- `user_src`, `src`: where `writei` takes its bytes from. -/
inductive Src
  | kernel (bytes : Bytes)
  | user (um : UserMem) (addr : Nat)

/-- `user_dst`, `dst`: where `readi` puts its bytes. -/
inductive Dst
  | kernel
  | user (um : UserMem) (addr : Nat)

/-- `either_copyin(dst + off, user_src, src + tot, m)`; user addresses are 64 bits. -/
def Src.copy (src : Src) (tot : Nat) (dst : Bytes) (off m : Nat) : Bytes × Bool :=
  match src with
  | .kernel bytes => (blit dst off m fun i => bytes (tot + i), true)
  | .user um addr => um.copyin dst off ((addr + tot) % 18446744073709551616) m

/-- Does `either_copyout(user_dst, dst + tot, _, m)` succeed? -/
def Dst.copy (dst : Dst) (tot m : Nat) : Bool :=
  match dst with
  | .kernel => true
  | .user um addr => um.copyout ((addr + tot) % 18446744073709551616) m

/-! ## The calls -/

/-- What the file-system code calls.  `copyin` is `either_copyin`; `rawRead` and `rawWrite` are the parts of `sys_raw_read` and
    `sys_raw_write` after their argument checks; `forceFail` and `forceDiskFail` store a hook. -/
inductive Bcall
  | bread (b : Nat)
  | data (b : Nat)
  | store (b : Nat) (d : Block)
  | logWrite (b : Nat)
  | brelse (b : Nat)
  | beginOp
  | endOp
  | mem
  | setMem (m : Mem)
  | copyin (src : Src) (tot : Nat) (dst : Bytes) (off m : Nat)
  | rawRead (b : Nat) (um : UserMem) (addr : Nat)
  | rawWrite (b : Nat) (um : UserMem) (addr : Nat)
  | forceFail (pbn : Int)
  | forceDiskFail (id : Int)
  | fail (e : Err)

def Bcall.Res : Bcall → Type
  | data _ => Block
  | mem => Mem
  | copyin .. => Bytes × Bool
  | rawRead .. | rawWrite .. => Int
  | fail _ => Empty
  | _ => Unit

/-- The interface the lower half of `fs.c` is written against. -/
def Blocks : Prog.Iface := ⟨Bcall, Bcall.Res⟩

/-- The whole kernel state. -/
structure Kern where
  mach : Mach
  mem : Mem

namespace Kern

variable (s : Kern)

/-- The held buffer of block `b`. -/
def heldBuf (b : Nat) : Option Nat :=
  (List.range NBUF).find? fun i =>
    s.mach.holding i && (s.mach.buf i).dev == ROOTDEV && (s.mach.buf i).blockno == b

/-- Run a step of the machine on the held buffer of `b`; without one, `bp` is a wild pointer. -/
def onHeld {α : Type} (b : Nat) (f : Nat → Except Err α) : Except Err α :=
  match s.heldBuf b with
  | none => .error .undef
  | some i => f i

/-- A machine step that returns nothing. -/
def lift (x : Except Err Mach) : Except Err (Unit × Kern) := do pure ((), { s with mach := ← x })

/-- `sys_raw_read` from its `bget` on: it reads the disk into the buffer and leaves `valid`. -/
def rawRead (b : Nat) (um : UserMem) (addr : Nat) : Except Err (Int × Kern) := do
  let (i, m) ← s.mach.bget ROOTDEV b
  let m ← (m.diskRead i).brelse i
  pure (if um.copyout addr BSIZE then 0 else -1, { s with mach := m })

/-- `sys_raw_write` from its `bget` on: the user's bytes go straight into the buffer. -/
def rawWrite (b : Nat) (um : UserMem) (addr : Nat) : Except Err (Int × Kern) := do
  let (i, m) ← s.mach.bget ROOTDEV b
  let (d, ok) := um.copyin (m.buf i).data 0 addr BSIZE
  let m := m.setData i d
  if ok then
    let m := (m.updBuf i fun b => { b with valid := true }).diskWrite i
    let m ← m.brelse i
    pure (0, { s with mach := m })
  else
    let m ← m.brelse i
    pure (-1, { s with mach := m })

/-- The machine serves the calls. -/
def serve : (o : Bcall) → Kern → Except Err (o.Res × Kern)
  | .bread b, s => s.lift do pure (← s.mach.bread ROOTDEV b).2
  | .data b, s => s.onHeld b fun i => .ok ((s.mach.buf i).data, s)
  | .store b d, s => s.onHeld b fun i => s.lift (.ok (s.mach.setData i d))
  | .logWrite b, s => s.onHeld b fun i => s.lift (s.mach.logWrite i)
  | .brelse b, s => s.onHeld b fun i => s.lift (s.mach.brelse i)
  | .beginOp, s => s.lift s.mach.beginOp
  | .endOp, s => s.lift s.mach.endOp
  | .mem, s => .ok (s.mem, s)
  | .setMem m, s => .ok ((), { s with mem := m })
  | .copyin src tot dst off m, s => .ok (src.copy tot dst off m, s)
  | .rawRead b um addr, s => s.rawRead b um addr
  | .rawWrite b um addr, s => s.rawWrite b um addr
  | .forceFail pbn, s => .ok ((), { s with mach := { s.mach with forceReadErrorPbn := pbn } })
  | .forceDiskFail id, s => .ok ((), { s with mach := { s.mach with forceDiskFailId := id } })
  | .fail e, _ => .error e

end Kern

/-- No buffer was changed behind the log's back: `copyin` copied everything it was asked to or left
    the destination as it was, and the hooks stay off. -/
def Untorn : Bcall → Kern → Prop
  | .copyin src tot d off m, _ =>
    (src.copy tot d off m).2 = true ∨ (src.copy tot d off m).1 = d
  | .rawWrite _ um addr, _ =>
    ∀ d, (um.copyin d 0 addr BSIZE).2 = true ∨ (um.copyin d 0 addr BSIZE).1 = d
  | .forceFail pbn, _ => pbn = -1
  | .forceDiskFail id, _ => id = -1
  | _, _ => True

theorem Kern.lift_ok {s s' : Kern} {x : Except Err Mach} {u : Unit}
    (h : s.lift x = .ok (u, s')) : ∃ m, x = .ok m ∧ s' = { s with mach := m } := by
  cases x with
  | error e => cases h
  | ok m => exact ⟨m, rfl, (Prod.mk.inj (Except.ok.inj h)).2.symm⟩

theorem Kern.lift_error {s : Kern} {x : Except Err Mach} {e : Err} (h : s.lift x = .error e) :
    x = .error e := by
  cases x with
  | error e' => exact congrArg _ (Except.error.inj h)
  | ok m => cases h

theorem Kern.onHeld_some {α : Type} {s : Kern} {b i : Nat} (hi : s.heldBuf b = some i)
    (f : Nat → Except Err α) : s.onHeld b f = f i := by
  rw [Kern.onHeld, hi]

/-! ## The calls as program text -/

/-- Code of the lower half of `fs.c`. -/
abbrev Code (α : Type) := Prog Blocks α

namespace Code

def bread (b : Nat) : Code Unit := Prog.op (I := Blocks) (.bread b)
def data (b : Nat) : Code Block := Prog.op (I := Blocks) (.data b)
def store (b : Nat) (d : Block) : Code Unit := Prog.op (I := Blocks) (.store b d)
def logWrite (b : Nat) : Code Unit := Prog.op (I := Blocks) (.logWrite b)
def brelse (b : Nat) : Code Unit := Prog.op (I := Blocks) (.brelse b)
def mem : Code Mem := Prog.op (I := Blocks) .mem
def setMem (m : Mem) : Code Unit := Prog.op (I := Blocks) (.setMem m)
def copyin (src : Src) (tot : Nat) (dst : Bytes) (off m : Nat) : Code (Bytes × Bool) :=
  Prog.op (I := Blocks) (.copyin src tot dst off m)
def panic {α : Type} (msg : String) : Code α := Prog.call (I := Blocks) (.fail (.panic msg)) Empty.elim

/-- A sleep that nobody ends. -/
def block {α : Type} : Code α := Prog.call (I := Blocks) (.fail .blocked) Empty.elim

end Code

end Xv6
