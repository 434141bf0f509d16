/-
  THE VOLUME: what the inode layer is for.

  `Vol` is what the code above the inode layer may believe its calls act on: inodes with CONTENTS, the
  inode cache and the tables, how many operations are open, and — as bounds — how much of the log is
  used and how many blocks are free.  There are no disk blocks in it but as the addresses of a file's
  blocks, no buffers and no bitmap.

  A file some of whose blocks were left half written is TORN: its contents may be different at the
  next look.  Directories never are.

  `Vol.spec` specifies the calls of `Icall` on volumes; `Rep` says that a block store represents a
  volume.  The modules that follow show that the code behind each call keeps `Rep`.
-/
import Xv6.Fs.Bmap
import Xv6.Fs.Dir

namespace Xv6

open Function Prog Bytes Owner

/-! ## User memory as bytes -/

/-- The byte at a user address. -/
def UserMem.byteAt (um : UserMem) (a : Nat) : UInt8 :=
  match um.page (a / PGSIZE) with
  | some pg => pg (a % PGSIZE)
  | none => 0

namespace Src

/-- The byte at position `i` of the source. -/
def byte (src : Src) (i : Nat) : UInt8 :=
  match src with
  | kernel bytes => bytes i
  | user um addr => um.byteAt ((addr + i) % 18446744073709551616)

/-- The first `n` bytes can be read. -/
def Readable (src : Src) (n : Nat) : Prop :=
  match src with
  | kernel _ => True
  | user um addr => ∀ i, i < n → um.page ((addr + i) % 18446744073709551616 / PGSIZE) ≠ none

end Src

/-- The first `n` bytes of the destination can be written. -/
def Dst.Writable (dst : Dst) (n : Nat) : Prop :=
  match dst with
  | .kernel => True
  | .user um addr => ∀ i, i < n → um.page ((addr + i) % 18446744073709551616 / PGSIZE) ≠ none

/-! ## Volumes -/

/-- A volume: the inodes, their block addresses and bytes, the files that a failed copy has torn, and
    the kernel's memory. -/
structure Vol where
  ino : Nat → Dinode
  addr : Nat → Nat → Nat
  byte : Nat → Bytes
  torn : Nat → Prop
  mem : Mem
  out : Int
  lh : Nat
  free : Nat

namespace Vol

variable (v : Vol)

/-- The inode cached in slot `k`. -/
def slot (k : Nat) : Inode := v.mem.icache k

/-- Its number. -/
def inum (k : Nat) : Nat := (v.mem.icache k).inum

def withMem (m : Mem) : Vol := { v with mem := m }

def upd (k : Nat) (f : Inode → Inode) : Vol := { v with mem := v.mem.upd k f }

theorem upd_slot (k : Nat) (f : Inode → Inode) : (v.upd k f).slot k = f (v.slot k) :=
  Mem.upd_self ..

theorem upd_slot_ne {j k : Nat} (f : Inode → Inode) (h : j ≠ k) : (v.upd k f).slot j = v.slot j :=
  Mem.upd_ne _ _ h

/-- Change the inode in slot `k`, in memory and on disk. -/
def setIno (k : Nat) (f : Dinode → Dinode) : Vol :=
  { v with
    ino := update v.ino (v.inum k) (f (v.ino (v.inum k)))
    mem := v.mem.upd k fun ip => { ip with din := f ip.din }
    lh := v.lh + 1 }

/-- The caller has locked the inode in slot `k`, and it is loaded. -/
structure Held (v : Vol) (k : Nat) : Prop where
  lt : k < NINODE
  ref : 1 ≤ (v.slot k).ref
  locked : (v.slot k).locked = true
  valid : (v.slot k).valid = true

/-- Dropping the last reference to an inode without links frees it. -/
def Dying (v : Vol) (k : Nat) : Prop :=
  (v.slot k).ref = 1 ∧ (v.slot k).valid = true ∧ (v.slot k).din.nlink = 0

instance (v : Vol) (k : Nat) : Decidable (v.Dying k) := by unfold Dying; infer_instance

/-- What holds of every volume that a block store represents. -/
structure Ok (sb : Superblock) (v : Vol) : Prop where
  ino : ∀ i, i < sb.ninodes → (v.ino i).Ok
  slots : Slots sb v.ino none v.mem
  size : ∀ i, i < sb.ninodes → (v.ino i).type ≠ 0 → (v.ino i).size ≤ MAXFILE * BSIZE
  full : ∀ i, i < sb.ninodes → (v.ino i).type ≠ 0 → ∀ bn, bn * BSIZE < (v.ino i).size →
    v.addr i (place bn) ≠ 0
  torn : ∀ i, v.torn i → (v.ino i).type ≠ T_DIR

end Vol

/-- The store `t`, in which nothing is held, represents the volume `v`. -/
structure Rep (sb : Superblock) (t : Store) (v : Vol) : Prop where
  fs : Fs sb v.ino none (fun _ => False) t
  ok : v.Ok sb
  addr : ∀ i p, i < sb.ninodes → (v.ino i).type ≠ 0 → p < NPLACE → addrAt t.blk (v.ino i) p = v.addr i p
  byte : ∀ i o, i < sb.ninodes → (v.ino i).type ≠ 0 → o < (v.ino i).size → ¬ v.torn i →
    content t.blk (v.ino i) o = v.byte i o
  torn : ∀ i p b, Refers sb v.ino t.blk (i, p) b → t.taint b → v.torn i
  mem : t.mem = v.mem
  held : t.held = []
  out : t.out = v.out
  lh : t.lh.length ≤ v.lh
  free : v.free ≤ freeBlocks sb t.blk

/-! ## The calls -/

/-- The number of blocks that `n` bytes from `off` on touch. -/
def span (off n : Nat) : Nat := (off % BSIZE + n + (BSIZE - 1)) / BSIZE

namespace Vol

variable (sb : Superblock) (g : Goal)

/-- Space in the log for `n` more blocks. -/
def Room (n : Nat) (v : Vol) : Prop := g.total → 1 ≤ v.out ∧ v.lh + n < sb.nlog

/-- What `readi` returns: the number of bytes it may deliver. -/
def readable (v : Vol) (k off n : Nat) : Nat :=
  if (v.ino (v.inum k)).size < off ∨ (off + n) % 4294967296 < off then 0
  else min n ((v.ino (v.inum k)).size - off)

/-- `writei` refuses: it would start past the end or end past the largest file. -/
def refuses (v : Vol) (k off n : Nat) : Prop :=
  (v.ino (v.inum k)).size < off ∨ (off + n) % 4294967296 < off ∨ MAXFILE * BSIZE < off + n

instance (v : Vol) (k off n : Nat) : Decidable (v.refuses k off n) := by
  unfold refuses; infer_instance

/-- What a system call has to see to before it calls `fs.c`. -/
def Safe : Icall → Vol → Prop
  | .iget inum, v => inum < sb.ninodes ∧
    (g.bad (.panic "iget: no inodes") → (v.mem.iget inum).isSome)
  | .idup k, v => k < NINODE ∧ 1 ≤ (v.slot k).ref
  | .ialloc type, v => 0 < type ∧ type < 65536 ∧ v.Room sb g 1 ∧ (g.total → v.lh < NBUF) ∧
    (g.bad (.panic "ialloc: no inodes") → ∃ i, 1 ≤ i ∧ i < sb.ninodes ∧ (v.ino i).type = 0) ∧
    (g.bad (.panic "iget: no inodes") → ∀ i, (v.mem.iget i).isSome)
  | .ilock k, v => k < NINODE ∧ (g.bad (.panic "ilock") → 1 ≤ (v.slot k).ref) ∧
    (g.bad .blocked → (v.slot k).locked = false) ∧
    (g.bad (.panic "ilock: no type") → (v.ino (v.inum k)).type ≠ 0) ∧ (g.total → v.lh < NBUF)
  | .iunlock k, v => k < NINODE ∧
    (g.bad (.panic "iunlock") → (v.slot k).locked = true ∧ 1 ≤ (v.slot k).ref)
  | .iput k, v => k < NINODE ∧ 1 ≤ (v.slot k).ref ∧
    (v.Dying k → (g.bad .blocked → (v.slot k).locked = false) ∧ ¬ g.total)
  | .updNlink k x, v | .updPerm k x, v => v.Held k ∧ x < 65536 ∧ v.Room sb g 1
  | .updNew k _ _, v => v.Held k ∧ v.Room sb g 1
  | .itrunc k, v => v.Held k ∧ ¬ g.total
  | .readi k _ _ _, v => v.Held k ∧ (g.total → v.lh < NBUF)
  | .writei k src off n, v => v.Held k ∧
    ((v.ino (v.inum k)).type = T_DIR → src.Readable n) ∧ v.Room sb g (2 * span off n + 3) ∧
    (g.bad (.panic "balloc: out of blocks") → span off n + 1 ≤ v.free)
  | .beginOp, v => g.total → v.lh + (v.out + 1) * MAXOPBLOCKS ≤ LOGSIZE
  | .rawRead .., v => v.out ≤ 0 ∧ ¬ g.total
  | .forceFail i, v | .forceDiskFail i, v => v.out ≤ 0 ∧ (g.quiet → i = -1)
  | .bmap .., _ | .rawWrite .., _ => False
  | .fail e, _ => ¬ g.bad e
  | .inode _, _ | .endOp, _ | .tabs, _ | .setTabs _, _ => True

/-- The volume after inode `i` has lost its contents. -/
def drop (v : Vol) (i : Nat) (x : Dinode) (lh : Nat) : Vol :=
  { v with
    ino := update v.ino i x
    addr := update v.addr i fun _ => 0
    torn := update v.torn i False
    lh := lh }

/-- The volume after `writei` has changed inode `i`. -/
def wrote (v : Vol) (k : Nat) (x : Dinode) (a : Nat → Nat) (f : Bytes) (T : Prop) (n lh : Nat) : Vol :=
  { v with
    ino := update v.ino (v.inum k) x
    addr := update v.addr (v.inum k) a
    byte := update v.byte (v.inum k) f
    torn := update v.torn (v.inum k) T
    mem := v.mem.setDin k x
    lh := v.lh + lh
    free := v.free - n }

/-- The contents of the file in slot `k` with `m` bytes of the source at `off`. -/
def spliced (v : Vol) (k : Nat) (src : Src) (off m : Nat) : Bytes := fun o =>
  if off ≤ o ∧ o < off + m then src.byte (o - off) else v.byte (v.inum k) o

/-- `m` of the `n` bytes of the source have been written. -/
structure Wrote (g : Goal) (v : Vol) (k : Nat) (src : Src) (off n m : Nat) (v' : Vol) : Prop where
  le : m ≤ n
  all : src.Readable n → m = n
  change : ∃ x a, v' = v.wrote k x a (v.spliced k src off m) (v.torn (v.inum k) ∨ m < n ∧ ¬ g.whole)
      (span off n + 1) (2 * span off n + 3) ∧
    x = { v.ino (v.inum k) with addrs := x.addrs, size := max (v.ino (v.inum k)).size (off + m) } ∧
    ∀ p, p < NPLACE → v.addr (v.inum k) p ≠ 0 → a p = v.addr (v.inum k) p

/-- What a call does. -/
def Effect : (o : Icall) → Vol → o.Res → Vol → Prop
  | .iget inum, v, r, v' => ∃ m, v.mem.iget inum = some (r, m) ∧ v' = v.withMem m
  | .idup k, v, _, v' => v' = v.upd k fun ip => { ip with ref := ip.ref + 1 }
  | .ialloc type, v, r, v' => ∃ i m, 1 ≤ i ∧ i < sb.ninodes ∧ (v.ino i).type = 0 ∧
    v.mem.iget i = some (r, m) ∧ v' = (v.drop i (Code.newInode type) (v.lh + 1)).withMem m
  | .ilock k, v, _, v' => 1 ≤ (v.slot k).ref ∧ (v.slot k).locked = false ∧
    (v.ino (v.inum k)).type ≠ 0 ∧ v' = v.upd k fun ip =>
      { ip with locked := true, valid := true, din := v.ino ip.inum }
  | .iunlock k, v, _, v' => (v.slot k).locked = true ∧ 1 ≤ (v.slot k).ref ∧
    v' = v.upd k fun ip => { ip with locked := false }
  | .iput k, v, _, v' =>
    if v.Dying k then (v.slot k).locked = false ∧ ∃ lh, v' =
      (v.drop (v.inum k) { v.ino (v.inum k) with type := 0, size := 0, addrs := fun _ => 0 } lh).upd k
        fun ip => { ip with
          ref := 0, valid := false, locked := false
          din := { ip.din with type := 0, size := 0, addrs := fun _ => 0 } }
    else v' = v.upd k fun ip => { ip with ref := ip.ref - 1 }
  | .inode k, v, r, v' => r = (v.slot k).fields ∧ v' = v
  | .updNlink k x, v, _, v' => v' = v.setIno k fun d => { d with nlink := x }
  | .updPerm k x, v, _, v' => v' = v.setIno k fun d => { d with perm := x }
  | .updNew k major minor, v, _, v' =>
    v' = (v.setIno k fun d => { d with nlink := 1 }).upd k fun ip =>
      { ip with major := major, minor := minor }
  | .itrunc k, v, _, v' => ∃ lh, v' =
      (v.drop (v.inum k) { v.ino (v.inum k) with size := 0, addrs := fun _ => 0 } lh).upd k
        fun ip => { ip with din := { ip.din with size := 0, addrs := fun _ => 0 } }
  | .readi k dst off n, v, r, v' => r.1 ≤ v.readable k off n ∧
    (dst.Writable (v.readable k off n) → r.1 = v.readable k off n) ∧
    (¬ v.torn (v.inum k) → ∀ o, o < r.1 → r.2 o = v.byte (v.inum k) (off + o)) ∧ v' = v
  | .writei k src off n, v, r, v' =>
    if v.refuses k off n then r = (-1 : Int) ∧ v' = v
    else r = (n : Int) ∧ if n = 0 then v' = v else ∃ m, v.Wrote g k src off n m v'
  | .beginOp, v, _, v' => v' = { v with out := v.out + 1 }
  | .endOp, v, _, v' => v' = { v with out := v.out - 1, lh := if v.out = 1 then 0 else v.lh }
  | .tabs, v, r, v' => r = v.mem.tabs ∧ v' = v
  | .setTabs t, v, _, v' => v' = v.withMem { v.mem with tabs := t }
  | .rawRead .., v, _, v' | .forceFail _, v, _, v' | .forceDiskFail _, v, _, v' => v' = v
  | .bmap .., _, _, _ | .rawWrite .., _, _, _ | .fail _, _, _, _ => False

/-- The specification of the inode layer. -/
def spec : Spec Inodes Vol := ⟨Safe sb g, fun o v r v' => Effect sb g o v r v' ∧ v'.Ok sb⟩

end Vol

end Xv6
