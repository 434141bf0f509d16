/-
  DIRECTORIES AND PATH NAMES (the upper half of `kernel/fs.c`).

  This code and the system calls are written against the inode layer: `Icall` is what they call,
  and `Icall.code` is the program of `Xv6.Fs.Inode` behind each call.  `Up` is the type of the
  programs; `Up.code` expands one into block calls.

  `ip->nlink` and `ip->perm` are only ever changed together with an `iupdate(ip)` that follows at
  once, and so are the three fields `create` fills in; each such pair is one call.

  A path is a C string: bytes without a NUL, shorter than `MAXPATH`.  A name is the part of
  `name[DIRSIZ]` before the first NUL, which is all that `strncmp` and `strncpy` read of it.
-/
import Xv6.Fs.Inode

namespace Xv6

open Bytes

/-! ## The inode layer's interface -/

/-- The fields of `struct inode` that the callers read. -/
structure Fields where
  inum : Nat
  type : Nat
  major : Nat
  nlink : Nat
  size : Nat
  perm : Nat
deriving DecidableEq, Repr

def Inode.fields (ip : Inode) : Fields :=
  ⟨ip.inum, ip.din.type, ip.major, ip.din.nlink, ip.din.size, ip.din.perm⟩

/-- What directories and system calls call.  `updNlink`, `updPerm` and `updNew` store a field (the
    three fields of a new inode) and call `iupdate`. -/
inductive Icall
  | iget (inum : Nat)
  | idup (k : Nat)
  | ialloc (type : Nat)
  | ilock (k : Nat)
  | iunlock (k : Nat)
  | iput (k : Nat)
  | inode (k : Nat)
  | updNlink (k nlink : Nat)
  | updPerm (k perm : Nat)
  | updNew (k major minor : Nat)
  | itrunc (k : Nat)
  | readi (k : Nat) (dst : Dst) (off n : Nat)
  | writei (k : Nat) (src : Src) (off n : Nat)
  | bmap (k bn : Nat)
  | beginOp
  | endOp
  | tabs
  | setTabs (t : Tabs)
  | rawRead (b : Nat) (um : UserMem) (addr : Nat)
  | rawWrite (b : Nat) (um : UserMem) (addr : Nat)
  | forceFail (pbn : Int)
  | forceDiskFail (id : Int)
  | fail (e : Err)

namespace Icall

def Res : Icall → Type
  | iget _ | ialloc _ | bmap .. => Nat
  | inode _ => Fields
  | readi .. => Nat × Bytes
  | writei .. | rawRead .. | rawWrite .. => Int
  | tabs => Tabs
  | fail _ => Empty
  | _ => Unit

open Code in
/-- The code behind each call. -/
def code (sb : Superblock) : (o : Icall) → Code o.Res
  | iget inum => Code.iget inum
  | idup k => Code.idup k
  | ialloc type => Code.ialloc sb type
  | ilock k => Code.ilock sb k
  | iunlock k => Code.iunlock k
  | iput k => Code.iput sb k
  | inode k => do
    let m ← mem
    pure (m.icache k).fields
  | updNlink k nlink => do
    modify k fun ip => { ip with din := { ip.din with nlink := nlink } }
    iupdate sb k
  | updPerm k perm => do
    modify k fun ip => { ip with din := { ip.din with perm := perm } }
    iupdate sb k
  | updNew k major minor => do
    modify k fun ip =>
      { ip with major := major, minor := minor, din := { ip.din with nlink := 1 } }
    iupdate sb k
  | itrunc k => Code.itrunc sb k
  | readi k dst off n => Code.readi sb k dst off n
  | writei k src off n => Code.writei sb k src off n
  | bmap k bn => Code.bmap sb k bn
  | beginOp => Prog.op (I := Blocks) .beginOp
  | endOp => Prog.op (I := Blocks) .endOp
  | tabs => do
    let m ← mem
    pure m.tabs
  | setTabs t => do
    let m ← mem
    setMem { m with tabs := t }
  | rawRead b um addr => Prog.op (I := Blocks) (.rawRead b um addr)
  | rawWrite b um addr => Prog.op (I := Blocks) (.rawWrite b um addr)
  | forceFail pbn => Prog.op (I := Blocks) (.forceFail pbn)
  | forceDiskFail id => Prog.op (I := Blocks) (.forceDiskFail id)
  | fail e => Prog.op (I := Blocks) (.fail e)

end Icall

/-- The interface of `fs.c`. -/
def Inodes : Prog.Iface := ⟨Icall, Icall.Res⟩

/-- Code above the inode layer. -/
abbrev Up (α : Type) := Prog Inodes α

/-- The same code down to block calls. -/
def Up.code {α : Type} (sb : Superblock) (p : Up α) : Code α :=
  Prog.expand (I := Inodes) (Icall.code sb) p

namespace Up

def iget (inum : Nat) : Up Nat := Prog.op (I := Inodes) (.iget inum)
def idup (k : Nat) : Up Unit := Prog.op (I := Inodes) (.idup k)
def ialloc (type : Nat) : Up Nat := Prog.op (I := Inodes) (.ialloc type)
def ilock (k : Nat) : Up Unit := Prog.op (I := Inodes) (.ilock k)
def iunlock (k : Nat) : Up Unit := Prog.op (I := Inodes) (.iunlock k)
def iput (k : Nat) : Up Unit := Prog.op (I := Inodes) (.iput k)
def inode (k : Nat) : Up Fields := Prog.op (I := Inodes) (.inode k)
def updNlink (k nlink : Nat) : Up Unit := Prog.op (I := Inodes) (.updNlink k nlink)
def updPerm (k perm : Nat) : Up Unit := Prog.op (I := Inodes) (.updPerm k perm)
def updNew (k major minor : Nat) : Up Unit := Prog.op (I := Inodes) (.updNew k major minor)
def itrunc (k : Nat) : Up Unit := Prog.op (I := Inodes) (.itrunc k)
def readi (k : Nat) (dst : Dst) (off n : Nat) : Up (Nat × Bytes) :=
  Prog.op (I := Inodes) (.readi k dst off n)
def writei (k : Nat) (src : Src) (off n : Nat) : Up Int :=
  Prog.op (I := Inodes) (.writei k src off n)
def bmap (k bn : Nat) : Up Nat := Prog.op (I := Inodes) (.bmap k bn)
def beginOp : Up Unit := Prog.op (I := Inodes) .beginOp
def endOp : Up Unit := Prog.op (I := Inodes) .endOp
def tabs : Up Tabs := Prog.op (I := Inodes) .tabs
def setTabs (t : Tabs) : Up Unit := Prog.op (I := Inodes) (.setTabs t)
def panic {α : Type} (msg : String) : Up α := Prog.call (I := Inodes) (.fail (.panic msg)) Empty.elim
/-- Behaviour C leaves undefined. -/
def undef {α : Type} : Up α := Prog.call (I := Inodes) (.fail .undef) Empty.elim

/-- Common idiom: unlock, then put. -/
def iunlockput (k : Nat) : Up Unit := do
  iunlock k
  iput k

end Up

/-! ## Strings -/

/-- `strncmp`, from position `i` on. -/
def strncmpFrom (p q : Bytes) : Nat → Nat → Int
  | _, 0 => 0
  | i, n + 1 =>
    if p i ≠ 0 ∧ p i = q i then strncmpFrom p q (i + 1) n
    else ((p i).toNat : Int) - (q i).toNat

def strncmp (p q : Bytes) (n : Nat) : Int := strncmpFrom p q 0 n

def namecmp (s t : Bytes) : Int := strncmp s t DIRSIZ

/-- A C string given to a system call (`argstr` with `MAXPATH`). -/
structure Path where
  bytes : List UInt8
  nonul : ∀ c ∈ bytes, c ≠ 0
  short : bytes.length < MAXPATH

/-- The bytes of a name, NUL-terminated. -/
abbrev Name := List UInt8

/-! ## Directories -/

/-- `struct dirent`: the inode number, then `strncpy(de.name, name, DIRSIZ)`. -/
def dirent (inum : Nat) (name : Name) : Bytes := fun i =>
  if i < 2 then UInt8.ofNat (inum / 256 ^ i) else if i < DIRENT then ofList name (i - 2) else 0

/-- `de.inum` and `de.name` of the 16 bytes `readi` delivered. -/
def deInum (de : Bytes) : Nat := le16 de 0
def deName (de : Bytes) : Bytes := fun i => de (2 + i)

/-- The indices of the entries that a scan with `off += sizeof(de)` over `size` bytes visits. -/
def entries (size : Nat) : List Nat := List.range ((size + (DIRENT - 1)) / DIRENT)

namespace Up

/-- The loop of `dirlookup`, over the offsets that are left. -/
def dirlookupFrom (dp : Nat) (name : Name) : List Nat → Up (Option (Nat × Nat))
  | [] => pure none
  | e :: es => do
    let r ← readi dp .kernel (DIRENT * e) DIRENT
    if r.1 ≠ DIRENT then panic "dirlookup read"
    else if deInum r.2 = 0 then dirlookupFrom dp name es
    else if namecmp (ofList name) (deName r.2) = 0 then do
      let k ← iget (deInum r.2)
      pure (some (k, DIRENT * e))
    else dirlookupFrom dp name es

/-- Look for a directory entry in a directory; with the entry comes its byte offset. -/
def dirlookup (dp : Nat) (name : Name) : Up (Option (Nat × Nat)) := do
  let f ← inode dp
  if f.type ≠ T_DIR then panic "dirlookup not DIR"
  else dirlookupFrom dp name (entries f.size)

/-- `dirlink`'s scan for an empty dirent: its offset, or `off` after the last entry. -/
def freeDirent (dp : Nat) (last : Nat) : List Nat → Up Nat
  | [] => pure last
  | e :: es => do
    let r ← readi dp .kernel (DIRENT * e) DIRENT
    if r.1 ≠ DIRENT then panic "dirlink read"
    else if deInum r.2 = 0 then pure (DIRENT * e)
    else freeDirent dp last es

/-- Write a new directory entry `(name, inum)` into the directory `dp`. -/
def dirlink (dp : Nat) (name : Name) (inum : Nat) : Up Int := do
  match ← dirlookup dp name with
  | some (k, _) => do
    iput k
    pure (-1)
  | none => do
    let f ← inode dp
    let off ← freeDirent dp (DIRENT * (entries f.size).length) (entries f.size)
    let r ← writei dp (.kernel (dirent inum name)) off DIRENT
    if r ≠ DIRENT then panic "dirlink" else pure 0

/-! ## Paths -/

/-- Is this byte a `/`? -/
def slash (c : UInt8) : Bool := c == 47

/-- Copy the next path element from `path`; what is left has no leading slashes. -/
def skipelem (path : List UInt8) : Option (Name × List UInt8) :=
  match path.dropWhile slash with
  | [] => none
  | c :: cs =>
    let s := c :: cs
    some ((s.takeWhile fun c => !slash c).take DIRSIZ, (s.dropWhile fun c => !slash c).dropWhile slash)

/-- `namex`'s loop; every round takes at least one byte off the path. -/
def namexFrom (parent : Bool) : Nat → Nat → List UInt8 → Up (Option (Nat × Name))
  | 0, k, _ => if parent then do iput k; pure none else pure (some (k, []))
  | fuel + 1, k, path =>
    match skipelem path with
    | none => if parent then do iput k; pure none else pure (some (k, []))
    | some (name, rest) => do
      ilock k
      let f ← inode k
      if f.type ≠ T_DIR then do
        iunlockput k
        pure none
      else if parent && rest.isEmpty then do
        -- stop one level early
        iunlock k
        pure (some (k, name))
      else
        match ← dirlookup k name with
        | none => do
          iunlockput k
          pure none
        | some (next, _) => do
          iunlockput k
          namexFrom parent fuel next rest

/-- Look up and return the inode for a path name, starting at the root or at `p`'s `cwd`; with
    `parent`, the inode of the parent and the final path element. -/
def namex (p : Nat) (path : List UInt8) (parent : Bool) : Up (Option (Nat × Name)) :=
  if path.head? = some 47 then do
    let k ← iget ROOTINO
    namexFrom parent path.length k path
  else do
    let t ← tabs
    match (t.proc p).cwd with
    | none => undef
    | some k => do
      idup k
      namexFrom parent path.length k path

def namei (p : Nat) (path : List UInt8) : Up (Option Nat) := do
  let r ← namex p path false
  pure (r.map Prod.fst)

def nameiparent (p : Nat) (path : List UInt8) : Up (Option (Nat × Name)) := namex p path true

end Up

end Xv6
