/-
  SYSTEM CALLS (`kernel/sysfile.c`, `kernel/file.c`, `kernel/pipe.c`, `chperm` of `kernel/fs.c`, and
  the parts of `exec`, `fork`, `exit` and `wait` that touch files or the process table).

  `Syscall` is a call with its arguments as the kernel fetched them: a path is `none` when `argstr`
  failed, `um` is the caller's memory at the time of the call, `con` what the console driver
  returned, `mem` whether the allocator found memory.  `Syscall.code` is the program behind the call
  and `Kern.syscall` runs it on the machine.

  A call that would sleep until another process runs (an empty or a full pipe, a child that has not
  exited) is BLOCKED: it does not end here.  A killed process does not get as far as its next system
  call (`usertrap`), so `pr->killed` is 0 throughout.
-/
import Xv6.Fs.Dir

namespace Xv6

open Function Bytes

/-! ## The file table and descriptors -/

namespace Tabs

variable (t : Tabs)

def updFile (f : Nat) (g : File → File) : Tabs :=
  { t with file := update t.file f (g (t.file f)) }

def updProc (p : Nat) (g : Proc → Proc) : Tabs :=
  { t with proc := update t.proc p (g (t.proc p)) }

def updPipe (pi : Nat) (g : Pipe → Pipe) : Tabs :=
  { t with pipe := update t.pipe pi (g (t.pipe pi)) }

/-- Allocate a file structure. -/
def filealloc : Option (Nat × Tabs) :=
  match (List.range NFILE).find? fun f => (t.file f).ref == 0 with
  | some f => some (f, t.updFile f fun x => { x with ref := 1 })
  | none => none

/-- `p->ofile[fd] = f`. -/
def setFd (p fd : Nat) (f : Option Nat) : Tabs :=
  t.updProc p fun x => { x with ofile := update x.ofile fd f }

/-- Allocate a file descriptor for the given file. -/
def fdalloc (p f : Nat) : Option (Nat × Tabs) :=
  match (List.range NOFILE).find? fun fd => (t.proc p).ofile fd == none with
  | some fd => some (fd, t.setFd p fd (some f))
  | none => none

/-- `argfd`: the descriptor and its file. -/
def argfd (p : Nat) (fd : Int) : Option (Nat × Nat) :=
  if fd < 0 ∨ (NOFILE : Int) ≤ fd then none
  else (t.proc p).ofile fd.toNat |>.map fun f => (fd.toNat, f)

/-- A page for a pipe, from `kalloc`.  Every pipe has an open file, so that `NFILE` pages are
    enough. -/
def pipepage : Option Nat :=
  (List.range NFILE).find? fun pi => !(t.pipe pi).readopen && !(t.pipe pi).writeopen

/-- `pipeclose`: the page is freed with its second end. -/
def pipeclose (pi : Nat) (writable : Bool) : Tabs :=
  t.updPipe pi fun x =>
    if writable then { x with writeopen := false } else { x with readopen := false }

end Tabs

/-- A 32-bit `int` as the `uint` it is passed as. -/
def toUint (n : Int) : Nat := (n % 4294967296).toNat

/-- A `short` is negative. -/
def negShort (x : Nat) : Bool := 32768 ≤ x

/-! ## `pipe.c` -/

namespace Pipe

/-- `piperead`'s loop, from byte `i` on: the number of bytes delivered. -/
def readFrom (um : UserMem) (addr : Nat) : Nat → Nat → Pipe → Nat × Pipe
  | 0, i, x => (i, x)
  | n + 1, i, x =>
    if x.nread = x.nwrite then (i, x)
    else
      let x' := { x with nread := inc32 x.nread }
      if um.copyout ((addr + i) % 18446744073709551616) 1 then readFrom um addr n (i + 1) x'
      else (i, x')

/-- `pipewrite`'s loop, from byte `i` on: what it returns, or `none` when it goes to sleep. -/
def writeFrom (um : UserMem) (addr : Nat) : Nat → Nat → Pipe → Option Int × Pipe
  | 0, i, x => (some i, x)
  | n + 1, i, x =>
    if x.nwrite = (x.nread + PIPESIZE) % 4294967296 then
      (if x.readopen then none else some (-1), x)
    else
      let r := um.copyin (fun _ => 0) 0 ((addr + i) % 18446744073709551616) 1
      if r.2 then
        writeFrom um addr n (i + 1) { x with
            data := update x.data (x.nwrite % PIPESIZE) (r.1 0)
            nwrite := inc32 x.nwrite }
      else (some i, x)

end Pipe

namespace Up

/-- A sleep that only another process could end. -/
def block {α : Type} : Up α := Prog.call (I := Inodes) (.fail .blocked) Empty.elim

/-- `*ip` for a pointer that may be null. -/
def deref : Option Nat → Up Nat
  | none => undef
  | some k => pure k

/-- `ilock(ip)` for a pointer that may be null; the inode behind it. -/
def ilockPtr : Option Nat → Up Nat
  | none => panic "ilock"
  | some k => do
    ilock k
    pure k

def piperead (pi : Nat) (um : UserMem) (addr : Nat) (n : Int) : Up Int := do
  let t ← tabs
  let x := t.pipe pi
  if x.nread = x.nwrite ∧ x.writeopen = true then block
  else do
    let r := x.readFrom um addr n.toNat 0
    setTabs (t.updPipe pi fun _ => r.2)
    pure r.1

def pipewrite (pi : Nat) (um : UserMem) (addr : Nat) (n : Int) : Up Int := do
  let t ← tabs
  let r := (t.pipe pi).writeFrom um addr n.toNat 0
  match r.1 with
  | none => block
  | some ret => do
    setTabs (t.updPipe pi fun _ => r.2)
    pure ret

/-! ## `file.c` -/

/-- Increment ref count for file `f`. -/
def filedup (f : Nat) : Up Unit := do
  let t ← tabs
  if (t.file f).ref < 1 then panic "filedup"
  else setTabs (t.updFile f fun x => { x with ref := x.ref + 1 })

/-- Close file `f`: decrement the ref count, close when it reaches 0. -/
def fileclose (f : Nat) : Up Unit := do
  let t ← tabs
  let ff := t.file f
  if ff.ref < 1 then panic "fileclose"
  else if ff.ref - 1 > 0 then setTabs (t.updFile f fun x => { x with ref := x.ref - 1 })
  else do
    setTabs (t.updFile f fun x => { x with ref := 0, type := .none })
    match ff.type with
    | .none => pure ()
    | .pipe => do
      let t ← tabs
      setTabs (t.pipeclose ff.pipe ff.writable)
    | .inode | .device => do
      beginOp
      let k ← deref ff.ip
      iput k
      endOp

/-- Read from file `f`; the bytes are delivered to user memory. -/
def fileread (f : Nat) (um : UserMem) (addr : Nat) (n con : Int) : Up Int := do
  let t ← tabs
  let ff := t.file f
  if !ff.readable then pure (-1)
  else
    match ff.type with
    | .pipe => piperead ff.pipe um addr n
    | .device => if ff.major = CONSOLE then pure con else pure (-1)
    | .inode => do
      let k ← ilockPtr ff.ip
      let r ← readi k (.user um addr) ff.off (toUint n)
      setTabs (t.updFile f fun x => { x with off := (x.off + r.1) % 4294967296 })
      iunlock k
      pure r.1
    | .none => panic "fileread"

/-- `filewrite`'s loop: a few blocks at a time, to keep within the log.  Every round writes at
    least one byte, so `n` of them are enough. -/
def filewriteFrom (f : Nat) (um : UserMem) (addr n : Nat) : Nat → Nat → Up Int
  | 0, i => pure (if i = n then n else -1)
  | fuel + 1, i =>
    if i < n then do
      let n1 := min (n - i) ((MAXOPBLOCKS - 1 - 1 - 2) / 2 * BSIZE)
      beginOp
      let t ← tabs
      let k ← ilockPtr (t.file f).ip
      let r ← writei k (.user um ((addr + i) % 18446744073709551616)) (t.file f).off n1
      setTabs (if r > 0 then
        t.updFile f fun x => { x with off := (x.off + r.toNat) % 4294967296 } else t)
      iunlock k
      endOp
      if r < 0 then pure (if i = n then n else -1)
      else if r ≠ n1 then panic "short filewrite"
      else filewriteFrom f um addr n fuel (i + n1)
    else pure (if i = n then n else -1)

/-- Write to file `f`. -/
def filewrite (f : Nat) (um : UserMem) (addr : Nat) (n con : Int) : Up Int := do
  let t ← tabs
  let ff := t.file f
  if !ff.writable then pure (-1)
  else
    match ff.type with
    | .pipe => pipewrite ff.pipe um addr n
    | .device => if ff.major = CONSOLE then pure con else pure (-1)
    | .inode =>
      -- a negative `n` enters no loop and differs from `i`
      if n < 0 then pure (-1) else filewriteFrom f um addr n.toNat n.toNat 0
    | .none => panic "filewrite"

/-! ## `sysfile.c` -/

def sysDup (p : Nat) (fd : Int) : Up Int := do
  let t ← tabs
  match t.argfd p fd with
  | none => pure (-1)
  | some (_, f) =>
    match t.fdalloc p f with
    | none => pure (-1)
    | some (fd', t') => do
      setTabs t'
      filedup f
      pure fd'

/-- The mode check reads `f->ip->perm` without a lock, and whatever `f` is. -/
def sysRead (p : Nat) (fd : Int) (um : UserMem) (addr : Nat) (n con : Int) : Up Int := do
  let t ← tabs
  match t.argfd p fd with
  | none => pure (-1)
  | some (_, f) => do
    let k ← deref (t.file f).ip
    let ip ← inode k
    if ip.perm &&& M_READ = 0 then pure (-1) else fileread f um addr n con

def sysWrite (p : Nat) (fd : Int) (um : UserMem) (addr : Nat) (n con : Int) : Up Int := do
  let t ← tabs
  match t.argfd p fd with
  | none => pure (-1)
  | some (_, f) => do
    let k ← deref (t.file f).ip
    let ip ← inode k
    if ip.perm &&& M_WRITE = 0 then pure (-1) else filewrite f um addr n con

def sysClose (p : Nat) (fd : Int) : Up Int := do
  let t ← tabs
  match t.argfd p fd with
  | none => pure (-1)
  | some (fd', f) => do
    setTabs (t.setFd p fd' none)
    fileclose f
    pure 0

/-- `filestat`; a `struct stat` has 32 bytes, with its padding. -/
def sysFstat (p : Nat) (fd : Int) (um : UserMem) (addr : Nat) : Up Int := do
  let t ← tabs
  match t.argfd p fd with
  | none => pure (-1)
  | some (_, f) =>
    match (t.file f).type with
    | .none | .pipe => pure (-1)
    | .inode | .device => do
      let k ← ilockPtr (t.file f).ip
      let _ ← inode k
      iunlock k
      pure (if um.copyout addr 32 then 0 else -1)

/-- `sys_link`'s `bad:`. -/
def linkBad (k : Nat) : Up Int := do
  ilock k
  let f ← inode k
  updNlink k ((f.nlink + 65535) % 65536)
  iunlockput k
  endOp
  pure (-1)

/-- Create the path `new` as a link to the same inode as `old`. -/
def sysLink (p : Nat) (old new : Option Path) : Up Int :=
  match old, new with
  | some old, some new => do
    beginOp
    match ← namei p old.bytes with
    | none => do
      endOp
      pure (-1)
    | some k => do
      ilock k
      let f ← inode k
      if f.type = T_DIR then do
        iunlockput k
        endOp
        pure (-1)
      else do
        updNlink k ((f.nlink + 1) % 65536)
        iunlock k
        match ← nameiparent p new.bytes with
        | none => linkBad k
        | some (dp, name) => do
          ilock dp
          let r ← dirlink dp name f.inum
          if r < 0 then do
            iunlockput dp
            linkBad k
          else do
            iunlockput dp
            iput k
            endOp
            pure 0
  | _, _ => pure (-1)

/-- Is the directory empty except for "." and ".."?  Over the entries still to be looked at. -/
def isdiremptyFrom (dp : Nat) : List Nat → Up Bool
  | [] => pure true
  | e :: es => do
    let r ← readi dp .kernel (DIRENT * e) DIRENT
    if r.1 ≠ DIRENT then panic "isdirempty: readi"
    else if deInum r.2 ≠ 0 then pure false
    else isdiremptyFrom dp es

def isdirempty (dp : Nat) : Up Bool := do
  let f ← inode dp
  isdiremptyFrom dp ((entries f.size).drop 2)

/-- `sys_unlink`'s `bad:`. -/
def unlinkBad (dp : Nat) : Up Int := do
  iunlockput dp
  endOp
  pure (-1)

/-- The end of `sys_unlink`: drop the link. -/
def unlinkTail (dp k : Nat) : Up Int := do
  iunlockput dp
  let f ← inode k
  updNlink k ((f.nlink + 65535) % 65536)
  iunlockput k
  endOp
  pure 0

/-- `sys_unlink` once the entry may go: clear it, then drop the link. -/
def unlinkEntry (dp k off : Nat) : Up Int := do
  let r ← writei dp (.kernel fun _ => 0) off DIRENT
  if r ≠ DIRENT then panic "unlink: writei"
  else do
    let f ← inode k
    if f.type = T_DIR then do
      let d ← inode dp
      updNlink dp ((d.nlink + 65535) % 65536)
      unlinkTail dp k
    else unlinkTail dp k

def sysUnlink (p : Nat) (path : Option Path) : Up Int :=
  match path with
  | none => pure (-1)
  | some path => do
    beginOp
    match ← nameiparent p path.bytes with
    | none => do
      endOp
      pure (-1)
    | some (dp, name) => do
      ilock dp
      -- cannot unlink "." or ".."
      if namecmp (ofList name) (ofList [46]) = 0 ∨ namecmp (ofList name) (ofList [46, 46]) = 0 then
        unlinkBad dp
      else
        match ← dirlookup dp name with
        | none => unlinkBad dp
        | some (k, off) => do
          ilock k
          let f ← inode k
          if f.nlink = 0 ∨ negShort f.nlink then panic "unlink: nlink < 1"
          else if f.type = T_DIR then do
            let empty ← isdirempty k
            if empty then unlinkEntry dp k off
            else do
              iunlockput k
              unlinkBad dp
          else unlinkEntry dp k off

/-- The end of `create`. -/
def createEntry (dp : Nat) (name : Name) (k inum : Nat) : Up Nat := do
  let r ← dirlink dp name inum
  if r < 0 then panic "create: dirlink"
  else do
    iunlockput dp
    pure k

/-- `create` once the name is known to be free: a new inode and its entry. -/
def createNew (dp : Nat) (name : Name) (type major minor : Nat) : Up Nat := do
  let k ← ialloc type
  ilock k
  updNew k major minor
  let f ← inode k
  if type = T_DIR then do
    -- create "." and ".." entries
    let d ← inode dp
    updNlink dp ((d.nlink + 1) % 65536)
    let r ← dirlink k [46] f.inum
    if r < 0 then panic "create dots"
    else do
      let r ← dirlink k [46, 46] d.inum
      if r < 0 then panic "create dots" else createEntry dp name k f.inum
  else createEntry dp name k f.inum

/-- Create an inode with a name; returns it locked. -/
def create (p : Nat) (path : Path) (type major minor : Nat) : Up (Option Nat) := do
  match ← nameiparent p path.bytes with
  | none => pure none
  | some (dp, name) => do
    ilock dp
    match ← dirlookup dp name with
    | some (k, _) => do
      iunlockput dp
      ilock k
      let f ← inode k
      if type = T_FILE ∧ (f.type = T_FILE ∨ f.type = T_DEVICE) then pure (some k)
      else do
        iunlockput k
        pure none
    | none => do
      let k ← createNew dp name type major minor
      pure (some k)

/-- The failure exits of `sys_open`. -/
def openFail (k : Nat) : Up Int := do
  iunlockput k
  endOp
  pure (-1)

/-- `sys_open` after the inode is found and locked. -/
def openInode (p k omode : Nat) : Up Int := do
  let ip ← inode k
  if ip.type = T_DEVICE ∧ (negShort ip.major = true ∨ NDEV ≤ ip.major) then openFail k
  else do
    let t ← tabs
    match t.filealloc with
    | none => openFail k
    | some (f, t') =>
      match t'.fdalloc p f with
      | none => do
        setTabs t'
        fileclose f
        openFail k
      | some (fd, t'') => do
        setTabs (t''.updFile f fun x =>
          { x with
            type := if ip.type = T_DEVICE then .device else .inode
            major := if ip.type = T_DEVICE then ip.major else x.major
            off := if ip.type = T_DEVICE then x.off else 0
            ip := some k
            readable := omode &&& O_WRONLY == 0
            writable := omode &&& O_WRONLY != 0 || omode &&& O_RDWR != 0 })
        if omode &&& O_TRUNC ≠ 0 ∧ ip.type = T_FILE then do
          itrunc k
          iunlock k
          endOp
          pure fd
        else do
          iunlock k
          endOp
          pure fd

def sysOpen (p : Nat) (path : Option Path) (omode : Nat) : Up Int :=
  match path with
  | none => pure (-1)
  | some path => do
    beginOp
    if omode &&& O_CREATE ≠ 0 then do
      match ← create p path T_FILE 0 0 with
      | none => do
        endOp
        pure (-1)
      | some k => openInode p k omode
    else
      match ← namei p path.bytes with
      | none => do
        endOp
        pure (-1)
      | some k => do
        ilock k
        let f ← inode k
        if f.type = T_DIR ∧ omode ≠ O_RDONLY then openFail k
        else openInode p k omode

/-- `sys_mkdir` and `sys_mknod`: a transaction around `create`. -/
def createCall (p : Nat) (path : Option Path) (type major minor : Nat) : Up Int := do
  beginOp
  match path with
  | none => do
    endOp
    pure (-1)
  | some path =>
    match ← create p path type major minor with
    | none => do
      endOp
      pure (-1)
    | some k => do
      iunlockput k
      endOp
      pure 0

def sysMkdir (p : Nat) (path : Option Path) : Up Int := createCall p path T_DIR 0 0

/-- `create` takes `major` and `minor` as `short`s. -/
def sysMknod (p : Nat) (path : Option Path) (major minor : Int) : Up Int :=
  createCall p path T_DEVICE (toUint major % 65536) (toUint minor % 65536)

def sysSymlink (p : Nat) (target path : Option Path) : Up Int :=
  match target, path with
  | some target, some path => do
    beginOp
    match ← create p path T_SYMLINK 0 0 with
    | none => do
      endOp
      pure (-1)
    | some k => do
      let r ← writei k (.kernel (ofList target.bytes)) 0 target.bytes.length
      iunlockput k
      endOp
      pure (if r = target.bytes.length then 0 else -1)
  | _, _ => pure (-1)

def sysChdir (p : Nat) (path : Option Path) : Up Int := do
  beginOp
  match path with
  | none => do
    endOp
    pure (-1)
  | some path =>
    match ← namei p path.bytes with
    | none => do
      endOp
      pure (-1)
    | some k => do
      ilock k
      let f ← inode k
      if f.type ≠ T_DIR then do
        iunlockput k
        endOp
        pure (-1)
      else do
        iunlock k
        let t ← tabs
        match (t.proc p).cwd with
        | none => undef
        | some cwd => do
          iput cwd
          endOp
          let t ← tabs
          setTabs (t.updProc p fun x => { x with cwd := some k })
          pure 0

/-- `pipealloc`; `mem` says whether `kalloc` finds a page. -/
def pipealloc (mem : Bool) : Up (Option (Nat × Nat)) := do
  let t ← tabs
  match t.filealloc with
  | none => pure none
  | some (f0, t) => do
    setTabs t
    match t.filealloc with
    | none => do
      fileclose f0
      pure none
    | some (f1, t) => do
      setTabs t
      match if mem then t.pipepage else none with
      | none => do
        fileclose f0
        fileclose f1
        pure none
      | some pi => do
        setTabs (((t.updPipe pi fun x =>
          { x with nread := 0, nwrite := 0, readopen := true, writeopen := true }).updFile f0 fun x =>
          { x with type := .pipe, readable := true, writable := false, pipe := pi }).updFile f1 fun x =>
          { x with type := .pipe, readable := false, writable := true, pipe := pi })
        pure (some (f0, f1))

/-- The failure exits of `sys_pipe` once both files exist. -/
def pipeFail (rf wf : Nat) : Up Int := do
  fileclose rf
  fileclose wf
  pure (-1)

def sysPipe (p : Nat) (um : UserMem) (addr : Nat) (mem : Bool) : Up Int := do
  match ← pipealloc mem with
  | none => pure (-1)
  | some (rf, wf) => do
    let t ← tabs
    match t.fdalloc p rf with
    | none => pipeFail rf wf
    | some (fd0, t) =>
      match t.fdalloc p wf with
      | none => do
        setTabs (t.setFd p fd0 none)
        pipeFail rf wf
      | some (fd1, t) =>
        if um.copyout addr 4 && um.copyout ((addr + 4) % 18446744073709551616) 4 then do
          setTabs t
          pure 0
        else do
          setTabs ((t.setFd p fd0 none).setFd p fd1 none)
          pipeFail rf wf

/-! ## `exec` -/

/-- `loadseg`, over the pages still to be loaded: did every read deliver all its bytes?  (The pages
    have been mapped by `uvmalloc`.) -/
def loadsegFrom (k offset sz : Nat) : List Nat → Up Bool
  | [] => pure true
  | j :: js => do
    let n := min (sz - PGSIZE * j) PGSIZE
    let r ← readi k .kernel ((offset + PGSIZE * j) % 4294967296) n
    if r.1 ≠ n then pure false else loadsegFrom k offset sz js

def loadseg (k offset sz : Nat) : Up Bool :=
  loadsegFrom k offset sz (List.range ((sz + (PGSIZE - 1)) / PGSIZE))

/-- `exec`'s loop over the program headers; `mem i` says whether the `i`th `uvmalloc` succeeds. -/
def loadHeaders (k phoff : Nat) (mem : Nat → Bool) : List Nat → Up Bool
  | [] => pure true
  | i :: is => do
    let r ← readi k .kernel ((phoff + PROGHDR * i) % 4294967296) PROGHDR
    let vaddr := le64 r.2 16
    let filesz := le64 r.2 32
    let memsz := le64 r.2 40
    if r.1 ≠ PROGHDR then pure false
    else if le32 r.2 0 ≠ ELF_PROG_LOAD then loadHeaders k phoff mem is
    else if memsz < filesz ∨ (vaddr + memsz) % 18446744073709551616 < vaddr ∨ mem i = false ∨
        vaddr % PGSIZE ≠ 0 then pure false
    else do
      let ok ← loadseg k (le64 r.2 8 % 4294967296) (filesz % 4294967296)
      if ok then loadHeaders k phoff mem is else pure false

/-- The part of `exec` that reads the file: is the program loaded?  `pt` says whether there is memory
    for a page table. -/
def execLoad (k : Nat) (pt : Bool) (mem : Nat → Bool) : Up Bool := do
  let r ← readi k .kernel 0 ELFHDR
  if r.1 ≠ ELFHDR ∨ le32 r.2 0 ≠ ELF_MAGIC ∨ pt = false then pure false
  else loadHeaders k (le64 r.2 32) mem (List.range (le16 r.2 56))

/-- `exec`; `ret` is what the rest of it, which builds the stack, returns. -/
def exec (p : Nat) (path : List UInt8) (pt : Bool) (mem : Nat → Bool) (ret : Int) : Up Int := do
  beginOp
  match ← namei p path with
  | none => do
    endOp
    pure (-1)
  | some k => do
    ilock k
    let ok ← execLoad k pt mem
    iunlockput k
    endOp
    pure (if ok then ret else -1)

/-- `argv` says whether the arguments could be fetched. -/
def sysExec (p : Nat) (path : Option Path) (argv pt : Bool) (mem : Nat → Bool) (ret : Int) : Up Int :=
  match path with
  | none => pure (-1)
  | some path => if argv then exec p path.bytes pt mem ret else pure (-1)

/-! ## `chmod` -/

/-- The `child_path` that `chperm` builds for an entry.  An empty `path` indexes before the buffer,
    one that leaves no room loses its NUL, and a name that fills `de.name` is read past its end. -/
def childPath (path : List UInt8) (name : Bytes) : Option (List UInt8) :=
  match path.getLast? with
  | none => none
  | some c =>
    let path := if slash c then path else path ++ [47]
    let chars := (toList name 0 DIRSIZ).takeWhile (· != 0)
    if MAXPATH ≤ path.length then none
    else if chars.length = DIRSIZ ∧ DIRSIZ < MAXPATH - 1 - path.length then none
    else some (path ++ chars.take (MAXPATH - 1 - path.length))

/-- `chperm`'s loop over the entries of the directory `k`; `rec` is the recursive call. -/
def chpermEntries (rec : List UInt8 → Up Int) (path : List UInt8) (k : Nat) : List Nat → Up Unit
  | [] => pure ()
  | e :: es => do
    let r ← readi k .kernel (DIRENT * e) DIRENT
    if r.1 ≠ DIRENT ∨ deInum r.2 = 0 ∨ strncmp (deName r.2) (ofList [46]) DIRSIZ = 0 ∨
        strncmp (deName r.2) (ofList [46, 46]) DIRSIZ = 0 then chpermEntries rec path k es
    else
      match childPath path (deName r.2) with
      | none => undef
      | some child => do
        iunlock k
        let _ ← rec child
        ilock k
        chpermEntries rec path k es

/-- `ip->perm |= mode` or `ip->perm &= ~mode`, as a `short`. -/
def newPerm (perm mode : Nat) (isAdd : Bool) : Nat :=
  if isAdd then (perm ||| mode) % 65536 else perm &&& (65535 ^^^ mode % 65536)

theorem newPerm_lt (perm mode : Nat) (isAdd : Bool) : newPerm perm mode isAdd < 65536 := by
  unfold newPerm
  split
  · exact Nat.mod_lt _ (by decide)
  · refine lt_of_le_of_lt Nat.and_le_right (Nat.xor_lt_two_pow (n := 16) (by decide) ?_)
    exact Nat.mod_lt _ (by decide)

/-- `chperm`, with the depth of the kernel stack. -/
def chperm (p mode : Nat) (isAdd recursive : Bool) : Nat → List UInt8 → Up Int
  | 0, _ => undef
  | depth + 1, path => do
    beginOp
    match ← namei p path with
    | none => do
      endOp
      pure (-1)
    | some k => do
      ilock k
      let f ← inode k
      updPerm k (newPerm f.perm mode isAdd)
      if recursive && f.type == T_DIR then do
        chpermEntries (chperm p mode isAdd recursive depth) path k (entries f.size)
        iunlockput k
        endOp
        pure 0
      else do
        iunlockput k
        endOp
        pure 0

/-! ## Processes -/

/-- `fork`'s loop over the descriptors. -/
def dupFiles (p q : Nat) : List Nat → Up Unit
  | [] => pure ()
  | fd :: fds => do
    let t ← tabs
    match (t.proc p).ofile fd with
    | none => dupFiles p q fds
    | some f => do
      filedup f
      let t ← tabs
      setTabs (t.setFd q fd (some f))
      dupFiles p q fds

/-- `fork`: the child is process `q`, the first unused one.  (`allocproc` and `uvmcopy` may find no
    memory.) -/
def fork (p : Nat) (mem : Bool) : Up Int := do
  let t ← tabs
  match (List.range NPROC).find? fun q => (t.proc q).state == .unused with
  | none => pure (-1)
  | some q =>
    if !mem then pure (-1)
    else do
      dupFiles p q (List.range NOFILE)
      match (t.proc p).cwd with
      | none => undef
      | some k => do
        idup k
        let t ← tabs
        setTabs (t.updProc q fun x =>
          { x with cwd := some k, parent := some p, state := .running })
        pure q

/-- `exit`'s loop over the descriptors. -/
def closeFiles (p : Nat) : List Nat → Up Unit
  | [] => pure ()
  | fd :: fds => do
    let t ← tabs
    match (t.proc p).ofile fd with
    | none => closeFiles p fds
    | some f => do
      fileclose f
      let t ← tabs
      setTabs (t.setFd p fd none)
      closeFiles p fds

/-- `reparent`: pass `p`'s abandoned children to init. -/
def reparent (t : Tabs) (p : Nat) : Tabs :=
  { t with proc := fun q =>
      if (t.proc q).parent = some p then { t.proc q with parent := some 0 } else t.proc q }

/-- `exit`; process 0 is `initproc`. -/
def exit (p : Nat) : Up Int :=
  if p = 0 then panic "init exiting"
  else do
    closeFiles p (List.range NOFILE)
    beginOp
    let t ← tabs
    match (t.proc p).cwd with
    | none => undef
    | some k => do
      iput k
      endOp
      let t ← tabs
      setTabs (reparent (t.updProc p fun x => { x with cwd := none, state := .zombie }) p)
      pure 0

/-- `wait`: take the first child that has exited out of the process table. -/
def wait (p : Nat) (um : UserMem) (addr : Nat) : Up Int := do
  let t ← tabs
  match (List.range NPROC).find? fun q =>
      (t.proc q).parent == some p && (t.proc q).state == .zombie with
  | some q =>
    if addr ≠ 0 ∧ um.copyout addr 4 = false then pure (-1)
    else do
      setTabs (t.updProc q fun x => { x with parent := none, state := .unused })
      pure q
  | none => if (List.range NPROC).any fun q => (t.proc q).parent == some p then block else pure (-1)

/-! ## The tests' calls -/

def sysForceFail (pbn : Int) : Up Int :=
  if (LOGICAL_DISK_SIZE : Int) ≤ pbn ∨ pbn < -1 then pure (-1)
  else do
    let _ ← Prog.op (I := Inodes) (.forceFail pbn)
    pure 0

def sysForceDiskFail (id : Int) : Up Int :=
  if id < -1 ∨ 1 < id then pure (-1)
  else do
    let _ ← Prog.op (I := Inodes) (.forceDiskFail id)
    pure 0

def sysRawRead (pbn : Int) (um : UserMem) (addr : Nat) : Up Int :=
  if pbn < 0 ∨ (FSSIZE : Int) ≤ pbn then pure (-1)
  else Prog.op (I := Inodes) (.rawRead pbn.toNat um addr)

def sysRawWrite (pbn : Int) (um : UserMem) (addr : Nat) : Up Int :=
  if pbn < 0 ∨ (FSSIZE : Int) ≤ pbn then pure (-1)
  else Prog.op (I := Inodes) (.rawWrite pbn.toNat um addr)

def sysGetDiskLbn (p : Nat) (fd lbn : Int) : Up Int := do
  let t ← tabs
  match t.argfd p fd with
  | none => pure (-1)
  | some (_, f) =>
    if !(t.file f).readable then pure (-1)
    else do
      let k ← ilockPtr (t.file f).ip
      let b ← bmap k (toUint lbn)
      iunlock k
      pure b

end Up

/-! ## System calls -/

/-- The calls that act on the file system, with process `p` as the caller. -/
inductive Syscall
  | open (p : Nat) (path : Option Path) (omode : Nat)
  | close (p : Nat) (fd : Int)
  | dup (p : Nat) (fd : Int)
  | read (p : Nat) (fd : Int) (um : UserMem) (addr : Nat) (n con : Int)
  | write (p : Nat) (fd : Int) (um : UserMem) (addr : Nat) (n con : Int)
  | fstat (p : Nat) (fd : Int) (um : UserMem) (addr : Nat)
  | link (p : Nat) (old new : Option Path)
  | unlink (p : Nat) (path : Option Path)
  | mkdir (p : Nat) (path : Option Path)
  | mknod (p : Nat) (path : Option Path) (major minor : Int)
  | symlink (p : Nat) (target path : Option Path)
  | chdir (p : Nat) (path : Option Path)
  | chmod (p : Nat) (path : Option Path) (mode : Nat) (isAdd recursive : Bool) (depth : Nat)
  | pipe (p : Nat) (um : UserMem) (addr : Nat) (mem : Bool)
  | exec (p : Nat) (path : Option Path) (argv pt : Bool) (mem : Nat → Bool) (ret : Int)
  | fork (p : Nat) (mem : Bool)
  | exit (p : Nat)
  | wait (p : Nat) (um : UserMem) (addr : Nat)
  | rawRead (p : Nat) (pbn : Int) (um : UserMem) (addr : Nat)
  | rawWrite (p : Nat) (pbn : Int) (um : UserMem) (addr : Nat)
  | getDiskLbn (p : Nat) (fd lbn : Int)
  | forceFail (p : Nat) (pbn : Int)
  | forceDiskFail (p : Nat) (id : Int)

namespace Syscall

/-- The calling process. -/
def caller : Syscall → Nat
  | .open p .. | close p _ | dup p _ | read p .. | write p .. | fstat p .. | link p .. | unlink p _
  | mkdir p _ | mknod p .. | symlink p .. | chdir p _ | chmod p .. | pipe p .. | exec p ..
  | fork p _ | exit p | wait p .. | rawRead p .. | rawWrite p .. | getDiskLbn p ..
  | forceFail p _ | forceDiskFail p _ => p

/-- The program behind each call. -/
def code : Syscall → Up Int
  | .open p path omode => Up.sysOpen p path omode
  | close p fd => Up.sysClose p fd
  | dup p fd => Up.sysDup p fd
  | read p fd um addr n con => Up.sysRead p fd um addr n con
  | write p fd um addr n con => Up.sysWrite p fd um addr n con
  | fstat p fd um addr => Up.sysFstat p fd um addr
  | link p old new => Up.sysLink p old new
  | unlink p path => Up.sysUnlink p path
  | mkdir p path => Up.sysMkdir p path
  | mknod p path major minor => Up.sysMknod p path major minor
  | symlink p target path => Up.sysSymlink p target path
  | chdir p path => Up.sysChdir p path
  | chmod p path mode isAdd recursive depth =>
    match path with
    | none => pure (-1)
    | some path => Up.chperm p mode isAdd recursive depth path.bytes
  | pipe p um addr mem => Up.sysPipe p um addr mem
  | exec p path argv pt mem ret => Up.sysExec p path argv pt mem ret
  | fork p mem => Up.fork p mem
  | exit p => Up.exit p
  | wait p um addr => Up.wait p um addr
  | rawRead _ pbn um addr => Up.sysRawRead pbn um addr
  | rawWrite _ pbn um addr => Up.sysRawWrite pbn um addr
  | getDiskLbn p fd lbn => Up.sysGetDiskLbn p fd lbn
  | forceFail _ pbn => Up.sysForceFail pbn
  | forceDiskFail _ id => Up.sysForceDiskFail id

end Syscall

namespace Kern

/-- One inode-layer call, run on the machine. -/
def icall (sb : Superblock) (o : Icall) (s : Kern) : Except Err (o.Res × Kern) :=
  (o.code sb).run (I := Blocks) serve s

/-- A system call, run to its end. -/
def syscall (sb : Superblock) (c : Syscall) (s : Kern) : Except Err (Int × Kern) :=
  c.code.run (I := Inodes) (icall sb) s

theorem syscall_eq (sb : Superblock) (c : Syscall) (s : Kern) :
    s.syscall sb c = (c.code.code sb).run serve s :=
  (Prog.run_expand (I := Inodes) (J := Blocks) serve (Icall.code sb) c.code s).symm

/-- From `s` to `s'` by completed system calls, whose block calls all met `G`. -/
inductive Runs (sb : Superblock) (G : Bcall → Kern → Prop) : Kern → Kern → Prop
  | nil (s : Kern) : Runs sb G s s
  | call {s s1 s' : Kern} {c : Syscall} {r : Int} (hruns : Runs sb G s s1)
      (hG : (c.code.code sb).Guarded (I := Blocks) serve G s1)
      (hr : s1.syscall sb c = .ok (r, s')) : Runs sb G s s'

/-- From `s` to a state in the middle of a system call, after completed ones. -/
def Reaches (sb : Superblock) (G : Bcall → Kern → Prop) (s s' : Kern) : Prop :=
  ∃ (s1 : Kern) (c : Syscall), Runs sb G s s1 ∧ (c.code.code sb).Visits (I := Blocks) serve G s1 s'

end Kern

end Xv6
