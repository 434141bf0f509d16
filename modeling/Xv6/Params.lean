/-
  The kernel's constants (`kernel/param.h`, `kernel/fs.h`, `kernel/stat.h`, `kernel/fcntl.h`) and
  its 32-bit counters.  A counter is a natural number below `2 ^ 32` and `inc32`/`dec32` are C's
  `++`/`--` on an `unsigned int`, so that a decrement of `0` is VISIBLE as `2 ^ 32 - 1`.
-/
import Xv6.Lib.Bytes

namespace Xv6

/-! ## `param.h` -/

/-- Max # of blocks any FS op writes. -/
def MAXOPBLOCKS : Nat := 10
/-- Max data blocks in on-disk log. -/
def LOGSIZE : Nat := MAXOPBLOCKS * 3
/-- Size of disk block cache. -/
def NBUF : Nat := MAXOPBLOCKS * 3
/-- Maximum number of active i-nodes. -/
def NINODE : Nat := 50
/-- Maximum number of processes. -/
def NPROC : Nat := 64
/-- Open files per process. -/
def NOFILE : Nat := 16
/-- Open files per system. -/
def NFILE : Nat := 100
/-- Maximum major device number. -/
def NDEV : Nat := 10
/-- Device number of file system root disk. -/
def ROOTDEV : Nat := 1
/-- Size of file system in blocks. -/
def FSSIZE : Nat := 4096
/-- The blocks of one of the two simulated disks. -/
def LOGICAL_DISK_SIZE : Nat := FSSIZE / 2
/-- Maximum file path name. -/
def MAXPATH : Nat := 128

/-! ## `fs.h` -/

/-- Block size. -/
def BSIZE : Nat := 1024
/-- Root i-number. -/
def ROOTINO : Nat := 1
def NDIRECT : Nat := 12
def NINDIRECT : Nat := BSIZE / 4
def MAXFILE : Nat := NDIRECT + NINDIRECT

/-- Inodes per block: `sizeof(struct dinode)` is 64. -/
def IPB : Nat := BSIZE / 64
/-- Bitmap bits per block. -/
def BPB : Nat := BSIZE * 8
/-- Bytes of a name in a directory entry. -/
def DIRSIZ : Nat := 14
/-- `sizeof(struct dirent)`: a 16-bit inode number and the name. -/
def DIRENT : Nat := 16

/-- The contents of a disk block. -/
abbrev Block := Bytes

/-! ## `stat.h`, `fcntl.h`, `riscv.h` -/

/-- Directory. -/
def T_DIR : Nat := 1
/-- File. -/
def T_FILE : Nat := 2
/-- Device. -/
def T_DEVICE : Nat := 3
/-- Symbolic link. -/
def T_SYMLINK : Nat := 4

def M_READ : Nat := 1
def M_WRITE : Nat := 2
def M_ALL : Nat := 3

def O_RDONLY : Nat := 0
def O_WRONLY : Nat := 1
def O_RDWR : Nat := 2
def O_CREATE : Nat := 512
def O_TRUNC : Nat := 1024

/-- The only device with a driver. -/
def CONSOLE : Nat := 1

/-- Bytes per page. -/
def PGSIZE : Nat := 4096

/-! ## `pipe.c`, `elf.h` -/

/-- Bytes a pipe holds. -/
def PIPESIZE : Nat := 512

def ELF_MAGIC : Nat := 1179403647
def ELF_PROG_LOAD : Nat := 1
/-- `sizeof(struct elfhdr)`. -/
def ELFHDR : Nat := 64
/-- `sizeof(struct proghdr)`. -/
def PROGHDR : Nat := 56

/-! ## 32-bit integers -/

/-- A value passed as an `int`. -/
def toInt (n : Nat) : Int :=
  if n % 4294967296 < 2147483648 then (n % 4294967296 : Nat)
  else (n % 4294967296 : Nat) - 4294967296

/-- `x++` on an `unsigned int`. -/
def inc32 (x : Nat) : Nat := (x + 1) % 4294967296

/-- `x--` on an `unsigned int`. -/
def dec32 (x : Nat) : Nat := (x + 4294967295) % 4294967296

theorem inc32_of_lt {x : Nat} (h : x + 1 < 4294967296) : inc32 x = x + 1 := Nat.mod_eq_of_lt h

theorem dec32_succ {x : Nat} (h : x < 4294967296) : dec32 (x + 1) = x := by
  unfold dec32; omega

end Xv6
