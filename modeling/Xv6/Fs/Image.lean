/-
  A FRESH FILE SYSTEM: the image `mkfs` (`mkfs/mkfs.c`) writes for one input file, a file `a` that
  holds the one byte `A`, and the kernel's memory when the first process starts.

  The geometry is `mkfs`'s own: 2048 blocks, 200 inodes, a log of `LOGSIZE` blocks.  Runs on fixed
  inputs start here.
-/
import Xv6.Fs.Sysfile

namespace Xv6

open Bytes

/-- The super block of every image. -/
def mkfsSb : Superblock where
  size := LOGICAL_DISK_SIZE
  ninodes := 200
  nlog := LOGSIZE
  logstart := 2
  inodestart := 2 + LOGSIZE
  bmapstart := 2 + LOGSIZE + (200 / IPB + 1)

/-- Inode 1, the root; its size is rounded up to whole blocks. -/
def rootInode : Dinode := ⟨T_DIR, 1, BSIZE, fun j => if j = 0 then 46 else 0, 3, 3⟩

/-- Inode 2, the file `a`. -/
def fileInode : Dinode := ⟨T_FILE, 1, 1, fun j => if j = 0 then 47 else 0, 3, 3⟩

/-- The blocks of the image.  (The kernel's copy of block 1 is `mkfsSb`.) -/
def mkfsDisk : Nat → Block := fun b =>
  if b = 32 then Dinode.put (Dinode.put (fun _ => 0) 1 rootInode) 2 fileInode
  else if b = 45 then fun i => if i < 6 then 255 else 0
  else if b = 46 then
    blit (blit (blit (fun _ => 0) 0 16 (dirent 1 [46])) 16 16 (dirent 1 [46, 46])) 32 16 (dirent 2 [97])
  else if b = 47 then fun i => if i = 0 then 65 else 0
  else fun _ => 0

/-- Zeroed memory, but for `initproc`'s current directory, the root. -/
def bootMem : Mem where
  icache k := ⟨if k = 0 then ROOTINO else 0, if k = 0 then 1 else 0, false, false, 0, 0, Dinode.zero⟩
  tabs :=
    { file := fun _ => ⟨.none, 0, false, false, 0, none, 0, 0⟩
      proc := fun p => if p = 0 then ⟨.running, none, fun _ => none, some 0⟩
        else ⟨.unused, none, fun _ => none, none⟩
      pipe := fun _ => ⟨fun _ => 0, 0, 0, false, false⟩ }

/-- The kernel after boot from a disk. -/
def bootKern (sb : Superblock) (d : Nat → Block) : Except Err Kern := do
  let m ← initlog (bootMach 1 d) sb.logstart sb.nlog
  pure ⟨m, bootMem⟩

/-- Run system calls one after the other; what they returned. -/
def Kern.syscalls (sb : Superblock) : List Syscall → Kern → Except Err (List Int × Kern)
  | [], s => .ok ([], s)
  | c :: cs, s => do
    let (r, s) ← s.syscall sb c
    let (rs, s) ← syscalls sb cs s
    pure (r :: rs, s)

/-- Run system calls and test every block call they make. -/
def Kern.checkAll (sb : Superblock) (g : Bcall → Kern → Bool) : List Syscall → Kern → Option Kern
  | [], s => some s
  | c :: cs, s =>
    match (c.code.code sb).check (I := Blocks) serve g s with
    | some (_, s) => checkAll sb g cs s
    | none => none

theorem Kern.checkAll_runs {sb : Superblock} {g : Bcall → Kern → Bool} {G : Bcall → Kern → Prop}
    (hg : ∀ o s, g o s = true → G o s) {cs : List Syscall} {s0 s s' : Kern} (h : Runs sb G s0 s)
    (hc : checkAll sb g cs s = some s') : Runs sb G s0 s' := by
  induction cs generalizing s with
  | nil =>
    obtain rfl := Option.some.inj hc
    exact h
  | cons c cs ih =>
    rw [checkAll] at hc
    split at hc
    · next r s1 hr =>
      obtain ⟨hrun, hG⟩ := Prog.check_sound hg hr
      exact ih (h.call hG ((syscall_eq sb c s).trans hrun)) hc
    · cases hc

/-- The caller is a running process of the table. -/
def Kern.Live (c : Syscall) (s : Kern) : Prop :=
  c.caller < NPROC ∧ (s.mem.tabs.proc c.caller).state = .running

instance (c : Syscall) (s : Kern) : Decidable (Kern.Live c s) :=
  inferInstanceAs (Decidable (_ ∧ _))

/-- The states between system calls.  Every call was one that `P` allows in the state it was made in,
    and ran to its end. -/
inductive Kern.History (sb : Superblock) (P : Syscall → Kern → Prop) (s0 : Kern) : Kern → Prop
  | nil : History sb P s0 s0
  | call {s s' : Kern} {c : Syscall} {r : Int} (h : History sb P s0 s) (hc : P c s)
      (hr : s.syscall sb c = .ok (r, s')) : History sb P s0 s'

/-- **Induction over a history**: what one system call preserves. -/
theorem Kern.History.invariant {sb : Superblock} {P : Syscall → Kern → Prop} {s0 s : Kern}
    {I : Kern → Prop} (h : History sb P s0 s) (h0 : I s0)
    (hstep : ∀ {s s' : Kern} {c : Syscall} {r : Int}, I s → P c s → s.syscall sb c = .ok (r, s') →
      I s') : I s := by
  induction h with
  | nil => exact h0
  | call _ hc hr ih => exact hstep ih hc hr

/-- Run system calls, and test each before it is made. -/
def Kern.follow (sb : Superblock) (P : Syscall → Kern → Prop) [∀ c s, Decidable (P c s)] :
    List Syscall → Kern → Option Kern
  | [], s => some s
  | c :: cs, s =>
    if P c s then
      match s.syscall sb c with
      | .ok (_, s) => follow sb P cs s
      | .error _ => none
    else none

theorem Kern.follow_history {sb : Superblock} {P : Syscall → Kern → Prop}
    [∀ c s, Decidable (P c s)] {cs : List Syscall} {s0 s s' : Kern} (h : History sb P s0 s)
    (hf : follow sb P cs s = some s') : History sb P s0 s' := by
  induction cs generalizing s with
  | nil =>
    obtain rfl := Option.some.inj hf
    exact h
  | cons c cs ih =>
    rw [follow] at hf
    split at hf
    · next hc =>
      split at hf
      · next r s1 hr => exact ih (h.call hc hr) hf
      · cases hf
    · cases hf

/-- The path of the file. -/
def pathA : Path := ⟨[97], by simp, by decide⟩

/-- One page of user memory, at address 0, filled with `B`. -/
def onePage : UserMem :=
  ⟨fun p => if p = 0 then some fun _ => 66 else none, fun p hp => if_neg (by omega)⟩

end Xv6
