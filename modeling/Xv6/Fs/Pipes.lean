/-
  PIPE I/O AND THE `ip` FIELD: what `sys_read` and `sys_write` do to a pipe.

  Both calls test `f->ip->perm` before they ask what kind of file `f` is.  A pipe has no inode;
  `pipealloc` leaves `ip` as the slot's last user left it, and in a slot never used it is null.  So
  the test reads an inode the pipe has nothing to do with, or dereferences the null pointer.

  `pipe_io_iff` says exactly when the calls are `piperead` and `pipewrite` all the same: when the
  slot's old inode happens to pass the test — and, for a write, also when `pipewrite` would have
  returned -1 at once anyway.
-/
import Xv6.Fs.Image

namespace Xv6

open Prog Bytes

variable {con n : Int} {s : Kern} {d f i p : Nat} {x : Pipe} {sb : Superblock} {um : UserMem}

namespace Kern

/-- Run code above the inode layer. -/
def up {α : Type} (sb : Superblock) (p : Up α) (s : Kern) : Except Err (α × Kern) :=
  p.run (I := Inodes) (icall sb) s

/-- The test of `sys_read` and `sys_write` lets file `f` pass: its `ip` is not null and the inode
    in that entry has the permission `bit`. -/
def Admits (s : Kern) (f bit : Nat) : Prop :=
  ∃ k, (s.mem.tabs.file f).ip = some k ∧ (s.mem.icache k).din.perm &&& bit ≠ 0

end Kern

/-- The pipe is full and nobody will read from it. -/
def Pipe.Broken (x : Pipe) : Prop :=
  x.nwrite = (x.nread + PIPESIZE) % 4294967296 ∧ x.readopen = false

/-! ## The two loops -/

namespace Pipe

/-- `pipewrite` returns -1 only from a pipe that is full and has no reader. -/
theorem writeFrom_broken {addr n : Nat}
    (h : (x.writeFrom um addr n i).1 = some (-1)) :
    0 < n ∧ (x.writeFrom um addr n i).2.Broken := by
  induction n generalizing i x with
  | zero =>
    have : (i : Int) = -1 := Option.some.inj h
    omega
  | succ n ih =>
    refine ⟨Nat.succ_pos n, ?_⟩
    rw [writeFrom] at h ⊢
    split
    · next hfull =>
      rw [if_pos hfull] at h
      refine ⟨hfull, ?_⟩
      cases hr : x.readopen with
      | false => rfl
      | true => simp [hr] at h
    · grind

theorem writeFrom_of_broken {addr n : Nat} (hn : 0 < n)
    (hx : x.Broken) : x.writeFrom um addr n i = (some (-1), x) := by
  obtain ⟨m, rfl⟩ := Nat.exists_eq_succ_of_ne_zero (Nat.pos_iff_ne_zero.mp hn)
  rw [writeFrom, if_pos hx.1, hx.2]
  rfl

end Pipe

/-! ## The calls on the tables -/

namespace Up

variable {α : Type}

theorem run_tabs (f : Tabs → Up α) : s.up sb (tabs >>= f) = s.up sb (f s.mem.tabs) := rfl

theorem run_piperead (sb : Superblock) (s : Kern) (pi : Nat) (um : UserMem) (addr : Nat) (n : Int) :
    s.up sb (piperead pi um addr n) = .error .blocked ∨
      ∃ (i : Nat) (s' : Kern), s.up sb (piperead pi um addr n) = .ok ((i : Int), s') := by
  rw [piperead, run_tabs]
  dsimp only
  split
  · exact .inl rfl
  · exact .inr ⟨_, _, rfl⟩

theorem run_pipewrite (sb : Superblock) (s : Kern) (pi : Nat) (um : UserMem) (addr : Nat) (n : Int) :
    (((s.mem.tabs.pipe pi).writeFrom um addr n.toNat 0).1 = none ∧
      s.up sb (pipewrite pi um addr n) = .error .blocked) ∨
    ∃ v, ((s.mem.tabs.pipe pi).writeFrom um addr n.toNat 0).1 = some v ∧
      s.up sb (pipewrite pi um addr n) = .ok (v, { s with mem := { s.mem with
        tabs := s.mem.tabs.updPipe pi fun _ =>
          ((s.mem.tabs.pipe pi).writeFrom um addr n.toNat 0).2 } }) := by
  rw [pipewrite, run_tabs]
  dsimp only
  split
  · next h => exact .inl ⟨h, rfl⟩
  · next v h => exact .inr ⟨v, h, rfl⟩

/-- `pipewrite` returns -1 and changes nothing exactly on a full pipe without a reader. -/
theorem run_pipewrite_fails {pi : Nat} {addr : Nat} :
    s.up sb (pipewrite pi um addr n) = .ok (-1, s) ↔ 0 < n ∧ (s.mem.tabs.pipe pi).Broken := by
  rcases run_pipewrite sb s pi um addr n with ⟨hsleep, hrun⟩ | ⟨v, hv, hrun⟩
  · grind [Pipe.writeFrom_of_broken]
  rw [hrun]
  constructor
  · intro h
    obtain ⟨rfl, hs⟩ := Prod.mk.inj (Except.ok.inj h)
    obtain ⟨hn, hb⟩ := Pipe.writeFrom_broken hv
    -- the pipe in the state after the call is the pipe before it
    have hpipe := congrArg (fun s : Kern => s.mem.tabs.pipe pi) hs
    simp only [Tabs.updPipe, Function.update_self] at hpipe
    rw [hpipe] at hb
    exact ⟨by omega, hb⟩
  · rintro ⟨hn, hb⟩
    rw [Pipe.writeFrom_of_broken (show 0 < n.toNat by omega) hb] at hv ⊢
    obtain rfl := Option.some.inj hv
    simp [Tabs.updPipe]

/-! ## The test comes first -/

variable {k : Nat} {fd : Int} {addr : Nat}

section

variable (hfd : s.mem.tabs.argfd p fd = some (d, f))
include hfd

theorem run_null
    (hip : (s.mem.tabs.file f).ip = none) :
    s.up sb (sysRead p fd um addr n con) = .error .undef ∧
      s.up sb (sysWrite p fd um addr n con) = .error .undef := by
  rw [sysRead, sysWrite, run_tabs, run_tabs, hfd]
  dsimp only
  rw [hip]
  exact ⟨rfl, rfl⟩

/-- `sys_read` on the read end of a pipe whose slot has some `ip`. -/
theorem run_sysRead
    (htype : (s.mem.tabs.file f).type = .pipe) (hread : (s.mem.tabs.file f).readable = true)
    (hip : (s.mem.tabs.file f).ip = some k) :
    s.up sb (sysRead p fd um addr n con) =
      if (s.mem.icache k).din.perm &&& M_READ = 0 then .ok (-1, s)
      else s.up sb (piperead (s.mem.tabs.file f).pipe um addr n) := by
  have hfile : s.up sb (fileread f um addr n con) =
      s.up sb (piperead (s.mem.tabs.file f).pipe um addr n) := by
    rw [fileread, run_tabs]
    dsimp only
    rw [hread, htype]
    rfl
  rw [← hfile, sysRead, run_tabs, hfd]
  dsimp only
  rw [hip]
  show s.up sb (if (s.mem.icache k).din.perm &&& M_READ = 0 then pure (-1)
    else fileread f um addr n con) = _
  split <;> rfl

/-- `sys_write` on the write end of a pipe whose slot has some `ip`. -/
theorem run_sysWrite
    (htype : (s.mem.tabs.file f).type = .pipe) (hwrite : (s.mem.tabs.file f).writable = true)
    (hip : (s.mem.tabs.file f).ip = some k) :
    s.up sb (sysWrite p fd um addr n con) =
      if (s.mem.icache k).din.perm &&& M_WRITE = 0 then .ok (-1, s)
      else s.up sb (pipewrite (s.mem.tabs.file f).pipe um addr n) := by
  have hfile : s.up sb (filewrite f um addr n con) =
      s.up sb (pipewrite (s.mem.tabs.file f).pipe um addr n) := by
    rw [filewrite, run_tabs]
    dsimp only
    rw [hwrite, htype]
    rfl
  rw [← hfile, sysWrite, run_tabs, hfd]
  dsimp only
  rw [hip]
  show s.up sb (if (s.mem.icache k).din.perm &&& M_WRITE = 0 then pure (-1)
    else filewrite f um addr n con) = _
  split <;> rfl

end

end Up

/-! ## When pipe I/O is pipe I/O -/

section Main

variable {fd : Int} {addr : Nat}

theorem read_is_piperead (hfd : s.mem.tabs.argfd p fd = some (d, f))
    (htype : (s.mem.tabs.file f).type = .pipe) (hread : (s.mem.tabs.file f).readable = true) :
    s.syscall sb (.read p fd um addr n con) =
        s.up sb (Up.piperead (s.mem.tabs.file f).pipe um addr n) ↔ s.Admits f M_READ := by
  -- `piperead` neither faults nor returns -1
  have hr := Up.run_piperead sb s (s.mem.tabs.file f).pipe um addr n
  show s.up sb (Up.sysRead p fd um addr n con) = _ ↔ ∃ k, _
  cases hip : (s.mem.tabs.file f).ip with
  | none =>
    grind [Up.run_null]
  | some k =>
    grind [Up.run_sysRead]

theorem write_is_pipewrite (hfd : s.mem.tabs.argfd p fd = some (d, f))
    (htype : (s.mem.tabs.file f).type = .pipe) (hwrite : (s.mem.tabs.file f).writable = true) :
    s.syscall sb (.write p fd um addr n con) =
        s.up sb (Up.pipewrite (s.mem.tabs.file f).pipe um addr n) ↔
      s.Admits f M_WRITE ∨ (s.mem.tabs.file f).ip ≠ none ∧ 0 < n ∧
        (s.mem.tabs.pipe (s.mem.tabs.file f).pipe).Broken := by
  show s.up sb (Up.sysWrite p fd um addr n con) = _ ↔ (∃ k, _) ∨ _
  cases hip : (s.mem.tabs.file f).ip with
  | none =>
    rw [(Up.run_null hfd hip).2]
    constructor
    · intro h
      rcases Up.run_pipewrite sb s (s.mem.tabs.file f).pipe um addr n with
        ⟨-, hr⟩ | ⟨v, -, hr⟩
      · cases h.trans hr
      · cases h.trans hr
    · rintro (⟨k, hk, -⟩ | ⟨h, -⟩)
      · cases hk
      · exact absurd rfl h
  | some k =>
    rw [Up.run_sysWrite hfd htype hwrite hip]
    split
    · grind [Up.run_pipewrite_fails]
    · next hperm => exact ⟨fun _ => .inl ⟨k, rfl, hperm⟩, fun _ => rfl⟩

end Main

/-- **Pipe I/O**, in any state, whatever the history of the file table: `sys_read` on a read end is
    `piperead`, and `sys_write` on a write end is `pipewrite`, exactly if the inode left in the slot
    passes the permission test (or there was nothing for the test to get in the way of). -/
theorem pipe_io_iff (sb : Superblock) (s : Kern) (p d f : Nat) (fd : Int) (um : UserMem)
    (addr : Nat) (n con : Int) (hfd : s.mem.tabs.argfd p fd = some (d, f))
    (htype : (s.mem.tabs.file f).type = .pipe) :
    ((s.mem.tabs.file f).readable = true →
      (s.syscall sb (.read p fd um addr n con) =
          s.up sb (Up.piperead (s.mem.tabs.file f).pipe um addr n) ↔ s.Admits f M_READ)) ∧
    ((s.mem.tabs.file f).writable = true →
      (s.syscall sb (.write p fd um addr n con) =
          s.up sb (Up.pipewrite (s.mem.tabs.file f).pipe um addr n) ↔
        s.Admits f M_WRITE ∨ (s.mem.tabs.file f).ip ≠ none ∧ 0 < n ∧
          (s.mem.tabs.pipe (s.mem.tabs.file f).pipe).Broken)) :=
  ⟨read_is_piperead hfd htype, write_is_pipewrite hfd htype⟩

/-- A kernel that never ran, with one pipe in slots 0 and 1; the slots still point to the entry of
    an inode with permission `perm`. -/
def pipeKern (ip : Option Nat) (perm : Nat) : Kern where
  mach := bootMach 1 mkfsDisk
  mem :=
    { icache := fun k => { bootMem.icache k with din := { Dinode.zero with perm := perm } }
      tabs :=
        { file := fun f =>
            if f = 0 then ⟨.pipe, 1, true, false, 0, ip, 0, 0⟩
            else if f = 1 then ⟨.pipe, 1, false, true, 0, ip, 0, 0⟩
            else bootMem.tabs.file f
          proc := fun p =>
            if p = 0 then ⟨.running, none, fun fd => if fd < 2 then some fd else none, some 0⟩
            else bootMem.tabs.proc p
          pipe := fun pi => ⟨fun _ => 0, 0, 0, pi == 0, pi == 0⟩ } }

/-- A read end whose slot still points to an inode without `M_READ`: the read is no `piperead`. -/
theorem pipe_io_iff_unreadable :
    (pipeKern (some 3) 0).syscall mkfsSb (.read 0 0 onePage 0 1 0) ≠
      (pipeKern (some 3) 0).up mkfsSb (Up.piperead 0 onePage 0 1) := by
  have h := (pipe_io_iff mkfsSb (pipeKern (some 3) 0) 0 0 0 0 onePage 0 1 0 rfl rfl).1 rfl
  intro heq
  obtain ⟨k, hk, hp⟩ := h.mp heq
  obtain rfl := Option.some.inj hk
  exact hp rfl

/-- `pipe()` as the first call after boot. -/
def pipeRun : Except Err (List Int × Kern) := do
  let s ← bootKern mkfsSb mkfsDisk
  s.syscalls mkfsSb [.pipe 0 onePage 0 true]

/-- The pipe of `pipeRun` takes a byte, but `sys_write` on its write end dereferences null. -/
def pipeProbe (s : Kern) : Bool :=
  s.mem.tabs.argfd 0 1 == some (1, 1) && (s.mem.tabs.file 1).type == .pipe &&
    (s.mem.tabs.file 1).writable &&
    (match s.syscall mkfsSb (.write 0 1 onePage 0 1 0) with
      | .error .undef => true
      | _ => false) &&
    (match s.up mkfsSb (Up.pipewrite (s.mem.tabs.file 1).pipe onePage 0 1) with
      | .ok (r, _) => r == 1
      | .error _ => false)

/-- **A byte written to a fresh pipe**: the program makes a pipe and writes to it.  `pipewrite` would
    take the byte; `sys_write` follows the null `ip` of a slot that never held an inode. -/
theorem pipe_write_follows_null :
    pipeRun.toOption.map (fun r => (r.1, pipeProbe r.2)) = some ([0], true) := by
  decide +kernel

end Xv6
