/-
  THE INODE CACHE AS THE CALLS OF THE INODE LAYER MOVE IT.

  `Icache.spec` is the specification of `Icall` on the kernel's memory, the types of the inodes on the
  disk and the number of open operations: which references and locks a call takes or drops is exact,
  what it reads from the disk is anything.  Its demands are those of a caller who keeps his accounts:
  an entry is used while it is referenced and locked, and `iput` takes a reference that no open file
  owns.

  It comes in two strengths.  With `lim = none` nothing is known about the disk.  With `lim = some N` the
  disk can be TRUSTED: inodes have the types they were given, and directories name inodes below `N` — in
  return the caller stores nothing in a directory but whole entries of that kind.

  The code of `Xv6.Fs.Inode` serves the first on the desk of `Xv6.Fs.Discipline`: a call clears its desk
  and changes no entry but the one it is about.
-/
import Xv6.Fs.Grip
import Xv6.Lib.Tally

namespace Xv6

open Prog Tally

/-! ## Who refers to an inode or a file -/

/-- The inode an open file refers to; in a slot of another type `ip` is a leftover. -/
def File.target (x : File) : Option Nat :=
  match x.type with
  | .inode | .device => x.ip
  | .none | .pipe => none

namespace Tabs

/-- How many open files refer to each inode cache entry. -/
def files (t : Tabs) : Nat → Int := tally (Finset.range NFILE) fun f => (t.file f).target

/-- How many current directories each inode cache entry is. -/
def cwds (t : Tabs) : Nat → Int := tally (Finset.range NPROC) fun p => (t.proc p).cwd

/-- How many descriptors each file has. -/
def fds (t : Tabs) : Nat → Int :=
  tally (Finset.range NPROC ×ˢ Finset.range NOFILE) fun q => (t.proc q.1).ofile q.2

end Tabs

/-- The panics that code above the inode layer does not raise: those of misuse, and `bfree`'s. -/
def Err.ours : Err → Bool
  | .panic msg => msg ∈ ["filedup", "fileclose", "iunlock", "freeing free block"]
  | _ => false

theorem Err.misuse_of_not_ours {e : Err} (h : e.ours = false) : e.misuse = false := by
  cases e with
  | panic msg =>
    have h := of_decide_eq_false h
    simp only [List.mem_cons, List.not_mem_nil, or_false, not_or] at h
    refine decide_eq_false ?_
    simp only [List.mem_cons, List.not_mem_nil, or_false, not_or]
    exact ⟨h.1, h.2.1, h.2.2.1⟩
  | blocked => rfl
  | undef => rfl

/-! ## The specification -/

/-- A number that the limit, if there is one, allows. -/
def Within (lim : Option Nat) (i : Nat) : Prop := ∀ n, lim = some n → i < n

/-- The store is a whole directory entry, with a number that the limit allows. -/
def OneEntry (lim : Option Nat) (src : Src) (off n : Nat) : Prop :=
  ∀ N, lim = some N → ∃ d, src = .kernel d ∧ n = DIRENT ∧ off % DIRENT = 0 ∧ deInum d < N

/-- Memory, the types of the inodes on the disk, and the open operations. -/
structure Icache where
  mem : Mem
  type : Nat → Nat
  out : Int

namespace Icache

/-- The caller has locked entry `k`, and it is loaded. -/
structure Held (m : Mem) (k : Nat) : Prop where
  lt : k < NINODE
  ref : 1 ≤ (m.icache k).ref
  locked : (m.icache k).locked = true
  valid : (m.icache k).valid = true

def withMem (w : Icache) (m : Mem) : Icache := { w with mem := m }

def upd (w : Icache) (k : Nat) (f : Inode → Inode) : Icache := w.withMem (w.mem.upd k f)

@[simp] theorem upd_mem (w : Icache) (k : Nat) (f : Inode → Inode) : (w.upd k f).mem = w.mem.upd k f := rfl

/-- Entry `k` may have got another disk inode of the same type. -/
def Drifted (k : Nat) (w w' : Icache) : Prop := ∃ m, Desk.Drifted k w.mem m ∧ w' = w.withMem m

variable (lim : Option Nat)

/-- What the code has to see to at each call. -/
def Safe : Icall → Icache → Prop
  | .iget inum, _ => Within lim inum
  | .idup k, w => k < NINODE ∧ 1 ≤ (w.mem.icache k).ref
  | .ialloc type, _ => 0 < type ∧ type < 65536
  | .ilock k, _ => k < NINODE
  | .iunlock k, w => k < NINODE ∧ (w.mem.icache k).locked = true ∧ 1 ≤ (w.mem.icache k).ref
  | .iput k, w => k < NINODE ∧ w.mem.tabs.files k + 1 ≤ (w.mem.icache k).ref
  | .updNlink k x, w | .updPerm k x, w => Held w.mem k ∧ x < 65536
  | .updNew k _ _, w | .itrunc k, w | .readi k _ _ _, w => Held w.mem k
  | .writei k src off n, w => Held w.mem k ∧
    ((w.mem.icache k).din.type = T_DIR → OneEntry lim src off n)
  | .bmap k _, w => Held w.mem k ∧ lim = none
  | .setTabs t, w => ∀ k, t.files k ≤ (w.mem.icache k).ref
  | .rawRead .., w => w.out = 0
  | .rawWrite .., _ | .forceFail _, _ | .forceDiskFail _, _ => lim = none
  | .fail e, _ => e.ours = false
  | _, _ => True

/-- What a call may do to the cache. -/
def Step : (o : Icall) → Icache → o.Res → Icache → Prop
  | .iget inum, w, r, w' => ∃ m, w.mem.iget inum = some (r, m) ∧ w' = w.withMem m
  | .idup k, w, _, w' => w' = w.upd k fun ip => { ip with ref := ip.ref + 1 }
  | .ialloc type, w, r, w' => ∃ i m, Within lim i ∧ w.mem.iget i = some (r, m) ∧
    w' = { w with mem := m, type := Function.update w.type i type }
  | .ilock k, w, _, w' => 1 ≤ (w.mem.icache k).ref ∧ (w.mem.icache k).locked = false ∧
    ∃ x, ((w.mem.icache k).valid = true → x = (w.mem.icache k).din) ∧
      (lim ≠ none → x.type = w.type (w.mem.icache k).inum) ∧
      w' = w.upd k fun ip => { ip with locked := true, valid := true, din := x }
  | .iunlock k, w, _, w' => w' = w.upd k fun ip => { ip with locked := false }
  | .iput k, w, _, w' =>
    (w' = w.upd k fun ip => { ip with ref := ip.ref - 1 }) ∨
    (w.mem.icache k).ref = 1 ∧ (w.mem.icache k).locked = false ∧ ∃ x, w' =
      { w.upd k fun ip => { ip with ref := 0, valid := false, locked := false, din := x } with
        type := Function.update w.type (w.mem.icache k).inum 0 }
  | .inode k, w, r, w' => r = (w.mem.icache k).fields ∧ w' = w
  | .updNew k major minor, w, _, w' => ∃ x, x.type = (w.mem.icache k).din.type ∧
    w' = w.upd k fun ip => { ip with major := major, minor := minor, din := x }
  | .readi k _ off n, w, r, w' => Drifted k w w' ∧ ((w.mem.icache k).din.type = T_DIR →
    off % DIRENT = 0 → n = DIRENT → r.1 = DIRENT → Within lim (deInum r.2))
  | .updNlink k _, w, _, w' | .updPerm k _, w, _, w' | .itrunc k, w, _, w' | .writei k _ _ _, w, _, w'
  | .bmap k _, w, _, w' => Drifted k w w'
  | .tabs, w, r, w' => r = w.mem.tabs ∧ w' = w
  | .setTabs t, w, _, w' => w' = w.withMem { w.mem with tabs := t }
  | .beginOp, w, _, w' => w' = { w with out := w.out + 1 }
  | .endOp, w, _, w' => w' = { w with out := w.out - 1 }
  | .rawRead .., w, _, w' | .rawWrite .., w, _, w' | .forceFail _, w, _, w'
  | .forceDiskFail _, w, _, w' => w' = w
  | .fail _, _, _, _ => False

def spec : Spec Inodes Icache := ⟨Safe lim, Step lim⟩

end Icache

/-! ## The inode layer on the desk -/

namespace Desk

/-- Nothing on the desk; the rest is the cache's. -/
structure Idle (t : Desk) (w : Icache) : Prop where
  mem : t.mem = w.mem
  out : t.out = w.out
  held : ∀ b, t.held b = none

variable {neat : Prop} {t : Desk} {w : Icache} {α : Type} {k : Nat}

theorem Idle.withMem (hI : Idle t w) (m : Mem) : Idle { t with mem := m } (w.withMem m) :=
  ⟨rfl, hI.out, hI.held⟩

theorem Idle.upd (hI : Idle t w) (k : Nat) (f : Inode → Inode) :
    Idle { t with mem := t.mem.upd k f } (w.upd k f) := by
  rw [hI.mem]
  exact hI.withMem _

/-- Code that changes one disk inode in memory. -/
theorem Drifts.serves {p : Code α} (hp : Drifts neat k p) (hI : Idle t w) :
    p.wp (spec neat) (fun _ t' => ∃ w', Icache.Drifted k w w' ∧ Idle t' w') t := by
  refine wp_mono (hp t) ?_
  rintro a t' ⟨m, hm, rfl⟩
  exact ⟨w.withMem m, ⟨m, hI.mem ▸ hm, rfl⟩, hI.withMem m⟩

/-- `iget` changes only the table in memory. -/
theorem serves_iget (hI : Idle t w) (inum : Nat) : (Code.iget inum).wp (spec neat)
    (fun r t' => ∃ m, w.mem.iget inum = some (r, m) ∧ t' = { t with mem := m }) t := by
  refine wp_mem ?_
  rw [hI.mem]
  split
  · next k m' hk =>
    refine ⟨trivial, ?_⟩
    rintro ⟨⟩ t' rfl
    exact ⟨m', hk, rfl⟩
  · exact wp_fail (by decide)

theorem serves_iallocFrom (sb : Superblock) (hI : Idle t w) (type : Nat) (inums : List Nat) :
    (Code.iallocFrom sb type inums).wp (spec neat)
      (fun r t' => ∃ i m, w.mem.iget i = some (r, m) ∧ t' = { t with mem := m }) t := by
  induction inums with
  | nil => exact wp_fail (by decide)
  | cons inum inums ih =>
    refine wp_bread fun d hn => wp_data ?_
    split
    · exact wp_store (wp_logWrite (wp_brelse hn (wp_mono (serves_iget hI inum) fun r t' h => ⟨inum, h⟩)))
    · exact wp_brelse hn ih

/-- `ilock` is its step, with the disk read if need be. -/
theorem serves_ilock (sb : Superblock) (hI : Idle t w) (k : Nat) : (Code.ilock sb k).wp (spec neat)
    (fun r t' => ∃ w', Icache.Step none (.ilock k) w r w' ∧ Idle t' w') t := by
  refine wp_mem ?_
  rw [hI.mem]
  dsimp only
  split
  · exact wp_fail (by decide)
  next href =>
  have href : 1 ≤ (w.mem.icache k).ref := by omega
  split
  · exact wp_fail (by decide)
  next hfree =>
  have hfree : (w.mem.icache k).locked = false := Bool.eq_false_iff.mpr hfree
  refine ⟨trivial, ?_⟩
  rintro ⟨⟩ t' rfl
  split
  · next hv =>
    refine ⟨_, ⟨href, hfree, (w.mem.icache k).din, fun _ => rfl, fun h => absurd rfl h, rfl⟩, ?_⟩
    refine ⟨?_, hI.out, hI.held⟩
    simp only [Icache.upd_mem]
    refine Mem.upd_congr ?_
    rw [hv]
  · next hv =>
    refine wp_bread fun d hn => wp_data (wp_brelse hn (wp_modify ?_))
    dsimp only
    rw [Mem.upd_upd]
    split
    · exact wp_fail (by decide)
    · exact ⟨_, ⟨href, hfree, _, fun h => absurd h hv, fun h => absurd rfl h, rfl⟩, hI.withMem _⟩

/-- `iput` is its step, the freeing included. -/
theorem serves_iput (sb : Superblock) (hI : Idle t w) (k : Nat) : (Code.iput sb k).wp (spec neat)
    (fun r t' => ∃ w', Icache.Step none (.iput k) w r w' ∧ Idle t' w') t := by
  refine wp_mem ?_
  rw [hI.mem]
  dsimp only
  split
  · next hdying =>
    split
    · exact wp_fail (by decide)
    next hfree =>
    have hfree : (w.mem.icache k).locked = false := Bool.eq_false_iff.mpr hfree
    -- the lock is taken and dropped again around the truncation
    rw [Code.ifree, Prog.bind_assoc]
    refine wp_modify ?_
    rw [Prog.bind_assoc]
    refine (drifts_itrunc sb k).step fun _ m hm => ?_
    obtain ⟨x, -, rfl⟩ := hm
    rw [Prog.bind_assoc]
    refine wp_modify ?_
    rw [Prog.bind_assoc]
    refine (still_iupdate sb k).step fun _ => wp_modify ?_
    rw [← Prog.bind_ret (Code.modify ..)]
    refine wp_modify ⟨_, .inr ⟨hdying.1, hfree, { x with type := 0 }, rfl⟩, ?_, hI.out, hI.held⟩
    rw [hI.mem]
    simp only [Mem.setDin, Mem.upd_upd, Icache.upd_mem]
    refine Mem.upd_congr ?_
    rw [hdying.1]
    rfl
  · rw [← Prog.bind_ret (Code.modify ..)]
    exact wp_modify ⟨_, .inl rfl, hI.upd k _⟩

/-- **The inode layer serves the cache's specification**, whatever the disk contains.  Only `iunlock` and
    failures rest on what the caller has established, and on a neat run not even they. -/
theorem icall_serves (sb : Superblock) (o : Icall) (hI : Idle t w)
    (hsafe : neat ∨ Icache.Safe none o w) : (Icall.code sb o).wp (spec neat)
      (fun r t' => ∃ w', Icache.Step none o w r w' ∧ Idle t' w') t := by
  cases o with
  | iget inum =>
    refine wp_mono (serves_iget hI inum) ?_
    rintro r t' ⟨m, hm, rfl⟩
    exact ⟨_, ⟨m, hm, rfl⟩, hI.withMem m⟩
  | idup k =>
    rw [show Icall.code sb (.idup k) = Code.modify k _ from rfl, ← Prog.bind_ret (Code.modify ..)]
    exact wp_modify ⟨_, rfl, hI.upd k _⟩
  | ialloc type =>
    refine wp_mono (serves_iallocFrom sb hI type _) ?_
    rintro r t' ⟨i, m, hm, rfl⟩
    exact ⟨_, ⟨i, m, fun _ h => (by cases h), hm, rfl⟩, rfl, hI.out, hI.held⟩
  | ilock k => exact serves_ilock sb hI k
  | iunlock k =>
    refine wp_mem ?_
    rw [hI.mem]
    split
    · next hbad =>
      refine ⟨hsafe.imp_right fun h => absurd hbad ?_, fun r _ _ => nomatch r⟩
      simpa [h.2.1] using h.2.2
    · refine ⟨trivial, ?_⟩
      rintro ⟨⟩ t' rfl
      exact ⟨_, rfl, hI.withMem _⟩
  | iput k => exact serves_iput sb hI k
  | inode k =>
    refine wp_mem ⟨w, ⟨?_, rfl⟩, hI⟩
    rw [hI.mem]
  | updNlink k x =>
    exact ((Drifts.modify (fun d => { d with nlink := x }) fun _ => rfl).bind fun _ =>
      (still_iupdate sb k).drifts k).serves hI
  | updPerm k x =>
    exact ((Drifts.modify (fun d => { d with perm := x }) fun _ => rfl).bind fun _ =>
      (still_iupdate sb k).drifts k).serves hI
  | updNew k major minor =>
    refine wp_modify (wp_mono (still_iupdate sb k _) ?_)
    rintro r t' rfl
    refine ⟨_, ⟨{ (w.mem.icache k).din with nlink := 1 }, rfl, rfl⟩, ?_⟩
    rw [hI.mem]
    exact hI.withMem _
  | itrunc k => exact (drifts_itrunc sb k).serves hI
  | readi k dst off n =>
    refine wp_mono ((drifts_readi sb k dst off n).serves hI) ?_
    rintro r t' ⟨w', hw', hI'⟩
    exact ⟨w', ⟨hw', fun _ _ _ _ _ h => (by cases h)⟩, hI'⟩
  | writei k src off n => exact (drifts_writei sb k src off n).serves hI
  | bmap k bn => exact (drifts_bmap sb k bn).serves hI
  | beginOp =>
    refine ⟨trivial, ?_⟩
    rintro ⟨⟩ t' rfl
    exact ⟨_, rfl, hI.mem, congrArg (· + 1) hI.out, hI.held⟩
  | endOp =>
    refine ⟨hI.held, ?_⟩
    rintro ⟨⟩ t' rfl
    exact ⟨_, rfl, hI.mem, congrArg (· - 1) hI.out, hI.held⟩
  | tabs =>
    refine wp_mem ⟨w, ⟨?_, rfl⟩, hI⟩
    rw [hI.mem]
  | setTabs tb =>
    refine wp_mem ⟨trivial, ?_⟩
    rintro ⟨⟩ t' rfl
    rw [hI.mem]
    exact ⟨_, rfl, hI.withMem _⟩
  | rawRead b um addr | rawWrite b um addr =>
    refine ⟨hI.held, ?_⟩
    rintro r t' rfl
    exact ⟨w, rfl, hI⟩
  | forceFail pbn | forceDiskFail id =>
    refine ⟨trivial, ?_⟩
    rintro r t' rfl
    exact ⟨w, rfl, hI⟩
  | fail e => exact ⟨hsafe.imp_right Err.misuse_of_not_ours, fun r _ _ => nomatch r⟩

end Desk

end Xv6
