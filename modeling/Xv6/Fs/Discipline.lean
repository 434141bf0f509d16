/-
  THE DISCIPLINE OF THE FILE-SYSTEM CODE, on every path through it and whatever the disk contains.

  `Desk` is what one system call has on its desk: the kernel's memory, the buffers it holds, each with
  the contents it had when it was read or last handed to `log_write` (its MARK) beside the contents it
  has now, and the number of open operations.  `Desk.spec` lets every call that reads the disk return
  anything at all, and demands:

  * only a held buffer is read, changed, logged or released;
  * `end_op` and the raw calls are made with an empty desk;
  * on a NEAT run a buffer is released UNCHANGED since its mark, i.e. every change is followed by
    `log_write`; on any other run the code does not fail by using what it does not have
    (`Err.misuse`).

  The one place where the code would break the third rule is `writei`, when `either_copyin` fails after
  it has copied something: a neat run is one in which that does not happen.

  The lower half of `fs.c` clears its desk, and what it does to memory on the way is to change one disk
  inode there, but never its type: `Drifts`.
-/
import Xv6.Fs.Bmap
import Xv6.Fs.Sysfile

namespace Xv6

open Function Prog Code

/-- The panics of code that uses a file or an inode it does not have. -/
def Err.misuse : Err → Bool
  | .panic msg => msg ∈ ["filedup", "fileclose", "iunlock"]
  | _ => false

/-! ## The desk -/

/-- Memory, the held blocks with their marks and contents, and the open operations. -/
structure Desk where
  mem : Mem
  held : Nat → Option (Block × Block)
  out : Int

namespace Desk

variable {neat : Prop} {t : Desk} {b k : Nat} {α β : Type}

variable {f : α → Code β} {p : Code α}

/-- Block `b` with its mark and its contents. -/
def hold (t : Desk) (b : Nat) (x : Block × Block) : Desk :=
  { t with held := update t.held b (some x) }

/-- The buffer of block `b` is put back. -/
def release (t : Desk) (b : Nat) : Desk := { t with held := update t.held b none }

/-- What the discipline demands of each call. -/
def Safe (neat : Prop) : Bcall → Desk → Prop
  | .data b, t | .store b _, t | .logWrite b, t => t.held b ≠ none
  | .brelse b, t => ∃ m c, t.held b = some (m, c) ∧ (neat → m = c)
  | .endOp, t | .rawRead .., t | .rawWrite .., t => ∀ b, t.held b = none
  | .fail e, _ => neat ∨ e.misuse = false
  | _, _ => True

/-- What a call may do to the desk: a read returns anything. -/
def Step (neat : Prop) : (o : Bcall) → Desk → o.Res → Desk → Prop
  | .bread b, t, _, t' => t.held b = none ∧ ∃ d, t' = t.hold b (d, d)
  | .data b, t, r, t' => ∃ m, t.held b = some (m, r) ∧ t' = t
  | .store b d, t, _, t' => ∃ m c, t.held b = some (m, c) ∧ t' = t.hold b (m, d)
  | .logWrite b, t, _, t' => ∃ m c, t.held b = some (m, c) ∧ t' = t.hold b (c, c)
  | .brelse b, t, _, t' => t' = t.release b
  | .beginOp, t, _, t' => t' = { t with out := t.out + 1 }
  | .endOp, t, _, t' => t' = { t with out := t.out - 1 }
  | .mem, t, r, t' => r = t.mem ∧ t' = t
  | .setMem m, t, _, t' => t' = { t with mem := m }
  | .copyin _ _ d _ _, t, r, t' => (neat → r.2 = true ∨ r.1 = d) ∧ t' = t
  | .fail _, _, _, _ => False
  | .rawRead .., t, _, t' | .rawWrite .., t, _, t' | .forceFail _, t, _, t'
  | .forceDiskFail _, t, _, t' => t' = t

/-- The discipline as a specification of the block calls. -/
def spec (neat : Prop) : Spec Blocks Desk := ⟨Safe neat, Step neat⟩

@[simp] theorem hold_held (x : Block × Block) : (t.hold b x).held b = some x :=
  update_self ..

/-- The later contents count. -/
@[simp] theorem hold_hold (x y : Block × Block) : (t.hold b x).hold b y = t.hold b y := by
  simp [hold]

/-- To take a buffer and put it back changes nothing. -/
theorem hold_release (h : t.held b = none) (x : Block × Block) : (t.hold b x).release b = t := by
  unfold hold release
  simp only [update_idem]
  rw [← h, update_eq_self]

/-! ## Symbolic execution -/

section Rules

variable {Q : α → Desk → Prop} {f : Unit → Code α} {m c d : Block}

/-- `bread` takes a buffer that is not held, and marks it. -/
theorem wp_bread (h : ∀ d, t.held b = none → (f ()).wp (spec neat) Q (t.hold b (d, d))) :
    (bread b >>= f).wp (spec neat) Q t := by
  refine ⟨trivial, ?_⟩
  rintro ⟨⟩ t' ⟨hn, d, rfl⟩
  exact h d hn

/-- Only a held buffer is looked at. -/
theorem wp_data {f : Block → Code α} (h : (f c).wp (spec neat) Q (t.hold b (m, c))) :
    (data b >>= f).wp (spec neat) Q (t.hold b (m, c)) := by
  refine ⟨by simp [spec, Safe], ?_⟩
  rintro r t' ⟨m', hm, rfl⟩
  rw [hold_held] at hm
  obtain ⟨-, rfl⟩ := Prod.mk.inj (Option.some.inj hm)
  exact h

/-- A change leaves the mark as it was. -/
theorem wp_store (h : (f ()).wp (spec neat) Q (t.hold b (m, d))) :
    (store b d >>= f).wp (spec neat) Q (t.hold b (m, c)) := by
  refine ⟨by simp [spec, Safe], ?_⟩
  rintro r t' ⟨m', c', hm, rfl⟩
  rw [hold_held] at hm
  obtain ⟨rfl, rfl⟩ := Prod.mk.inj (Option.some.inj hm)
  rwa [hold_hold]

/-- `log_write` marks what is there now. -/
theorem wp_logWrite (h : (f ()).wp (spec neat) Q (t.hold b (c, c))) :
    (logWrite b >>= f).wp (spec neat) Q (t.hold b (m, c)) := by
  refine ⟨by simp [spec, Safe], ?_⟩
  rintro r t' ⟨m', c', hm, rfl⟩
  rw [hold_held] at hm
  obtain ⟨rfl, rfl⟩ := Prod.mk.inj (Option.some.inj hm)
  rwa [hold_hold]

/-- On a neat run a buffer that is given back is as it was marked. -/
theorem wp_release (hd : neat → m = c) (hn : t.held b = none) (h : (f ()).wp (spec neat) Q t) :
    (brelse b >>= f).wp (spec neat) Q (t.hold b (m, c)) := by
  refine ⟨⟨m, c, hold_held _, hd⟩, ?_⟩
  rintro r t' rfl
  rwa [hold_release hn]

/-- A buffer that is as it was marked. -/
theorem wp_brelse (hn : t.held b = none) (h : (f ()).wp (spec neat) Q t) :
    (brelse b >>= f).wp (spec neat) Q (t.hold b (d, d)) :=
  wp_release (fun _ => rfl) hn h

/-- The same, as the last call. -/
theorem wp_brelse_end {Q : Unit → Desk → Prop} (hn : t.held b = none) (h : Q () t) :
    (brelse b).wp (spec neat) Q (t.hold b (d, d)) :=
  wp_brelse (f := pure) hn h

/-- On a neat run a copy that fails has copied nothing. -/
theorem wp_copyin {src : Src} {tot off n : Nat} {f : Bytes × Bool → Code α}
    (h : ∀ r : Bytes × Bool, (neat → r.2 = true ∨ r.1 = d) → (f r).wp (spec neat) Q t) :
    (copyin src tot d off n >>= f).wp (spec neat) Q t := by
  refine ⟨trivial, ?_⟩
  rintro r t' ⟨hr, rfl⟩
  exact h r hr

/-- Memory is looked at. -/
theorem wp_mem {f : Mem → Code α} (h : (f t.mem).wp (spec neat) Q t) :
    (Code.mem >>= f).wp (spec neat) Q t := by
  refine ⟨trivial, ?_⟩
  rintro r t' ⟨rfl, rfl⟩
  exact h

/-- One entry of the inode cache is changed. -/
theorem wp_modify {g : Inode → Inode} (h : (f ()).wp (spec neat) Q { t with mem := t.mem.upd k g }) :
    (Code.modify k g >>= f).wp (spec neat) Q t := by
  rw [Code.modify, Prog.bind_assoc]
  refine wp_mem ⟨trivial, ?_⟩
  rintro ⟨⟩ t' rfl
  exact h

/-- A panic that does not come from misuse is no breach. -/
theorem wp_fail {e : Err} (h : e.misuse = false) :
    (Prog.call (.fail e) Empty.elim : Code α).wp (spec neat) Q t :=
  ⟨.inr h, fun r _ _ => nomatch r⟩

end Rules

/-! ## Code that leaves memory alone, and code that changes one disk inode in memory -/

variable (neat)

/-- The code puts everything back. -/
def Still (p : Code α) : Prop := ∀ t : Desk, p.wp (spec neat) (fun _ t' => t' = t) t

/-- The memory after entry `k` has got another disk inode of the same type. -/
def Drifted (k : Nat) (m m' : Mem) : Prop := ∃ x, x.type = (m.icache k).din.type ∧ m' = m.setDin k x

/-- The code may change `din` in entry `k`, but not the type there, and puts back the rest. -/
def Drifts (k : Nat) (p : Code α) : Prop :=
  ∀ t : Desk, p.wp (spec neat) (fun _ t' => ∃ m, Drifted k t.mem m ∧ t' = { t with mem := m }) t

variable {neat}

theorem Drifted.refl (k : Nat) (m : Mem) : Drifted k m m := ⟨_, rfl, (Mem.setDin_self m k).symm⟩

/-- The type stays the same over two drifts. -/
theorem Drifted.trans {m m1 m2 : Mem} (h : Drifted k m m1) (h' : Drifted k m1 m2) : Drifted k m m2 := by
  obtain ⟨x, hx, rfl⟩ := h
  obtain ⟨y, hy, rfl⟩ := h'
  refine ⟨y, hy.trans ?_, Mem.setDin_setDin ..⟩
  rw [Mem.setDin, Mem.upd_self]
  exact hx

namespace Still

theorem ret (a : α) : Still neat (pure a : Code α) := fun _ => rfl

theorem step {Q : β → Desk → Prop} (hp : Still neat p)
    (hf : ∀ a, (f a).wp (spec neat) Q t) : (p >>= f).wp (spec neat) Q t := by
  refine wp_seq (hp t) ?_
  rintro a t' rfl
  exact hf a

theorem bind (hp : Still neat p) (hf : ∀ a, Still neat (f a)) :
    Still neat (p >>= f) := fun t => hp.step fun a => hf a t

/-- Leaving everything alone is a way to drift. -/
theorem drifts (hp : Still neat p) (k : Nat) : Drifts neat k p := by
  intro t
  refine wp_mono (hp t) ?_
  rintro a t' rfl
  exact ⟨t'.mem, .refl k _, rfl⟩

end Still

namespace Drifts

/-- Code that follows finds another disk inode in entry `k`, and nothing else. -/
theorem step {Q : β → Desk → Prop} (hp : Drifts neat k p)
    (hf : ∀ a m, Drifted k t.mem m → (f a).wp (spec neat) Q { t with mem := m }) :
    (p >>= f).wp (spec neat) Q t := by
  refine wp_seq (hp t) ?_
  rintro a t' ⟨m, hm, rfl⟩
  exact hf a m hm

/-- Two drifts of the same entry are one. -/
theorem bind (hp : Drifts neat k p) (hf : ∀ a, Drifts neat k (f a)) : Drifts neat k (p >>= f) := by
  refine fun t => hp.step fun a m hm => wp_mono (hf a _) ?_
  rintro b t' ⟨m', hm', rfl⟩
  exact ⟨m', hm.trans hm', rfl⟩

theorem ret (a : α) : Drifts neat k (pure a : Code α) := (Still.ret a).drifts k

theorem mem {f : Mem → Code α} (h : ∀ m, Drifts neat k (f m)) : Drifts neat k (Code.mem >>= f) :=
  fun t => wp_mem (h t.mem t)

/-- A change of `din` that spares the type. -/
theorem modify (g : Dinode → Dinode) (hg : ∀ x, (g x).type = x.type) :
    Drifts neat k (Code.modify k fun ip => { ip with din := g ip.din }) := by
  intro t
  rw [← Prog.bind_ret (Code.modify ..)]
  exact wp_modify ⟨_, ⟨g (t.mem.icache k).din, hg _, rfl⟩, rfl⟩

end Drifts

/-! ## The lower half of `fs.c` -/

variable (sb : Superblock)

/-- `bzero`: read, zero, log, release. -/
theorem still_bzero (bno : Nat) : Still neat (bzero bno) := fun _ =>
  wp_bread fun _ hn => wp_store (wp_logWrite (wp_brelse_end hn rfl))

/-- One bitmap block at a time, by induction on the blocks that are left. -/
theorem still_ballocFrom (cs : List Nat) : Still neat (ballocFrom sb cs) := by
  induction cs with
  | nil => exact fun t => wp_fail (by decide)
  | cons c cs ih =>
    intro t
    refine wp_bread fun d hn => wp_data ?_
    split
    · exact wp_store (wp_logWrite (wp_brelse hn ((still_bzero _).step fun _ => rfl)))
    · exact wp_brelse hn (ih t)

theorem still_balloc : Still neat (balloc sb) := still_ballocFrom sb _

/-- `bfree` logs the bitmap block, or panics. -/
theorem still_bfree (b : Nat) : Still neat (bfree sb b) := by
  intro t
  refine wp_bread fun d hn => wp_data ?_
  split
  · exact wp_store (wp_logWrite (wp_brelse_end hn rfl))
  · exact wp_fail (by decide)

/-- `iupdate` logs the block of the inode. -/
theorem still_iupdate (k : Nat) : Still neat (iupdate sb k) := fun _ =>
  wp_mem (wp_bread fun _ hn => wp_data (wp_store (wp_logWrite (wp_brelse_end hn rfl))))

/-- `ip->addrs[i] = addr`. -/
theorem drifts_setAddr (k i addr : Nat) : Drifts neat k (setAddr k i addr) :=
  Drifts.modify (fun x => { x with addrs := update x.addrs i addr }) fun _ => rfl

/-- A direct entry, or the one of the indirect block, is filled in. -/
theorem drifts_bmapAddr (k i : Nat) {msg : String} (hmsg : (Err.panic msg).misuse = false) :
    Drifts neat k (bmapAddr sb k i msg) := by
  refine Drifts.mem fun m => ?_
  split
  · refine ((still_balloc sb).drifts k).bind fun addr => ?_
    split
    · exact fun t => wp_fail hmsg
    · exact (drifts_setAddr k i addr).bind fun _ => .ret _
  · exact .ret _

/-- `bmap` holds the indirect block while it allocates. -/
theorem drifts_bmap (k bn : Nat) : Drifts neat k (bmap sb k bn) := by
  unfold bmap
  split
  · exact drifts_bmapAddr sb k bn (by decide)
  split
  · refine (drifts_bmapAddr sb k NDIRECT (by decide)).bind fun addr => Still.drifts (fun t => ?_) k
    refine wp_bread fun a hn => wp_data ?_
    split
    · refine (still_balloc sb).step fun target => ?_
      split
      · exact wp_fail (by decide)
      · exact wp_store (wp_logWrite (wp_brelse hn rfl))
    · exact wp_brelse hn rfl
  · exact fun t => wp_fail (by decide)

/-- The first loop of `itrunc`. -/
theorem drifts_freeDirect (k : Nat) (is : List Nat) : Drifts neat k (freeDirect sb k is) := by
  induction is with
  | nil => exact .ret _
  | cons i is ih =>
    refine Drifts.mem fun m => ?_
    split
    · exact ih
    · exact ((still_bfree sb _).drifts k).bind fun _ => (drifts_setAddr k i 0).bind fun _ => ih

/-- The loop over the indirect block. -/
theorem still_freeEntries (a : Block) (js : List Nat) : Still neat (freeEntries sb a js) := by
  induction js with
  | nil => exact Still.ret _
  | cons j js ih =>
    rw [freeEntries]
    split
    · exact ih
    · exact (still_bfree sb _).bind fun _ => ih

/-- `itrunc` holds the indirect block while it frees what is in it. -/
theorem drifts_freeIndirect (k : Nat) : Drifts neat k (freeIndirect sb k) := by
  refine Drifts.mem fun m => ?_
  dsimp only
  split
  · exact .ret _
  refine fun t => wp_bread fun a hn => wp_data ((still_freeEntries sb a _).step fun _ =>
    wp_brelse hn ?_)
  exact (still_bfree sb _).step fun _ => drifts_setAddr k NDIRECT 0 t

/-- `itrunc`: both loops, the size, and the disk. -/
theorem drifts_itrunc (k : Nat) : Drifts neat k (itrunc sb k) :=
  (drifts_freeDirect sb k _).bind fun _ => (drifts_freeIndirect sb k).bind fun _ =>
    (Drifts.modify (fun x => { x with size := 0 }) fun _ => rfl).bind fun _ =>
      (still_iupdate sb k).drifts k

/-- One block of a read at a time. -/
theorem drifts_readLoop (k : Nat) (dst : Dst) (n fuel tot off : Nat) (out : Bytes) :
    Drifts neat k (readLoop sb k dst n fuel tot off out) := by
  induction fuel generalizing tot off out with
  | zero => exact .ret _
  | succ fuel ih =>
    rw [readLoop]
    split
    · refine (drifts_bmap sb k _).bind fun b t => wp_bread fun d hn => wp_data ?_
      split
      · exact wp_brelse hn (ih _ _ _ t)
      · exact wp_brelse hn (Drifts.ret _ t)
    · exact .ret _

theorem drifts_readi (k : Nat) (dst : Dst) (off n : Nat) : Drifts neat k (readi sb k dst off n) := by
  refine Drifts.mem fun m => ?_
  dsimp only
  split
  · exact .ret _
  · exact drifts_readLoop sb k dst _ _ _ _ _

/-- `writei`: on a neat run a copy that fails has copied nothing, so the block it leaves behind is as
    it was. -/
theorem drifts_writeLoop (k : Nat) (src : Src) (n fuel tot off : Nat) :
    Drifts neat k (writeLoop sb k src n fuel tot off) := by
  induction fuel generalizing tot off with
  | zero => exact .ret _
  | succ fuel ih =>
    rw [writeLoop]
    split
    · refine (drifts_bmap sb k _).bind fun b t => wp_bread fun d hn => wp_data
        (wp_copyin fun r hr => wp_store ?_)
      split
      · exact wp_logWrite (wp_brelse hn (ih _ _ t))
      · next hcopy => exact wp_release (fun h => ((hr h).resolve_left hcopy).symm) hn (Drifts.ret _ t)
    · exact .ret _

/-- `writei`: its loop, the size, and the disk. -/
theorem drifts_writei (k : Nat) (src : Src) (off n : Nat) : Drifts neat k (writei sb k src off n) := by
  refine Drifts.mem fun m => ?_
  split
  · exact .ret _
  split
  · exact .ret _
  refine (drifts_writeLoop sb k src n n 0 off).bind fun off' => ?_
  split
  · exact (Drifts.modify (fun x => { x with size := max x.size off' }) fun _ => rfl).bind fun _ =>
      ((still_iupdate sb k).bind Still.ret).drifts k
  · exact .ret _

end Desk

end Xv6
