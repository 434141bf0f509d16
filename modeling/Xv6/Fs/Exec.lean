/-
  SYMBOLIC EXECUTION ON THE BLOCK STORE.

  The file-system code uses the buffer cache in one way: read a block, look at it, perhaps change it
  and log it, release it.  `hold` and `put` are what that does to the store, and each rule below
  takes one call off the front of a program.

  `Room n` is the resource side of it: as far as the proof is to exclude failures of the machine,
  `n` more blocks can be logged.  `Grew n` is the frame of a piece of code: nothing is left held, at
  most `n` more blocks are listed, and nothing more is tainted.
-/
import Xv6.Fs.Store
import Xv6.Fs.Layout
import Xv6.Fs.Inode

namespace Xv6

open Function Prog Code

/-- The calls of code that only looks at memory and at data blocks: nothing is stored or logged, and
    the bitmap is not consulted. -/
def Bcall.Looks (sb : Superblock) : Bcall → Prop
  | .mem | .data _ | .brelse _ => True
  | .bread b => sb.data ≤ b
  | _ => False

/-- The calls that leave the list of logged blocks as it is. -/
def Bcall.Unlogged : Bcall → Prop
  | .logWrite _ | .endOp => False
  | _ => True

/-- Looking logs nothing. -/
theorem Bcall.Looks.unlogged {sb : Superblock} {o : Bcall} (h : o.Looks sb) : o.Unlogged := by
  cases o with
  | logWrite | endOp => exact h
  | _ => trivial

namespace Store

variable {sb : Superblock} {g : Goal} {α : Type} {t t' t'' : Store} {b n m : Nat} {d : Block}

/-- Block `b` is held. -/
def hold (t : Store) (b : Nat) : Store := { t with held := b :: t.held }

/-- Block `b` is changed and logged. -/
def put (t : Store) (b : Nat) (d : Block) : Store :=
  { t with
    blk := update t.blk b d
    lh := addBlock t.lh b
    taint := fun c => t.taint c ∧ c ≠ b }

/-- The inode cache or the tables are changed. -/
def withMem (t : Store) (m : Mem) : Store := { t with mem := m }

@[simp] theorem hold_blk : (t.hold b).blk = t.blk := rfl
@[simp] theorem hold_held : (t.hold b).held = b :: t.held := rfl
@[simp] theorem withMem_mem {m : Mem} : (t.withMem m).mem = m := rfl
@[simp] theorem put_mem : (t.put b d).mem = t.mem := rfl
@[simp] theorem put_blk : (t.put b d).blk = update t.blk b d := rfl

/-- Space in the log for `n` more blocks. -/
def Room (sb : Superblock) (g : Goal) (n : Nat) (t : Store) : Prop :=
  g.total → 1 ≤ t.out ∧ t.lh.length + n < sb.nlog

/-- At most `n` blocks were logged, and nothing else of the transaction has changed. -/
structure Grew (n : Nat) (t t' : Store) : Prop where
  held : t'.held = t.held
  out : t'.out = t.out
  lh : t'.lh.length ≤ t.lh.length + n
  taint : ∀ b, t'.taint b → t.taint b

/-- A block that is in the log already is absorbed. -/
theorem length_addBlock (l : List Nat) (b : Nat) : (addBlock l b).length ≤ l.length + 1 := by
  unfold addBlock
  split
  · omega
  · simp

namespace Grew

/-- One logged block. -/
theorem put (t : Store) (b : Nat) (d : Block) : Grew 1 t (t.put b d) :=
  ⟨rfl, rfl, length_addBlock .., fun _ h => h.1⟩

end Grew

/-- The space that is left after `n` blocks were logged. -/
theorem Room.grew (h : Room sb g (m + n) t) (hg : Grew n t t') : Room sb g m t' := by
  intro ht
  obtain ⟨ho, hl⟩ := h ht
  have := hg.out
  have := hg.lh
  exact ⟨by omega, by omega⟩

theorem Room.mono (h : Room sb g n t) (hm : m ≤ n) : Room sb g m t := by
  intro ht
  obtain ⟨ho, hl⟩ := h ht
  exact ⟨ho, by omega⟩

/-- The store, for code that only looks. -/
def looks (sb : Superblock) (g : Goal) : Spec Blocks Store := (spec sb g).only (Bcall.Looks sb)

/-- One call of those that leave the log alone. -/
theorem step_log {o : Bcall} {r : o.Res} (ho : o.Unlogged) (h : Step g o t r t') : t'.lh = t.lh := by
  cases o with
  | logWrite | endOp => exact ho.elim
  | rawWrite | fail => exact h.elim
  | bread b =>
    obtain ⟨-, d, -, rfl⟩ := h
    rfl
  | data | mem => rw [h.2]
  | copyin => rw [h.2.1]
  | _ => rw [show t' = _ from h]

/-- **Code that leaves the log alone.** -/
theorem wp_log {C : Bcall → Prop} (hC : ∀ o, C o → o.Unlogged) {p : Code α} {Q : α → Store → Prop}
    (hp : p.wp ((spec sb g).only C) Q t) :
    p.wp (spec sb g) (fun r t' => Q r t' ∧ t'.lh = t.lh) t := by
  induction p generalizing t with
  | ret a => exact ⟨hp, rfl⟩
  | call o k ih =>
    refine ⟨hp.1.2, ?_⟩
    intro r t' hstep
    rw [← step_log (hC o hp.1.1) hstep]
    exact ih r (hp.2 r t' hstep)

/-! ## The rules -/

section Rules

variable {Q : α → Store → Prop} {k : Unit → Code α}

/-- `bread`: an untainted block is as the store has it. -/
theorem wp_bread (hlog : ¬ sb.layout.InLog b)
    (hroom : g.total → b ∉ t.held ∧ t.held.length + t.lh.length < NBUF)
    (h : ∀ d, b ∉ t.held → (¬ t.taint b → d = t.blk b) →
      (k ()).wp (spec sb g) Q ({ t with blk := update t.blk b d }.hold b)) :
    (bread b >>= k).wp (spec sb g) Q t := by
  refine ⟨⟨hlog, fun ht => ⟨(hroom ht).1, .inr (hroom ht).2⟩⟩, ?_⟩
  rintro ⟨⟩ t' ⟨hn, d, hd, rfl⟩
  exact h d hn hd

/-- An untainted block is what it was. -/
theorem wp_bread_clean (hlog : ¬ sb.layout.InLog b) (hT : ¬ t.taint b)
    (hroom : g.total → b ∉ t.held ∧ t.held.length + t.lh.length < NBUF)
    (h : b ∉ t.held → (k ()).wp (spec sb g) Q (t.hold b)) :
    (bread b >>= k).wp (spec sb g) Q t := by
  refine wp_bread hlog hroom fun d hn hd => ?_
  rw [hd hT, update_eq_self]
  exact h hn

/-- The contents of a held buffer. -/
theorem wp_data {k : Block → Code α} (hb : b ∈ t.held)
    (h : (k (t.blk b)).wp (spec sb g) Q t) : (data b >>= k).wp (spec sb g) Q t := by
  refine ⟨hb, ?_⟩
  rintro r t' ⟨rfl, rfl⟩
  exact h

/-- A change that is logged at once. -/
theorem wp_put (hb : b ∈ t.held) (hsmall : b < 4294967296) (hsb : sb.nlog ≤ LOGSIZE)
    (hroom : Room sb g 1 t) (h : (k ()).wp (spec sb g) Q (t.put b d)) :
    (store b d >>= fun _ => logWrite b >>= k).wp (spec sb g) Q t := by
  refine ⟨hb, ?_⟩
  rintro ⟨⟩ t1 rfl
  refine ⟨⟨hb, hsmall, fun ht => ?_⟩, ?_⟩
  · obtain ⟨ho, hl⟩ := hroom ht
    exact ⟨by show t.lh.length < LOGSIZE; omega, hl, ho⟩
  · rintro ⟨⟩ t2 rfl
    have hput : ({ t with
        blk := update t.blk b d
        taint := fun c => (t.taint c ∨ c = b ∧ b ∉ t.lh ∧ d ≠ t.blk b) ∧ c ≠ b
        lh := addBlock t.lh b } : Store) = t.put b d := by
      unfold put
      congr
      funext c
      refine propext ⟨?_, fun h => ⟨.inl h.1, h.2⟩⟩
      rintro ⟨hT | ⟨hc, -⟩, hne⟩
      · exact ⟨hT, hne⟩
      · exact absurd hc hne
    rw [← hput] at h
    exact h

/-- A buffer is put back. -/
theorem wp_brelse (hb : b ∈ t.held) (h : (k ()).wp (spec sb g) Q { t with held := t.held.erase b }) :
    (brelse b >>= k).wp (spec sb g) Q t := by
  refine ⟨hb, ?_⟩
  rintro ⟨⟩ t' rfl
  exact h

/-- Releasing the block read last. -/
theorem wp_brelse_hold (h : (k ()).wp (spec sb g) Q t) : (brelse b >>= k).wp (spec sb g) Q (t.hold b) := by
  refine wp_brelse (List.mem_cons_self ..) ?_
  rw [hold_held, List.erase_cons_head]
  exact h

/-- Memory is read. -/
theorem wp_mem {k : Mem → Code α} (h : (k t.mem).wp (spec sb g) Q t) :
    (Code.mem >>= k).wp (spec sb g) Q t := by
  refine ⟨trivial, ?_⟩
  rintro r t' ⟨rfl, rfl⟩
  exact h

/-- Memory is replaced. -/
theorem wp_setMem {m : Mem} (h : (k ()).wp (spec sb g) Q (t.withMem m)) :
    (setMem m >>= k).wp (spec sb g) Q t := by
  refine ⟨trivial, ?_⟩
  rintro ⟨⟩ t' rfl
  exact h

/-- One entry of the inode cache is changed. -/
theorem wp_modify {i : Nat} {f : Inode → Inode} (h : (k ()).wp (spec sb g) Q (t.withMem (t.mem.upd i f))) :
    (Code.modify i f >>= k).wp (spec sb g) Q t := by
  rw [Code.modify, bind_assoc]
  exact wp_mem (wp_setMem h)

/-- A copy that fails may have copied something, unless copies are whole. -/
theorem wp_copyin {src : Src} {tot off n : Nat} {dst : Bytes} {k : Bytes × Bool → Code α}
    (h : (g.whole → (src.copy tot dst off n).2 = false → (src.copy tot dst off n).1 = dst) →
      (k (src.copy tot dst off n)).wp (spec sb g) Q t) :
    (copyin src tot dst off n >>= k).wp (spec sb g) Q t := by
  refine ⟨trivial, ?_⟩
  rintro r t' ⟨rfl, rfl, hw⟩
  exact h hw

/-- A panic that the goal does not exclude. -/
theorem wp_panic {msg : String} {Q : α → Store → Prop} (h : ¬ g.bad (.panic msg)) :
    (panic msg : Code α).wp (spec sb g) Q t :=
  ⟨h, fun r _ _ => nomatch r⟩

/-- Sleeping for good, where the goal does not exclude it. -/
theorem wp_block {Q : α → Store → Prop} (h : ¬ g.bad .blocked) : (block : Code α).wp (spec sb g) Q t :=
  ⟨h, fun r _ _ => nomatch r⟩

/-! ### Looking -/

/-- A call of code that only looks is a call of the store. -/
theorem look {o : Bcall} {f : o.Res → Code α} (ho : o.Looks sb)
    (h : (Prog.op (I := Blocks) o).wp (spec sb g) (fun r t' => (f r).wp (looks sb g) Q t') t) :
    (Prog.op o >>= f).wp (looks sb g) Q t := ⟨⟨ho, h.1⟩, h.2⟩

theorem look_mem {k : Mem → Code α} (h : (k t.mem).wp (looks sb g) Q t) :
    (Code.mem >>= k).wp (looks sb g) Q t := look trivial (wp_mem (k := ret) h)

/-- `bread` of a data block. -/
theorem look_bread (hb : sb.data ≤ b) (hlog : ¬ sb.layout.InLog b)
    (hroom : g.total → b ∉ t.held ∧ t.held.length + t.lh.length < NBUF)
    (h : ∀ d, b ∉ t.held → (¬ t.taint b → d = t.blk b) →
      (k ()).wp (looks sb g) Q ({ t with blk := update t.blk b d }.hold b)) :
    (bread b >>= k).wp (looks sb g) Q t := look hb (wp_bread (k := ret) hlog hroom h)

theorem look_data {k : Block → Code α} (hb : b ∈ t.held) (h : (k (t.blk b)).wp (looks sb g) Q t) :
    (data b >>= k).wp (looks sb g) Q t := look trivial (wp_data (k := ret) hb h)

theorem look_brelse (h : (k ()).wp (looks sb g) Q t) :
    (brelse b >>= k).wp (looks sb g) Q (t.hold b) := look trivial (wp_brelse_hold (k := ret) h)

end Rules

end Store

end Xv6
