/-
  ROOM FOR A RECURSIVE `chmod`, as a condition on the state before.

  Every call of `chperm` begins an operation and looks a path up.  The recursive calls are made INSIDE the
  operation of their caller, and the caller keeps its reference to the directory.  So a recursion waits
  forever in `begin_op`, or panics in `iget`, unless

  1. the log has room for the operation of the first call (`ChmodRoom.begins`);
  2. the inode cache has an entry for each inode on the way to the first inode (`ChmodRoom.finds`);
  3. for every child: no other operation is going on, the child has no children of its own, the log has
     room for a second operation besides the blocks that the first has logged by then, and the inode
     cache has room for the way to the child, with the directory in use (`ChildRoom`).

  That there is no third level is not a matter of size: after two `begin_op`s and one `log_write` the log
  never has room for another operation.

  The conditions are read off the directories, the inode cache and the log; the same holds of two volumes
  that AGREE on them (`Agree.room`).
-/
import Xv6.Fs.Namei
import Xv6.Fs.Patient
import Xv6.Fs.Tree

namespace Xv6

open Vol List

variable {path : List UInt8} {d e i p : Nat} {l : List Nat} {U : Finset Nat} {sb : Superblock} {v v' : Vol}

/-! ## The log on the way through a directory -/

/-- The log `l` after a `log_write` of the block of each of the inodes `is`. -/
def logInodes (sb : Superblock) (l is : List Nat) : List Nat :=
  is.foldl (fun l j => addBlock l (sb.iblock j)) l

theorem addBlock_ne_nil (l : List Nat) (b : Nat) : addBlock l b ≠ [] := by
  intro h
  have hb : b ∈ addBlock l b := mem_addBlock.mpr (.inr rfl)
  rw [h] at hb
  exact not_mem_nil hb

theorem logInodes_ne_nil (is : List Nat) : ∀ {l}, l ≠ [] → logInodes sb l is ≠ [] := by
  induction is with
  | nil => exact id
  | cons j is ih => exact fun _ => ih (addBlock_ne_nil _ _)

namespace Vol

instance (v : Vol) (d e : Nat) : Decidable (v.Live d e) :=
  decidable_of_iff (e ∈ entries (v.ino d).size ∧ v.deInum d e ≠ 0 ∧ v.entryName d e ≠ [46] ∧
    v.entryName d e ≠ [46, 46]) ⟨fun h => ⟨h.1, h.2.1, h.2.2.1, h.2.2.2⟩,
      fun h => ⟨h.mem, h.used, h.dot, h.dotdot⟩⟩

/-- The children of the directory `i` before entry `e`. -/
def childrenBefore (v : Vol) (i e : Nat) : List Nat :=
  ((range e).filter fun e => decide (v.Live i e)).map (v.deInum i)

/-- What is in the log when `chperm` has come to entry `e` of the directory `i`, if it was `l` before. -/
def logAt (sb : Superblock) (v : Vol) (l : List Nat) (i e : Nat) : List Nat :=
  logInodes sb l (i :: v.childrenBefore i e)

theorem logAt_ne_nil : v.logAt sb l i e ≠ [] :=
  logInodes_ne_nil (v.childrenBefore i e) (addBlock_ne_nil l (sb.iblock i))

/-- An entry that is in use logs the block of its inode, ... -/
theorem logAt_live (h : v.Live i e) :
    v.logAt sb l i (e + 1) = addBlock (v.logAt sb l i e) (sb.iblock (v.deInum i e)) := by
  unfold logAt logInodes childrenBefore
  have hlast : ([e].filter fun e => decide (v.Live i e)) = [e] := filter_cons_of_pos (by simpa using h)
  rw [range_succ, filter_append, map_append, hlast, foldl_cons, foldl_append]
  rfl

/-- ... and an empty one nothing. -/
theorem logAt_dead (h : ¬ v.Live i e) : v.logAt sb l i (e + 1) = v.logAt sb l i e := by
  unfold logAt childrenBefore
  rw [range_succ, filter_append, filter_cons_of_neg (by simpa using h), filter_nil, append_nil]

/-- Before the first child only the block of the inode itself is logged. -/
theorem logAt_first (h : ∀ e', e' < e → ¬ v.Live i e') : v.logAt sb l i e = addBlock l (sb.iblock i) := by
  induction e with
  | zero => rfl
  | succ e ih => rw [logAt_dead (h e (Nat.lt_succ_self e)), ih fun e' he => h e' (by omega)]

/-! ## The conditions -/

/-- Room for the recursive call for entry `e` of the directory `i`. -/
structure ChildRoom (sb : Superblock) (v : Vol) (l : List Nat) (p i : Nat) (path : List UInt8) (e : Nat) :
    Prop where
  out : v.out = 0
  leaf : ∀ n j, ¬ v.Entry sb (v.deInum i e) n j
  log : (v.logAt sb l i e).length + 2 * MAXOPBLOCKS ≤ LOGSIZE
  finds : v.Finds (insert i v.used) p (built path (v.entryName i e)) false

/-- Room for a recursive `chmod` of inode `i` at `path`, when the blocks `l` are in the log. -/
structure ChmodRoom (sb : Superblock) (v : Vol) (l : List Nat) (p i : Nat) (path : List UInt8) :
    Prop where
  begins : l.length + (v.out + 1) * MAXOPBLOCKS ≤ LOGSIZE
  finds : v.Finds v.used p path false
  below : (v.ino i).type = T_DIR → ∀ e, v.Live i e → v.ChildRoom sb l p i path e

/-! ## Two volumes -/

/-- Paths below `P` lead where they did. -/
theorem walks_congr {P : Nat → Prop} (hlookup : ∀ i, P i → ∀ n, v'.lookup i n = v.lookup i n)
    (hP : ∀ i n j, P i → v.lookup i n = some j → P j) (names : List Name) :
    ∀ {i}, P i → v.Walks U i names → v'.Walks U i names := by
  induction names with
  | nil => exact fun _ _ => trivial
  | cons n names ih =>
    intro i hi h j hj
    rw [hlookup i hi] at hj
    exact ⟨(h j hj).1, ih (hP i n j hi hj) (h j hj).2⟩

theorem SameShape.finds (h : v.SameShape v') (hstart : v'.start p path = v.start p path)
    (hf : v.Finds U p path false) : v'.Finds U p path false := by
  refine ⟨hf.root, fun i hi => ?_⟩
  rw [hstart] at hi
  exact walks_congr (P := fun _ => True) (fun i _ n => by rw [h.lookup]) (fun _ _ _ _ _ => trivial) _
    trivial (hf.walk i hi)

namespace Agree

variable (h : v.Agree sb v') (hD : v.Dirs sb)
include h hD

/-- The entries of a directory. -/
theorem entries_eq (hd : d < sb.ninodes) (ht : (v.ino d).type = T_DIR) (he : e ∈ entries (v.ino d).size) :
    v'.deInum d e = v.deInum d e ∧ v'.entryName d e = v.entryName d e := by
  have hwhole := hD.whole d hd ht
  refine ⟨(find_congr (h.ino d hd) hwhole (h.dir d hd ht)).2 e he, nameOf_congr fun o ho => ?_⟩
  have ho : o < 14 := ho
  have he := mem_range.mp he
  have hDE : DIRENT = 16 := rfl
  refine h.dir d hd ht _ ?_
  rw [hDE] at he hwhole ⊢
  omega

theorem live_iff (hd : d < sb.ninodes) (ht : (v.ino d).type = T_DIR) : v'.Live d e ↔ v.Live d e := by
  have hsize : (v'.ino d).size = (v.ino d).size := by rw [h.ino d hd]
  constructor
  · rintro ⟨hmem, hused, hdot, hdotdot⟩
    rw [hsize] at hmem
    obtain ⟨hnum, hname⟩ := h.entries_eq hD hd ht hmem
    rw [hname] at hdot hdotdot
    exact ⟨hmem, by rwa [hnum] at hused, hdot, hdotdot⟩
  · rintro ⟨hmem, hused, hdot, hdotdot⟩
    obtain ⟨hnum, hname⟩ := h.entries_eq hD hd ht hmem
    rw [← hname] at hdot hdotdot
    exact ⟨by rwa [hsize], by rwa [hnum], hdot, hdotdot⟩

/-- The directories have the same entries. -/
theorem entry : v'.Entry sb = v.Entry sb := by
  funext d n j
  refine propext (and_congr_right fun hd => ?_)
  rw [h.ino d hd]
  refine and_congr_right fun ht => exists_congr fun e => ?_
  rw [h.live_iff hD hd ht]
  refine and_congr_right fun hlive => ?_
  obtain ⟨hnum, hname⟩ := h.entries_eq hD hd ht hlive.mem
  rw [hnum, hname]

/-- So a tree stays a tree. -/
theorem tree (hT : v.Tree sb) : v'.Tree sb := by
  have hentry := h.entry hD
  refine ⟨?_, ?_, ?_, ?_⟩
  · rw [hentry]
    exact hT.ne
  · rw [hentry]
    exact hT.slash
  · intro d e e' hd ht he he' hu hu' hname
    rw [h.ino d hd] at ht he he'
    obtain ⟨hnum, hsame⟩ := h.entries_eq hD hd ht he
    obtain ⟨hnum', hsame'⟩ := h.entries_eq hD hd ht he'
    rw [hnum] at hu
    rw [hnum'] at hu'
    rw [hsame, hsame'] at hname
    exact hT.uniq d e e' hd ht he he' hu hu' hname
  · unfold Vol.Child
    rw [hentry]
    exact hT.acyclic

theorem fits {q : List UInt8} {j : Nat} {n : Name} (hd : d < sb.ninodes) (hf : v.Fits q d n j) :
    v'.Fits q d n j :=
  ⟨hf.ne, hf.len, hf.read, hf.name, by rw [h.lookup hD hd]; exact hf.same⟩

omit hD in
theorem start_eq : v'.start p path = v.start p path := by
  unfold start inum
  rw [h.mem]

theorem finds (hlt : ∀ q i, v.start p q = some i → i < sb.ninodes) (hf : v.Finds U p path false) :
    v'.Finds U p path false := by
  refine ⟨hf.root, fun i hi => ?_⟩
  rw [h.start_eq] at hi
  exact walks_congr (P := fun i => i < sb.ninodes) (fun i hi n => h.lookup hD hi n)
    (fun i n j hi hj => (hD.lookup hi hj).lt) _ (hlt path i hi) (hf.walk i hi)

/-- What `chperm` has logged. -/
theorem logAt_eq (hi : i < sb.ninodes) (ht : (v.ino i).type = T_DIR) :
    v'.logAt sb l i e = v.logAt sb l i e := by
  have hfilter : ((range e).filter fun e => decide (v'.Live i e)) =
      (range e).filter fun e => decide (v.Live i e) :=
    filter_congr fun e _ => decide_eq_decide.mpr (h.live_iff hD hi ht)
  unfold logAt childrenBefore
  rw [hfilter, map_congr_left fun e he => ?_]
  have hlive : v.Live i e := of_decide_eq_true (mem_filter.mp he).2
  exact (h.entries_eq hD hi ht hlive.mem).1

/-- **The same room**, if as many operations are going on. -/
theorem room (hout : v'.out = v.out) (hlt : ∀ q i, v.start p q = some i → i < sb.ninodes)
    (hi : i < sb.ninodes)
    (hr : v.ChmodRoom sb l p i path) : v'.ChmodRoom sb l p i path := by
  refine ⟨?_, ?_, ?_⟩
  · rw [hout]
    exact hr.begins
  · rw [h.used]
    exact h.finds hD hlt hr.finds
  · intro ht e hlive
    rw [h.ino i hi] at ht
    rw [h.live_iff hD hi ht] at hlive
    obtain ⟨hnum, hname⟩ := h.entries_eq hD hi ht hlive.mem
    have hc := hr.below ht e hlive
    refine ⟨hout.trans hc.out, ?_, ?_, ?_⟩
    · rw [h.entry hD, hnum]
      exact hc.leaf
    · rw [h.logAt_eq hD hi ht]
      exact hc.log
    · rw [h.used, hname]
      exact h.finds hD hlt hc.finds

end Agree

end Vol

end Xv6
