/-
  RECURSIVE `chmod`.

  `chperm` changes an inode, and then calls itself for every entry of a directory, with a path that it
  has put together; each call looks its path up again.  On a volume whose directories form a tree it
  PAINTS the subtree: every inode of it gets the new permissions, as often as it is visited, and nothing
  else changes (`chperm_paints`).  The induction is on the depth of the recursion, which the inodes above
  the current one bound: no way leads back, so they are all different.

  The proof keeps three accounts along the recursion:

  1. what has been painted, and that nothing else has changed (`Painted`, in the loop `Looping`);
  2. which blocks are in the log: those of the inodes painted so far (`Vol.logAt`);
  3. what room each call has found (`Vol.ChmodRoom`), which for the call for a child is a condition on
     the volume before the first call (`Painted.room_iff`).

  The path of a child leads to the child exactly if it FITS.  So a recursion that ends and stays within the
  subtree is one in which all paths fit and that has room (`child_paths_iff`).  Short paths and names fit,
  and then it is enough that in the run at hand nothing waits (`chperm_exactly_subtree`).
-/
import Xv6.Fs.Room

namespace Xv6

open Function Prog Bytes Tally OneFile Vol List Up Kern

variable {isAdd : Bool} {es l : List Nat} {path : List UInt8} {e i k p : Nat} {f : Nat → Nat}
  {A B : Nat → Prop} {tot : Prop} {sb : Superblock} {v v0 : Vol}

/-! ## Painting -/

/-- `|=` and `&= ~` may be done twice. -/
theorem newPerm_newPerm (perm mode : Nat) (isAdd : Bool) :
    newPerm (newPerm perm mode isAdd) mode isAdd = newPerm perm mode isAdd := by
  unfold newPerm
  cases isAdd with
  | true =>
    rw [if_pos rfl, if_pos rfl, show 65536 = 2 ^ 16 from rfl]
    refine Nat.eq_of_testBit_eq fun i => ?_
    simp only [Nat.testBit_mod_two_pow, Nat.testBit_or]
    by_cases hi : i < 16
    · simp only [hi, decide_true, Bool.true_and, Bool.or_assoc, Bool.or_self]
    · simp only [hi, decide_false, Bool.false_and]
  | false =>
    rw [if_neg Bool.false_ne_true, if_neg Bool.false_ne_true, Nat.and_assoc, Nat.and_self]

open Classical in
/-- The inodes `A` have new permissions. -/
noncomputable def paint (f : Nat → Nat) (A : Nat → Prop) (ino : Nat → Dinode) : Nat → Dinode := fun i =>
  if A i then { ino i with perm := f (ino i).perm } else ino i

section Paint

variable {ino : Nat → Dinode}

theorem paint_in (h : A i) : paint f A ino i = { ino i with perm := f (ino i).perm } := if_pos h

theorem paint_out (h : ¬ A i) : paint f A ino i = ino i := if_neg h

theorem paint_paint (hf : ∀ x, f (f x) = f x) :
    paint f B (paint f A ino) = paint f (fun i => A i ∨ B i) ino := by
  funext i
  by_cases hA : A i <;> by_cases hB : B i
  · rw [paint_in hB, paint_in hA, paint_in (.inl hA)]
    rw [hf]
  · rw [paint_out hB, paint_in hA, paint_in (.inl hA)]
  · rw [paint_in hB, paint_out hA, paint_in (.inr hB)]
  · rw [paint_out hB, paint_out hA, paint_out (not_or.mpr ⟨hA, hB⟩)]

theorem paint_shape : (paint f A ino i).type = (ino i).type ∧ (paint f A ino i).size = (ino i).size ∧
    (paint f A ino i).nlink = (ino i).nlink := by
  by_cases hA : A i
  · rw [paint_in hA]
    exact ⟨rfl, rfl, rfl⟩
  · rw [paint_out hA]
    exact ⟨rfl, rfl, rfl⟩

end Paint

/-- From `v` to `v'` the inodes `A` have been painted; besides, the counts of the inode cache have changed
    by `loc`, its locks to `lk`, and the number of operations to `out`. -/
structure Painted (sb : Superblock) (f : Nat → Nat) (A : Nat → Prop) (lk : Nat → Bool) (loc : Nat → Int)
    (out : Int) (v v' : Vol) : Prop where
  ok : v'.Ok sb
  lh : v'.lh ≤ LOGSIZE - MAXOPBLOCKS + 1
  took : Took { v with ino := paint f A v.ino, lh := v'.lh, out := out } lk loc v'

/-- A volume in which `p` may call `chperm`. -/
structure Vol.Walk (sb : Superblock) (p : Nat) (v : Vol) : Prop where
  ready : v.Ready sb
  cwds : v.Cwds
  tree : v.Tree sb
  out : 0 ≤ v.out

namespace Painted

variable {lk lk' : Nat → Bool} {loc loc' : Nat → Int} {out : Int} {v1 v2 : Vol}

section

variable (h : Painted sb f A lk loc out v v1)
include h

theorem ino : v1.ino = paint f A v.ino := h.took.ino

theorem out_eq : v1.out = out := by rw [h.took.rest]; rfl

theorem congr (hAB : ∀ i, A i ↔ B i) : Painted sb f B lk loc out v v1 := by
  obtain rfl : A = B := funext fun i => propext (hAB i)
  exact h

theorem lh_lt : v1.lh < NBUF := lt_of_le_of_lt h.lh (by decide)

theorem shape : v.SameShape v1 := by
  refine ⟨?_, ?_, ?_, h.took.byte⟩
  · intro i
    rw [h.ino]
    exact paint_shape.1
  · intro i
    rw [h.ino]
    exact paint_shape.2.1
  · intro i
    rw [h.ino]
    exact paint_shape.2.2

/-- Something happens to the inode cache. -/
theorem step (hok : v2.Ok sb) (hT : Took v1 lk' loc' v2)
    (hloc : ∀ k, 0 ≤ loc k) : Painted sb f A lk' (loc + loc') out v v2 := by
  refine ⟨hok, ?_, ?_⟩
  · rw [hT.lh]
    exact h.lh
  · rw [hT.lh]
    exact h.took.trans hT hloc

end

/-- More is painted. -/
theorem trans (hf : ∀ x, f (f x) = f x) (h : Painted sb f A lk loc out v v1)
    (h' : Painted sb f B lk' loc' v1.out v1 v2) (hloc : ∀ k, 0 ≤ loc k) :
    Painted sb f (fun i => A i ∨ B i) lk' (loc + loc') out v v2 := by
  have hT := h.took
  have hT' := h'.took
  refine ⟨h'.ok, h'.lh, ?_, hT'.tabs.trans hT.tabs, ?_, ?_, hT'.locked⟩
  · have hrest := hT'.rest
    rw [hrest]
    unfold withMem
    rw [h.ino, paint_paint hf, h.out_eq, hT.rest]
    rfl
  · intro k
    have h1 : (v1.slot k).ref = (v.slot k).ref + loc k := hT.ref k
    have h2 : (v2.slot k).ref = (v1.slot k).ref + loc' k := hT'.ref k
    show (v2.slot k).ref = (v.slot k).ref + (loc k + loc' k)
    omega
  · intro k hk
    have hk1 : 1 ≤ (v1.slot k).ref := by
      have h1 : (v1.slot k).ref = (v.slot k).ref + loc k := hT.ref k
      have h2 := hloc k
      have h3 : 1 ≤ (v.slot k).ref := hk
      omega
    exact (hT'.inum k hk1).trans (hT.inum k hk)

theorem walk (h : Painted sb f A lk loc out v v1) (hW : v.Walk sb p) (hlk : lk = v.locks)
    (hloc : ∀ k, 0 ≤ loc k) (hout : 0 ≤ out) : v1.Walk sb p := by
  have hT := h.took
  have hshape := h.shape
  have href : ∀ k, (v1.slot k).ref = (v.slot k).ref + loc k := hT.ref
  refine ⟨⟨h.ok, hshape.dirs (hT.used_subset hloc) hW.ready.dirs, ?_, ?_, h.lh_lt⟩, ?_,
    hshape.tree hW.tree, by rw [h.out_eq]; exact hout⟩
  · intro k hk
    rw [hT.locked, hlk]
    exact hW.ready.free k hk
  · intro k hk
    have h0 := hW.ready.nonneg k hk
    have h1 := hloc k
    rw [href k]
    omega
  · intro q c hc
    rw [hT.tabs] at hc
    obtain ⟨hlt, href1, ht⟩ := hW.cwds q c hc
    have h1 := hloc c
    refine ⟨hlt, ?_, ?_⟩
    · rw [href c]
      omega
    · rw [hT.inum c href1, hshape.type]
      exact ht

theorem start_eq (h : Painted sb f A lk loc out v v1) (hcwd : v.Cwds) (path : List UInt8) :
    v1.start p path = v.start p path := by
  unfold start
  rw [h.took.tabs]
  split
  · rfl
  · show (v.mem.tabs.proc p).cwd.map v1.inum = (v.mem.tabs.proc p).cwd.map v.inum
    cases hc : (v.mem.tabs.proc p).cwd with
    | none => rfl
    | some c =>
      have hinum : v1.inum c = v.inum c := h.took.inum c (hcwd p c hc).2.1
      rw [Option.map_some, Option.map_some, hinum]

theorem names (h : Painted sb f A lk loc out v v1) (hcwd : v.Cwds) (path : List UInt8) :
    v1.names p path = v.names p path := by
  unfold Vol.names
  rw [h.start_eq hcwd]
  cases v.start p path with
  | none => rfl
  | some i => exact h.shape.resolve i _

/-- **Room for the call for a child**, in terms of the volume before.  Of a third level there is none: two
    operations and one logged block leave no room for another operation. -/
theorem room_iff {e : Nat} (h : Painted sb f A v.locks (point (some k)) (v.out + 1) v v1)
    (hW : v.Walk sb p) (hk : k < NINODE) (hi : v1.inum k = i) (hj : v.deInum i e < sb.ninodes) :
    v1.ChmodRoom sb (v.logAt sb l i e) p (v.deInum i e) (built path (v.entryName i e)) ↔
      v.ChildRoom sb l p i path e := by
  have hout := h.out_eq
  have h0 := hW.out
  have hused : v1.used = insert i v.used := by
    rw [← hi]
    exact h.took.used_point hk (hW.ready.nonneg k hk)
  have hlen : 1 ≤ (v.logAt sb l i e).length := length_pos_of_ne_nil logAt_ne_nil
  have hsize : LOGSIZE = 30 ∧ MAXOPBLOCKS = 10 := ⟨rfl, rfl⟩
  constructor
  · rintro ⟨hbegins, hfinds, hbelow⟩
    have hbegins : ((v.logAt sb l i e).length : Int) + (v1.out + 1) * 10 ≤ 30 := hbegins
    rw [hout] at hbegins
    refine ⟨by omega, ?_, by omega, ?_⟩
    · rintro n j ⟨hd, ht, e', hlive', -, -⟩
      rw [← h.shape.type] at ht
      rw [← h.shape.live] at hlive'
      have := (hbelow ht e' hlive').out
      omega
    · rw [hused] at hfinds
      exact h.shape.symm.finds (h.start_eq hW.cwds _).symm hfinds
  · rintro ⟨hout0, hleaf, hlog, hfinds⟩
    refine ⟨?_, ?_, ?_⟩
    · show ((v.logAt sb l i e).length : Int) + (v1.out + 1) * 10 ≤ 30
      omega
    · rw [hused]
      exact h.shape.finds (h.start_eq hW.cwds _) hfinds
    · intro ht e' hlive'
      rw [h.shape.type] at ht
      rw [h.shape.live] at hlive'
      exact absurd ⟨hj, ht, e', hlive', rfl, rfl⟩ (hleaf _ _)

end Painted

/-! ## The calls, when nothing waits -/

section Rules

variable {α : Type} {Q : α → Vol × List Nat → Prop} {f : Unit → Up α}

theorem patient_ilock (hk : k < NINODE) (href : 1 ≤ (v.slot k).ref)
    (hfree : v.locks k = false) (ht : (v.ino (v.inum k)).type ≠ 0) (hlh : v.lh < NBUF)
    (h : ∀ v', v'.Ok sb → Took v (update v.locks k true) 0 v' → v'.Held k →
      (v'.slot k).din = v.ino (v.inum k) → (f ()).wp (patient tot sb) Q (v', l)) :
    (ilock k >>= f).wp (patient tot sb) Q (v, l) :=
  patiently (Q := fun _ v' => v'.Ok sb ∧ Took v (update v.locks k true) 0 v' ∧
      v'.Held k ∧ (v'.slot k).din = v.ino (v.inum k)) (uses_op (o := .ilock k) trivial)
    (Vol.wp_ilock (f := pure) hk href hfree ht (fun _ => hlh) fun _ h1 h2 h3 h4 => ⟨h1, h2, h3, h4⟩)
    fun _ v' h' => h v' h'.1 h'.2.1 h'.2.2.1 h'.2.2.2

theorem patient_iunlock (hk : k < NINODE) (href : 1 ≤ (v.slot k).ref) (hlock : v.locks k = true)
    (h : ∀ v', v'.Ok sb → Took v (update v.locks k false) 0 v' → (f ()).wp (patient tot sb) Q (v', l)) :
    (iunlock k >>= f).wp (patient tot sb) Q (v, l) :=
  patiently (Q := fun _ v' => v'.Ok sb ∧ Took v (update v.locks k false) 0 v')
    (uses_op (o := .iunlock k) trivial)
    (Vol.wp_iunlock (f := pure) hk href hlock fun _ h1 h2 => ⟨h1, h2⟩) fun _ v' h' => h v' h'.1 h'.2

theorem patient_iunlockput (hk : k < NINODE) (href : 1 ≤ (v.slot k).ref)
    (hlock : v.locks k = true) (hlive : 2 ≤ (v.slot k).ref ∨ (v.ino (v.inum k)).nlink ≠ 0)
    (h : ∀ v', v'.Ok sb → Took v (update v.locks k false) (Pi.single k (-1)) v' →
      (f ()).wp (patient tot sb) Q (v', l)) :
    (iunlockput k >>= f).wp (patient tot sb) Q (v, l) := by
  have hall : (iunlockput k >>= pure).wp (spec sb (.roomy tot)) (fun _ v' => v'.Ok sb ∧
      Took v (update v.locks k false) (Pi.single k (-1)) v') v :=
    wp_iunlockput hk href hlock hlive fun _ h1 h2 => ⟨h1, h2⟩
  rw [show (iunlockput k >>= pure) = iunlockput k from bind_ret _] at hall
  exact patiently (uses_iunlockput k) hall fun _ v' h' => h v' h'.1 h'.2

theorem patient_readEntry {f : Nat × Bytes → Up α} (hv : v.Ok sb) (hk : v.Held k)
    (ht : (v.ino (v.inum k)).type = T_DIR) (hwhole : (v.ino (v.inum k)).size % DIRENT = 0)
    (he : e ∈ entries (v.ino (v.inum k)).size) (hlh : v.lh < NBUF)
    (h : ∀ d, (∀ o, o < DIRENT → d o = v.byte (v.inum k) (DIRENT * e + o)) →
      (f (DIRENT, d)).wp (patient tot sb) Q (v, l)) :
    (readi k .kernel (DIRENT * e) DIRENT >>= f).wp (patient tot sb) Q (v, l) := by
  refine patiently (Q := fun r v' => v' = v ∧ r.1 = DIRENT ∧
      ∀ o, o < DIRENT → r.2 o = v.byte (v.inum k) (DIRENT * e + o))
    (uses_op (o := .readi k .kernel (DIRENT * e) DIRENT) trivial)
    (wp_readEntry (f := pure) hv hk ht hwhole he (fun _ => hlh) fun d hd => ⟨rfl, rfl, hd⟩) ?_
  rintro ⟨r, d⟩ v' ⟨rfl, rfl, hd⟩
  exact h d hd

theorem patient_inode {f : Fields → Up α} (h : (f (v.slot k).fields).wp (patient tot sb) Q (v, l)) :
    (inode k >>= f).wp (patient tot sb) Q (v, l) := by
  refine ⟨⟨⟨trivial, trivial⟩, fun _ => trivial⟩, ?_⟩
  rintro r ⟨v', l'⟩ ⟨⟨⟨rfl, rfl⟩, rfl⟩, -⟩
  exact h

theorem patient_updPerm {x : Nat} (hk : v.Held k) (hx : x < 65536)
    (hout : 1 ≤ v.out) (hlh : v.lh + 1 < sb.nlog)
    (h : Vol.Ok sb (v.setIno k fun d => { d with perm := x }) → (f ()).wp (patient tot sb) Q
      (v.setIno k fun d => { d with perm := x }, addBlock l (sb.iblock (v.inum k)))) :
    (updPerm k x >>= f).wp (patient tot sb) Q (v, l) := by
  refine ⟨⟨⟨hk, hx, fun _ => ⟨hout, hlh⟩⟩, fun _ => trivial⟩, ?_⟩
  rintro ⟨⟩ ⟨v', l'⟩ ⟨⟨rfl, rfl⟩, hok⟩
  exact h hok

theorem patient_endOp (h : Vol.Ok sb { v with out := v.out - 1, lh := if v.out = 1 then 0 else v.lh } →
      (f ()).wp (patient tot sb) Q ({ v with out := v.out - 1, lh := if v.out = 1 then 0 else v.lh },
        if v.out = 1 then [] else l)) :
    (endOp >>= f).wp (patient tot sb) Q (v, l) := by
  refine ⟨⟨trivial, fun _ => trivial⟩, ?_⟩
  rintro ⟨⟩ ⟨v', l'⟩ ⟨⟨rfl, rfl⟩, hok⟩
  exact h hok

end Rules

/-! ## The loop over the entries -/

/-- `chperm` is in its loop: it has locked the directory `i` in slot `k`. -/
structure Looping (sb : Superblock) (f : Nat → Nat) (v0 : Vol) (i k : Nat) (A : Nat → Prop) (v : Vol) :
    Prop where
  painted : Painted sb f A (update v0.locks k true) (point (some k)) (v0.out + 1) v0 v
  held : v.Held k
  inum : v.inum k = i

theorem Looping.congr (h : Looping sb f v0 i k A v) (hAB : ∀ x, A x ↔ B x) : Looping sb f v0 i k B v :=
  ⟨h.painted.congr hAB, h.held, h.inum⟩

/-- What is below the entries `es` of the directory `i`. -/
def Vol.Under (v : Vol) (sb : Superblock) (i : Nat) (es : List Nat) (x : Nat) : Prop :=
  ∃ e ∈ es, v.Live i e ∧ v.Sub sb (v.deInum i e) x

section Loop

theorem Vol.under_cons_live (h : v.Live i e) (x : Nat) :
    v.Under sb i (e :: es) x ↔ v.Sub sb (v.deInum i e) x ∨ v.Under sb i es x := by
  constructor
  · rintro ⟨e', he', hlive, hsub⟩
    rcases mem_cons.mp he' with rfl | he'
    · exact .inl hsub
    · exact .inr ⟨e', he', hlive, hsub⟩
  · rintro (hsub | ⟨e', he', hlive, hsub⟩)
    · exact ⟨e, mem_cons_self .., h, hsub⟩
    · exact ⟨e', mem_cons_of_mem _ he', hlive, hsub⟩

theorem Vol.under_cons_dead (h : ¬ v.Live i e) (x : Nat) :
    v.Under sb i (e :: es) x ↔ v.Under sb i es x := by
  constructor
  · rintro ⟨e', he', hlive, hsub⟩
    rcases mem_cons.mp he' with rfl | he'
    · exact absurd hlive h
    · exact ⟨e', he', hlive, hsub⟩
  · rintro ⟨e', he', hlive, hsub⟩
    exact ⟨e', mem_cons_of_mem _ he', hlive, hsub⟩

/-- What the test of the loop sees of an entry. -/
theorem skips_iff {d : Bytes} (he : e ∈ entries (v.ino i).size)
    (hd : ∀ o, o < DIRENT → d o = v.byte i (DIRENT * e + o)) :
    Xv6.deInum d = v.deInum i e ∧ nameOf (Xv6.deName d) = v.entryName i e ∧
    ((DIRENT ≠ DIRENT ∨ Xv6.deInum d = 0 ∨ strncmp (Xv6.deName d) (ofList [46]) DIRSIZ = 0 ∨
      strncmp (Xv6.deName d) (ofList [46, 46]) DIRSIZ = 0) ↔ ¬ v.Live i e) := by
  have hnum : Xv6.deInum d = v.deInum i e := le16_congr (hd 0 (by decide)) (hd 1 (by decide))
  have hname : nameOf (Xv6.deName d) = v.entryName i e := by
    refine nameOf_congr fun o ho => ?_
    have ho : o < 14 := ho
    show d (2 + o) = v.byte i (DIRENT * e + 2 + o)
    rw [hd (2 + o) (by show 2 + o < 16; omega), Nat.add_assoc]
  refine ⟨hnum, hname, ?_⟩
  have hdot : strncmp (Xv6.deName d) (ofList [46]) DIRSIZ = 0 ↔ v.entryName i e = [46] := by
    rw [strncmp_name (forall_mem_singleton.mpr (by decide)) (by decide), hname]
  have hdotdot : strncmp (Xv6.deName d) (ofList [46, 46]) DIRSIZ = 0 ↔ v.entryName i e = [46, 46] := by
    rw [strncmp_name (forall_mem_cons.mpr ⟨by decide, forall_mem_singleton.mpr (by decide)⟩)
      (by decide), hname]
  rw [hnum, hdot, hdotdot]
  constructor
  · rintro (h | h | h | h) hlive
    · exact h rfl
    · exact hlive.used h
    · exact hlive.dot h
    · exact hlive.dotdot h
  · intro hlive
    by_contra hno
    simp only [not_or] at hno
    exact hlive ⟨he, hno.2.1, hno.2.2.1, hno.2.2.2⟩

/-- **The loop paints what is below the entries**, if the recursive calls do.  It is at entry `a`, and `m`
    entries are left. -/
theorem chpermEntries_paints (hf : ∀ x, f (f x) = f x) (hW : v0.Walk sb p) (hi : i < sb.ninodes)
    (ht : (v0.ino i).type = T_DIR) {rec : List UInt8 → Up Int}
    (hfits : ∀ n j, v0.Entry sb i n j → v0.Fits path i n j)
    (hrec : ∀ e A v, v0.Live i e → Painted sb f A v0.locks (point (some k)) (v0.out + 1) v0 v →
      v.inum k = i → (tot → v0.ChildRoom sb l p i path e) →
      (rec (built path (v0.entryName i e))).wp (patient tot sb) (fun _ w =>
        Painted sb f (v0.Sub sb (v0.deInum i e)) v.locks 0 v.out v w.1 ∧ v0.ChildRoom sb l p i path e ∧
        w.2 = v0.logAt sb l i (e + 1)) (v, v0.logAt sb l i e)) (m : Nat) :
    ∀ {a A v}, (∀ e, e < a + m → e ∈ entries (v0.ino i).size) →
      (tot → ∀ e, a ≤ e → v0.Live i e → v0.ChildRoom sb l p i path e) → Looping sb f v0 i k A v →
      (chpermEntries rec path k (range' a m)).wp (patient tot sb)
        (fun _ w => Looping sb f v0 i k (fun x => A x ∨ v0.Under sb i (range' a m) x) w.1 ∧
          (∀ e, a ≤ e → e < a + m → v0.Live i e → v0.ChildRoom sb l p i path e) ∧
          w.2 = v0.logAt sb l i (a + m)) (v, v0.logAt sb l i a) := by
  induction m with
  | zero =>
    intro a A v _ _ h
    refine ⟨h.congr fun x => (or_iff_left ?_).symm, fun e h1 h2 => absurd h2 (by omega), rfl⟩
    rintro ⟨e, he, -⟩
    exact not_mem_nil he
  | succ m ih =>
    intro a A v hes hroom h
    have he := hes a (by omega)
    have hrest : ∀ e, e < a + 1 + m → e ∈ entries (v0.ino i).size := fun e he' => hes e (by omega)
    have hroom' : tot → ∀ e, a + 1 ≤ e → v0.Live i e → v0.ChildRoom sb l p i path e :=
      fun ht e h1 => hroom ht e (by omega)
    have hshape := h.painted.shape
    rw [range'_succ, show a + (m + 1) = a + 1 + m by omega]
    refine patient_readEntry h.painted.ok h.held ?_ ?_ ?_ h.painted.lh_lt ?_
    · rw [h.inum, hshape.type]
      exact ht
    · rw [h.inum, hshape.size]
      exact hW.ready.dirs.whole i hi ht
    · rw [h.inum, hshape.size]
      exact he
    · intro d hd
      rw [h.inum, hshape.byte] at hd
      obtain ⟨hnum, hname, hskip⟩ := skips_iff he hd
      by_cases hlive : v0.Live i a
      · -- a real child: unlock, recurse, lock again
        rw [if_neg fun hs => hskip.mp hs hlive]
        have hentry : v0.Entry sb i (v0.entryName i a) (v0.deInum i a) := ⟨hi, ht, a, hlive, rfl, rfl⟩
        have hfit := hfits _ _ hentry
        have hchild : childPath path (Xv6.deName d) = some (built path (v0.entryName i a)) := by
          refine childPath_iff.mpr ⟨hfit.ne, hfit.len, ?_, ?_⟩
          · rw [hname]
            exact hfit.read
          · rw [hname]
            rfl
        rw [hchild]
        refine patient_iunlock h.held.lt h.held.ref h.held.locked ?_
        intro v1 hv1 hT1
        have hfree : update v.locks k false = v0.locks := by
          rw [h.painted.took.locked, update_idem, ← hW.ready.free k h.held.lt, update_eq_self]
        have hP1 := h.painted.step hv1 hT1 (point_nonneg _)
        rw [add_zero, hfree] at hP1
        have hinum1 : v1.inum k = i := by rw [hT1.inum k h.held.ref, h.inum]
        refine wp_seq (hrec a A v1 hlive hP1 hinum1 fun ht => hroom ht a le_rfl hlive) ?_
        rintro _ ⟨v2, l2⟩ ⟨hP2, hchildroom, rfl⟩
        have hP := hP1.trans hf hP2 (point_nonneg _)
        rw [add_zero, hP1.took.locked] at hP
        have href1 : 1 ≤ (v1.slot k).ref := by
          rw [hT1.ref, Pi.zero_apply, Int.add_zero]
          exact h.held.ref
        have href2 : 1 ≤ (v2.slot k).ref := by
          have h2 : (v2.slot k).ref = (v1.slot k).ref + 0 := hP2.took.ref k
          omega
        have hinum2 : v2.inum k = i := by
          have h2 : v2.inum k = v1.inum k := hP2.took.inum k href1
          rw [h2, hinum1]
        refine patient_ilock h.held.lt href2 ?_ ?_ hP.lh_lt ?_
        · rw [hP.took.locked]
          exact hW.ready.free k h.held.lt
        · rw [hinum2, hP.shape.type, ht]
          decide
        · intro v3 hv3 hT3 hheld hdin
          have hP3 := hP.step hv3 hT3 (point_nonneg _)
          rw [add_zero, hP.took.locked] at hP3
          refine wp_mono (ih hrest hroom' ⟨hP3, hheld, by rw [hT3.inum k href2, hinum2]⟩) ?_
          rintro _ w ⟨h', hrooms, hl⟩
          refine ⟨h'.congr fun x => ?_, ?_, hl⟩
          · rw [under_cons_live hlive, or_assoc]
          · grind
      · grind [logAt_dead, under_cons_dead]

end Loop

/-! ## `chperm` -/

section Chperm

variable {mode : Nat}

/-- A path names an inode of the table. -/
theorem Vol.Walk.names_lt (hW : v.Walk sb p) (h : v.names p path = some i) :
    ∃ st, v.start p path = some st ∧ v.resolve st (components path) = some i ∧ i < sb.ninodes := by
  obtain ⟨st, hst, hres⟩ := Option.bind_eq_some_iff.mp h
  exact ⟨st, hst, hres, hW.ready.dirs.resolve_lt _ (hW.ready.start_lt hW.cwds hst) hres⟩

/-- The end of `chperm`. -/
theorem chperm_finish (hW : v0.Walk sb p) (hlive : 1 ≤ (v0.slot k).ref ∨ (v0.ino i).nlink ≠ 0)
    (h : Looping sb f v0 i k A v) :
    (do iunlockput k; endOp; pure 0 : Up Int).wp (patient tot sb)
      (fun r w => (r = 0 ∧ Painted sb f A v0.locks 0 v0.out v0 w.1) ∧
        w.2 = if v0.out = 0 then [] else l) (v, l) := by
  have hP := h.painted
  have href : (v.slot k).ref = (v0.slot k).ref + 1 := by
    have h1 : (v.slot k).ref = (v0.slot k).ref + point (some k) k := hP.took.ref k
    rwa [point_self] at h1
  refine patient_iunlockput h.held.lt h.held.ref h.held.locked ?_ ?_
  · rcases hlive with hl | hl
    · exact .inl (by omega)
    · right
      rw [h.inum, hP.shape.nlink]
      exact hl
  · intro v1 hv1 hT1
    have hsum := point_add_single k 0
    rw [add_zero] at hsum
    have hP1 := hP.step hv1 hT1 (point_nonneg _)
    rw [hsum, hP.took.locked, update_idem, ← hW.ready.free k h.held.lt, update_eq_self] at hP1
    refine patient_endOp ?_
    intro hok
    have hlast : v1.out = 1 ↔ v0.out = 0 := by
      rw [hP1.out_eq]
      omega
    refine ⟨⟨rfl, hok, ?_, ?_⟩, if_congr hlast rfl rfl⟩
    · show (if v1.out = 1 then 0 else v1.lh) ≤ _
      split
      · exact Nat.zero_le _
      · exact hP1.lh
    · obtain ⟨hrest, htabs, href, hinum, hlocked⟩ := hP1.took
      refine ⟨?_, htabs, href, hinum, hlocked⟩
      have hout : v1.out - 1 = v0.out := by
        rw [hP1.out_eq]
        omega
      rw [hout, hrest]
      rfl

/-- The inode itself is painted, and the loop may begin. -/
theorem looping_first {n : Nat} {v3 : Vol}
    (hT : Took { v with out := v.out + 1, lh := n } (update v.locks k true) (point (some k)) v3)
    (hn : n ≤ 20) (hheld : v3.Held k) (hinum : v3.inum k = i)
    (hok : Vol.Ok sb (v3.setIno k fun d => { d with perm := f (v.ino i).perm })) :
    Looping sb f v i k (fun x => x = i) (v3.setIno k fun d => { d with perm := f (v.ino i).perm }) := by
  have hslot : ∀ l, (v3.setIno k fun d => { d with perm := f (v.ino i).perm }).slot l =
      if l = k then { v3.slot k with din := { (v3.slot k).din with perm := f (v.ino i).perm } }
      else v3.slot l := by
    intro l
    by_cases hl : l = k
    · subst hl
      rw [if_pos rfl]
      exact v3.upd_slot l _
    · rw [if_neg hl]
      exact v3.upd_slot_ne _ hl
  -- nothing but the permissions has changed in the cache
  have hsame : ∀ l, ((v3.setIno k fun d => { d with perm := f (v.ino i).perm }).slot l).ref = (v3.slot l).ref ∧
      ((v3.setIno k fun d => { d with perm := f (v.ino i).perm }).slot l).inum = (v3.slot l).inum ∧
      ((v3.setIno k fun d => { d with perm := f (v.ino i).perm }).slot l).locked = (v3.slot l).locked ∧
      ((v3.setIno k fun d => { d with perm := f (v.ino i).perm }).slot l).valid = (v3.slot l).valid := by
    grind
  have hlh : v3.lh = n := hT.lh
  have hino : v3.ino = v.ino := hT.ino
  have hpaint : update v3.ino (v3.inum k) { v3.ino (v3.inum k) with perm := f (v.ino i).perm } =
      paint f (fun x => x = i) v.ino := by grind [paint_in, paint_out]
  refine ⟨⟨hok, ?_, ?_, hT.tabs, ?_, ?_, ?_⟩, ⟨hheld.lt, ?_, ?_, ?_⟩, (hsame k).2.1.trans hinum⟩
  · show v3.lh + 1 ≤ 21
    omega
  · unfold setIno
    rw [hpaint, hT.rest]
    rfl
  · intro l
    rw [(hsame l).1]
    exact hT.ref l
  · intro l hl
    exact (hsame l).2.1.trans (hT.inum l hl)
  · funext l
    exact (hsame l).2.2.1.trans (congrFun hT.locked l)
  · rw [(hsame k).1]
    exact hheld.ref
  · rw [(hsame k).2.2.1]
    exact hheld.locked
  · rw [(hsame k).2.2.2]
    exact hheld.valid

/-- **`chperm` paints the subtree**, and has found room.  `above` are the inodes on the way to `i`; the
    recursion cannot be deeper than there are others. -/
theorem chperm_paints (hnlog : sb.nlog = LOGSIZE) (depth : Nat) : ∀ (above : Finset Nat) {v : Vol}
    {l : List Nat} {i : Nat} {path : List UInt8}, v.Walk sb p → v.names p path = some i →
    (∀ d q, Below (v.Entry sb) built i path d q → ∀ n j, v.Entry sb d n j → v.Fits q d n j) →
    (∀ a ∈ above, a < sb.ninodes ∧ Relation.TransGen (v.Child sb) a i) →
    sb.ninodes ≤ above.card + depth → (tot → v.ChmodRoom sb l p i path) →
    (Up.chperm p mode isAdd true depth path).wp (patient tot sb) (fun r w => (r = 0 ∧
        Painted sb (fun x => newPerm x mode isAdd) (v.Sub sb i) v.locks 0 v.out v w.1) ∧
        v.ChmodRoom sb l p i path ∧ w.2 = if v.out = 0 then [] else addBlock l (sb.iblock i)) (v, l) := by
  have hf : ∀ x, newPerm (newPerm x mode isAdd) mode isAdd = newPerm x mode isAdd :=
    fun x => newPerm_newPerm x mode isAdd
  induction depth with
  | zero =>
    intro above v l i path hW hi hfits habove hdepth _
    obtain ⟨-, -, -, hlt⟩ := hW.names_lt hi
    have hnot : i ∉ above := fun h => hW.tree.acyclic i (habove i h).2
    have hsub : insert i above ⊆ Finset.range sb.ninodes := by grind
    have hcard := Finset.card_le_card hsub
    rw [Finset.card_insert_of_notMem hnot, Finset.card_range] at hcard
    omega
  | succ depth ih =>
    intro above v l i path hW hi hfits habove hdepth hroom
    obtain ⟨st, hst, hres, hlt⟩ := hW.names_lt hi
    have hnot : i ∉ above := fun h => hW.tree.acyclic i (habove i h).2
    rw [Up.chperm]
    refine wp_beginOp (fun ht => (hroom ht).begins) ?_
    intro hbegins hok
    have hout := hW.out
    have hn20 : l.length ≤ 20 := by
      have hbegins : (l.length : Int) + (v.out + 1) * 10 ≤ 30 := hbegins
      omega
    -- the volume with one more operation
    have hR1 : Vol.Ready sb { v with out := v.out + 1, lh := l.length } :=
      ⟨hok, ⟨{ hW.ready.dirs.root with }, hW.ready.dirs.whole, fun i e hi ht he hne =>
        { hW.ready.dirs.entry i e hi ht he hne with }⟩, hW.ready.free, hW.ready.nonneg,
        lt_of_le_of_lt hn20 (by decide)⟩
    have hsame : v.SameShape { v with out := v.out + 1, lh := l.length } :=
      ⟨fun _ => rfl, fun _ => rfl, fun _ => rfl, rfl⟩
    refine patiently (uses_namei p path) (namei_spec hR1 hW.cwds hst fun hb =>
      hsame.finds rfl (hroom (not_not.mp fun hnt => hb ⟨rfl, hnt⟩)).finds) ?_
    rintro r v2 ⟨hfinds, hr⟩
    have hfinds : v.Finds v.used p path false := hsame.symm.finds rfl hfinds
    cases r with
    | none =>
      have hr : v.resolve st (components path) = none := hr
      rw [hres] at hr
      cases hr
    | some k =>
      obtain ⟨j, hA, hj⟩ := hr
      obtain rfl : i = j := by
        have hj : v.resolve st (components path) = some j := hj
        rw [hres] at hj
        exact Option.some.inj hj
      have hk := hA.lt
      have hT2 := hA.took
      have href2 : 1 ≤ (v2.slot k).ref := by grind [Ready, Took, point_self]
      have hfree2 : v2.locks k = false := by
        rw [hT2.locked]
        exact hW.ready.free k hk
      have hlh2 : v2.lh = l.length := hT2.lh
      have hino2 : v2.ino = v.ino := hT2.ino
      refine patient_ilock hk href2 hfree2 ?_ ?_ ?_
      · rw [hino2, hA.inum]
        exact hA.type
      · rw [hlh2]
        exact lt_of_le_of_lt hn20 (by decide)
      · intro v3 hv3 hT3 hheld hdin
        rw [hino2, hA.inum] at hdin
        have hT := hT2.trans hT3 (point_nonneg _)
        rw [add_zero, hT2.locked] at hT
        have hinum3 : v3.inum k = i := by rw [hT3.inum k href2, hA.inum]
        have hlh3 : v3.lh = l.length := hT.lh
        have hout3 : v3.out = v.out + 1 := by rw [hT.rest]; rfl
        refine patient_inode ?_
        have hfields : (v3.slot k).fields.perm = (v.ino i).perm ∧ (v3.slot k).fields.type = (v.ino i).type ∧
            (v3.slot k).fields.size = (v.ino i).size := by
          unfold Inode.fields
          rw [hdin]
          exact ⟨rfl, rfl, rfl⟩
        rw [hfields.1, hfields.2.1, hfields.2.2]
        refine patient_updPerm hheld (newPerm_lt ..) (by omega) ?_ ?_
        · rw [hlh3, hnlog]
          have : LOGSIZE = 30 := rfl
          omega
        · intro hok4
          have hloop := looping_first (f := fun x => newPerm x mode isAdd) hT hn20 hheld hinum3 hok4
          rw [hinum3]
          by_cases ht : (v.ino i).type = T_DIR
          · rw [if_pos (by simp [ht])]
            obtain ⟨m, hm⟩ : ∃ m, entries (v.ino i).size = range' 0 m := ⟨_, range_eq_range'⟩
            have hmem : ∀ e, e < 0 + m ↔ e ∈ entries (v.ino i).size := by
              intro e
              rw [hm, mem_range'_1]
              omega
            rw [hm]
            refine wp_seq (chpermEntries_paints hf hW hlt ht (fun n j => hfits i path .self n j) ?_ m
              (fun e => (hmem e).mp) (fun htot e _ => (hroom htot).below ht e) hloop) ?_
            · -- the recursive call, one level further down
              intro e A v' hlive hP hinum hchild
              have hentry : v.Entry sb i (v.entryName i e) (v.deInum i e) := ⟨hlt, ht, e, hlive, rfl, rfl⟩
              have hshape := hP.shape
              have hfit := hfits i path .self _ _ hentry
              have hW' := hP.walk hW rfl (point_nonneg _) (by omega)
              have hnames : v'.names p (built path (v.entryName i e)) = some (v.deInum i e) := by
                rw [hP.names hW.cwds]
                unfold built
                rw [names_built hi hfit.ne, if_neg hfit.name]
                · exact hfit.same
                · exact fun c hc => hW.tree.slash i _ _ hentry c (mem_of_mem_take hc)
                · exact le_trans (length_take_le' ..) hentry.name.2
              have hiff : v'.ChmodRoom sb (v.logAt sb l i e) p _ _ ↔ v.ChildRoom sb l p i path e :=
                hP.room_iff hW hk hinum (hW.ready.dirs.entry i e hlt ht hlive.mem hlive.used).lt
              refine wp_mono (ih (insert i above) hW' hnames ?_ ?_ ?_ fun htot => hiff.mpr (hchild htot)) ?_
              · intro d q hbelow n j he
                rw [hshape.entry] at hbelow he
                exact hshape.fits (hfits d q (.trans (.child .self hentry) hbelow) n j he)
              · rw [hshape.child]
                intro a ha
                rcases Finset.mem_insert.mp ha with rfl | ha
                · exact ⟨hlt, .single ⟨_, hentry⟩⟩
                · exact ⟨(habove a ha).1, (habove a ha).2.tail ⟨_, hentry⟩⟩
              · rw [Finset.card_insert_of_notMem hnot]
                omega
              · rintro r w ⟨⟨-, hP'⟩, hroom', hl⟩
                rw [hshape.sub] at hP'
                refine ⟨hP', hiff.mp hroom', ?_⟩
                rw [hl, logAt_live hlive, if_neg]
                rw [hP.out_eq]
                omega
            · rintro _ ⟨v5, l5⟩ ⟨h5, hrooms, rfl⟩
              have hR : v.ChmodRoom sb l p i path :=
                ⟨hbegins, hfinds, fun _ e hlive => hrooms e (Nat.zero_le e) ((hmem e).mpr hlive.mem) hlive⟩
              refine wp_mono (chperm_finish hW hA.live h5) ?_
              rintro r w ⟨⟨rfl, hP⟩, hl⟩
              refine ⟨⟨rfl, hP.congr fun x => ?_⟩, hR, hl.trans ?_⟩
              · rw [sub_iff, ← hm]
                refine or_congr Iff.rfl ?_
                constructor
                · rintro ⟨e, he, hlive, hsub⟩
                  exact ⟨_, _, ⟨hlt, ht, e, hlive, rfl, rfl⟩, hsub⟩
                · rintro ⟨_, _, ⟨-, -, e, hlive, rfl, rfl⟩, hsub⟩
                  exact ⟨e, hlive.mem, hlive, hsub⟩
              · -- with a child, the log is empty now
                split
                · rfl
                · next h0 => exact logAt_first fun e _ hlive => h0 (hR.below ht e hlive).out
          · -- not a directory: the subtree is the inode
            rw [if_neg (by simp [ht])]
            refine wp_mono (chperm_finish hW hA.live hloop) ?_
            rintro r w ⟨⟨rfl, hP⟩, hl⟩
            refine ⟨⟨rfl, hP.congr fun x => ?_⟩, ⟨hbegins, hfinds, fun h => absurd h ht⟩, hl⟩
            rw [sub_iff]
            refine (or_iff_left ?_).symm
            rintro ⟨_, _, ⟨-, ht', -⟩, -⟩
            exact ht ht'

end Chperm

/-! ## Path strings -/

section Strings

/-- Paths that fit lead to where they should. -/
theorem Vol.Tree.below_names (hT : v.Tree sb) (path : Path) (hi : v.names p path.bytes = some i)
    (hfits : ∀ d q, Below (v.Entry sb) built i path.bytes d q → v.names p q = some d →
      (∀ c ∈ q, c ≠ 0) → q.length < MAXPATH → ∀ n j, v.Entry sb d n j → v.Fits q d n j) :
    ∀ d q, Below (v.Entry sb) built i path.bytes d q →
      v.names p q = some d ∧ (∀ c ∈ q, c ≠ 0) ∧ q.length < MAXPATH := by
  intro d q h
  induction h with
  | self => exact ⟨hi, path.nonul, path.short⟩
  | @child d j q n h he ih =>
    obtain ⟨hd, h0, hlen⟩ := ih
    have hfit := hfits d q h hd h0 hlen n j he
    refine ⟨?_, ?_, ?_⟩
    · grind [Tree, Fits, built, names_built]
    · intro c hc
      rcases mem_append.mp hc with hc | hc
      · exact withSlash_ne_zero h0 c hc
      · exact he.name.1 c (mem_of_mem_take hc)
    · have hroom := hfit.len
      unfold built roomAfter
      rw [length_append, length_take]
      omega

/-- Short paths and names fit, all the way down. -/
theorem Vol.Tree.fits_of_short (hT : v.Tree sb) (hne : path ≠ [])
    (hlong : ∀ d q, Below (v.Entry sb) slashed i path d q → q.length < MAXPATH)
    (hshort : ∀ d n j, v.Sub sb i d → v.Entry sb d n j → n.length < DIRSIZ) :
    ∀ d q, Below (v.Entry sb) built i path d q → ∀ n j, v.Entry sb d n j → v.Fits q d n j := by
  -- what the code builds is no longer than what one would write
  have hbelow : ∀ d q, Below (v.Entry sb) built i path d q → q ≠ [] ∧ v.Sub sb i d ∧
      ∃ q', Below (v.Entry sb) slashed i path d q' ∧ q.length ≤ q'.length := by
    intro d q h
    induction h with
    | self => exact ⟨hne, .refl, path, .self, le_rfl⟩
    | @child d j q n h he ih =>
      obtain ⟨hq, hsub, q', hq', hle⟩ := ih
      refine ⟨?_, hsub.tail ⟨n, he⟩, slashed q' n, .child hq' he, ?_⟩
      · obtain ⟨⟨a, ha, -⟩, -⟩ := withSlash_cases hq
        unfold built
        rw [ha]
        simp
      · grind [withSlash, built, slashed]
  intro d q h n j he
  obtain ⟨hq, hsub, q', hq', hle⟩ := hbelow d q h
  have hnext := hlong j (slashed q' n) (.child hq' he)
  unfold slashed at hnext
  rw [length_append, length_cons] at hnext
  exact Vol.fits_of_short hT he hq (hshort d n j hsub he) (by omega)

end Strings

/-! ## On the kernel -/

namespace Kern

variable {s s' : Kern} {mode : Nat}

/-- From `s` to `s'` the inodes `A` have new permissions, in the cache and — between operations — on the
    disk, and no other inode has changed; the inode cache and the tables are used as before. -/
structure Repainted (sb : Superblock) (s : Kern) (A : Nat → Prop) (mode : Nat) (isAdd : Bool) (s' : Kern) :
    Prop where
  inside : ∀ j, j < sb.ninodes → A j →
    s'.dinode sb j = { s.dinode sb j with perm := Up.newPerm (s.dinode sb j).perm mode isAdd }
  outside : ∀ j, j < sb.ninodes → ¬ A j → s'.dinode sb j = s.dinode sb j
  cached : ∀ k, k < NINODE → 1 ≤ (s'.mem.icache k).ref → (s'.mem.icache k).valid = true →
    (s'.mem.icache k).din = s'.dinode sb (s'.mem.icache k).inum
  disk : s.mach.log.outstanding = 0 → ∀ j, j < sb.ninodes → inodeAt sb s'.mach.disk j = s'.dinode sb j
  ref : ∀ k, (s'.mem.icache k).ref = (s.mem.icache k).ref
  free : ∀ k, k < NINODE → (s'.mem.icache k).locked = false
  tabs : s'.mem.tabs = s.mem.tabs

/-- The volume that a state at rest shows, for `chperm`. -/
theorem AtRest.walk (hsb : sb.Wf) (hs : s.AtRest sb) (hout : 0 ≤ s.mach.log.outstanding)
    (hT : (s.vol sb).Tree sb) : ∃ v, s.Shows sb v ∧ v.Walk sb p ∧ (s.vol sb).Agree sb v ∧
      ∀ path, v.names p path = (s.vol sb).names p path := by
  obtain ⟨v, hv, hmem, hR, hcwd⟩ := hs.ready hsb
  have hA := hv.agree hsb
  refine ⟨v, hv, ⟨hR, hcwd, hA.tree hs.dirs hT, ?_⟩, hA, ?_⟩
  · rw [← hv.exact.1]
    exact hout
  · intro path
    unfold Vol.names
    rw [hA.start_eq]
    cases hst : (s.vol sb).start p path with
    | none => rfl
    | some st => exact hA.resolve hs.dirs _ (hR.start_lt hcwd (hA.start_eq.trans hst))

section AtRest

variable (hsb : sb.Wf) (hnlog : sb.nlog = LOGSIZE) (hs : s.AtRest sb) (hout : 0 ≤ s.mach.log.outstanding)
  (hT : (s.vol sb).Tree sb) (hi : (s.vol sb).names p path = some i)
  (hfits : ∀ d q, Below ((s.vol sb).Entry sb) built i path d q → ∀ n j, (s.vol sb).Entry sb d n j →
    (s.vol sb).Fits q d n j) {depth : Nat} (hdepth : sb.ninodes ≤ depth)
include hsb hnlog hs hout hT hi hfits hdepth

/-- `chperm` on the volume that a state at rest shows, in terms of the state. -/
theorem AtRest.chperm_wp (hroom : tot → (s.vol sb).ChmodRoom sb s.mach.log.lh p i path) :
    ∃ v, s.Shows sb v ∧ v.Walk sb p ∧ (Up.chperm p mode isAdd true depth path).wp (patient tot sb)
      (fun r w => (r = 0 ∧ Painted sb (fun x => newPerm x mode isAdd) ((s.vol sb).Sub sb i) v.locks 0 v.out
        v w.1) ∧ (s.vol sb).ChmodRoom sb s.mach.log.lh p i path) (v, s.mach.log.lh) := by
  obtain ⟨v, hv, hW, hA, hnames⟩ := hs.walk (p := p) hsb hout hT
  have hentry := hA.entry hs.dirs
  have hsub : v.Sub sb i = (s.vol sb).Sub sb i := by
    unfold Vol.Sub Vol.Child
    rw [hentry]
  have hname : v.names p path = some i := (hnames path).trans hi
  obtain ⟨-, -, -, hlt⟩ := hW.names_lt hname
  have hstart : ∀ q i, v.start p q = some i → i < sb.ninodes := fun q i => hW.ready.start_lt hW.cwds
  have hout : v.out = (s.vol sb).out := hv.exact.1.symm
  refine ⟨v, hv, hW, wp_mono (chperm_paints hnlog depth ∅ hW hname ?_
    (fun a ha => absurd ha (Finset.notMem_empty a)) (by simpa using hdepth) fun ht => ?_) ?_⟩
  · rw [hentry]
    exact fun d q h n j he => hA.fits hs.dirs he.1 (hfits d q h n j he)
  · refine hA.room hs.dirs hout (fun q i hi => hstart q i ?_) hlt (hroom ht)
    rwa [hA.start_eq]
  · rintro r w ⟨hpaint, hroom, -⟩
    rw [hsub] at hpaint
    exact ⟨hpaint, hA.symm.room hW.ready.dirs hout.symm hstart hlt hroom⟩

/-- With room for it, nothing waits. -/
theorem AtRest.chperm_guarded (hroom : (s.vol sb).ChmodRoom sb s.mach.log.lh p i path) :
    (Up.chperm p mode isAdd true depth path).Guarded (icall sb) Patient s := by
  obtain ⟨v, hv, -, hwp⟩ := hs.chperm_wp hsb hnlog hout hT hi hfits hdepth fun _ => hroom
  exact hv.logs.guarded hsb hwp

/-- **`chperm` on the kernel**: with paths that fit and nothing to wait for, it returns 0 and has changed
    the permissions of the subtree, and nothing else; and there was room for it. -/
theorem AtRest.chperm (hG : (Up.chperm p mode isAdd true depth path).Guarded (icall sb) Patient s) :
    ∃ s', (Up.chperm p mode isAdd true depth path).run (icall sb) s = .ok (0, s') ∧
      s.Repainted sb ((s.vol sb).Sub sb i) mode isAdd s' ∧
      (s.vol sb).ChmodRoom sb s.mach.log.lh p i path := by
  obtain ⟨v, hv, hW, hwp⟩ := hs.chperm_wp hsb hnlog hout hT hi hfits hdepth False.elim
  obtain ⟨r, s', ⟨v', l'⟩, hrun, ⟨⟨rfl, hP⟩, hroom⟩, hw'⟩ := hv.logs.patiently hsb hG hwp
  have hv' : s'.Shows sb v' := hw'.shows
  have hm := hv.mem
  have hm' := hv'.mem
  refine ⟨s', hrun, ⟨?_, ?_, ?_, ?_, ?_, ?_, ?_⟩, hroom⟩
  · intro j hj hin
    rw [hv.dinode hsb hj, hv'.dinode hsb hj, hP.ino, paint_in hin]
  · intro j hj hout
    rw [hv.dinode hsb hj, hv'.dinode hsb hj, hP.ino, paint_out hout]
  · intro k hk href hvalid
    rw [hm'] at href hvalid ⊢
    rw [hv'.dinode hsb (hv'.ok.slots.inum k hk href)]
    exact (hv'.ok.slots.valid k hk href hvalid (by simp)).1
  · intro h0 j hj
    refine hv'.onDisk hsb ?_ hj
    rw [hv'.exact.1, hP.out_eq, ← hv.exact.1, h0]
  · intro k
    rw [hm, hm']
    have href : (v'.slot k).ref = (v.slot k).ref + 0 := hP.took.ref k
    rwa [Int.add_zero] at href
  · intro k hk
    rw [hm']
    exact (congrFun hP.took.locked k).trans (hW.ready.free k hk)
  · rw [hm, hm']
    exact hP.took.tabs

end AtRest

end Kern

/-- **Recursive `chmod` updates exactly the subtree.**  In a file system at rest whose directories form a
    tree, when the path strings of the descendants are shorter than `MAXPATH`, the names shorter than
    `DIRSIZ`, and in the run no `begin_op` has to wait and no `iget` finds the inode cache full: `chperm`
    returns 0, the inode at the path and all inodes below it have the new permissions, and no other inode
    and no other field has changed. -/
theorem chperm_exactly_subtree {sb : Superblock} (hsb : sb.Wf) (hnlog : sb.nlog = LOGSIZE) {s : Kern}
    (hs : s.AtRest sb) (hout : 0 ≤ s.mach.log.outstanding) (hT : (s.vol sb).Tree sb) {p i : Nat}
    {path : List UInt8} (hne : path ≠ []) (hi : (s.vol sb).names p path = some i)
    (hlong : ∀ d q, Below ((s.vol sb).Entry sb) slashed i path d q → q.length < MAXPATH)
    (hshort : ∀ d n j, (s.vol sb).Sub sb i d → (s.vol sb).Entry sb d n j → n.length < DIRSIZ)
    (mode : Nat) (isAdd : Bool) {depth : Nat} (hdepth : sb.ninodes ≤ depth)
    (hG : (Up.chperm p mode isAdd true depth path).Guarded (I := Inodes) (Kern.icall sb) Kern.Patient s) :
    ∃ s', (Up.chperm p mode isAdd true depth path).run (I := Inodes) (Kern.icall sb) s = .ok (0, s') ∧
      s.Repainted sb ((s.vol sb).Sub sb i) mode isAdd s' := by
  obtain ⟨s', hrun, hpaint, -⟩ := hs.chperm hsb hnlog hout hT hi (hT.fits_of_short hne hlong hshort) hdepth hG
  exact ⟨s', hrun, hpaint⟩

/-- `chmod -R` of the root, with one file in it. -/
theorem chperm_root_and_file : ∃ m,
    initlog (bootMach 1 (OneFile.disk 1 1)) mkfsSb.logstart mkfsSb.nlog = .ok m ∧
    ∃ s', (Up.chperm 0 4 true true 200 [47]).run (I := Inodes) (Kern.icall mkfsSb)
        ⟨m, OneFile.openMem 1 1 0⟩ = .ok (0, s') ∧
      Kern.Repainted mkfsSb ⟨m, OneFile.openMem 1 1 0⟩ (fun j => j = ROOTINO ∨ j = 2) 4 true s' := by
  obtain ⟨m, hm, hout, hs, hA⟩ := atRest
  obtain ⟨hlone, hD⟩ := lone_dirs
  have hentry := hA.entry hD
  have hguard : (match initlog (bootMach 1 (disk 1 1)) mkfsSb.logstart mkfsSb.nlog with
      | .ok m => decide ((Up.chperm 0 4 true true 200 [47]).Guarded (icall mkfsSb)
          Kern.Patient ⟨m, openMem 1 1 0⟩)
      | .error _ => false) = true := by decide +kernel
  rw [hm] at hguard
  obtain ⟨s', hrun, hpaint⟩ := chperm_exactly_subtree mkfsSb_wf rfl hs (Int.le_of_eq hout.symm)
    (hA.tree hD hlone.tree) (cons_ne_nil 47 []) (show _ = some ROOTINO from rfl)
    (by
      rw [hentry]
      intro d q hb
      rcases hlone.below hb with ⟨-, rfl⟩ | ⟨-, rfl⟩ <;> decide)
    (by
      rw [hentry]
      intro d n j _ he
      obtain ⟨-, rfl, -⟩ := hlone.entry.mp he
      decide) 4 true (show mkfsSb.ninodes ≤ 200 by decide) (of_decide_eq_true hguard)
  refine ⟨m, hm, s', hrun, ?_⟩
  have hsub : (vol mkfsSb ⟨m, openMem 1 1 0⟩).Sub mkfsSb ROOTINO = fun j => j = ROOTINO ∨ j = 2 := by
    funext j
    rw [sub_iff, hentry]
    refine propext (or_congr Iff.rfl ?_)
    constructor
    · rintro ⟨n, k, he, hk⟩
      obtain ⟨-, -, rfl⟩ := hlone.entry.mp he
      rw [sub_iff, hentry] at hk
      rcases hk with rfl | ⟨_, _, he, -⟩
      · rfl
      · exact absurd (hlone.entry.mp he).1 (by decide)
    · rintro rfl
      exact ⟨[97], 2, hlone.entry.mpr ⟨rfl, rfl, rfl⟩, .refl⟩
  rwa [hsub] at hpaint

/-- With all entries of the inode cache in use, `chmod -R` of the root panics, though no `begin_op` has to
    wait. -/
theorem chperm_full_cache : ∃ m,
    initlog (bootMach 1 Crowd.disk) mkfsSb.logstart mkfsSb.nlog = .ok m ∧ m.log.outstanding = 0 ∧
    Kern.AtRest mkfsSb ⟨m, Crowd.mem⟩ ∧ (Kern.vol mkfsSb ⟨m, Crowd.mem⟩).Tree mkfsSb ∧
    (Kern.vol mkfsSb ⟨m, Crowd.mem⟩).names 0 [47] = some ROOTINO ∧
    (∀ d q, Below ((Kern.vol mkfsSb ⟨m, Crowd.mem⟩).Entry mkfsSb) slashed ROOTINO [47] d q →
      q.length < MAXPATH) ∧
    (∀ d n j, (Kern.vol mkfsSb ⟨m, Crowd.mem⟩).Entry mkfsSb d n j → n.length < DIRSIZ) ∧
    (Up.chperm 0 4 true true 200 [47]).Guarded (I := Inodes) (Kern.icall mkfsSb) Kern.LogRoom
      ⟨m, Crowd.mem⟩ ∧
    (Up.chperm 0 4 true true 200 [47]).run (I := Inodes) (Kern.icall mkfsSb) ⟨m, Crowd.mem⟩ =
      .error (.panic "iget: no inodes") := by
  obtain ⟨m, hm, hout, hs, hA⟩ := Crowd.atRest
  have hlone := Crowd.lone
  have hentry := hA.entry Crowd.dirs
  have hguard : (match initlog (bootMach 1 Crowd.disk) mkfsSb.logstart mkfsSb.nlog with
      | .ok m => decide ((Up.chperm 0 4 true true 200 [47]).Guarded (icall mkfsSb)
          Kern.LogRoom ⟨m, Crowd.mem⟩) &&
        failsWith ((Up.chperm 0 4 true true 200 [47]).run (icall mkfsSb) ⟨m, Crowd.mem⟩)
          (.panic "iget: no inodes")
      | .error _ => false) = true := by decide +kernel
  rw [hm] at hguard
  obtain ⟨hguard, hfails⟩ := Bool.and_eq_true_iff.mp hguard
  refine ⟨m, hm, hout, hs, hA.tree Crowd.dirs hlone.tree, rfl, ?_, ?_, of_decide_eq_true hguard,
    failsWith_eq hfails⟩
  · rw [hentry]
    intro d q hb
    rcases hlone.below hb with ⟨-, rfl⟩ | ⟨-, rfl⟩ <;> decide
  · rw [hentry]
    intro d n j he
    obtain ⟨-, rfl, -⟩ := hlone.entry.mp he
    decide

/-- **Where recursive `chmod` stays within the subtree.**  For every path that `sys_chmod` accepts and that
    names an inode: in every directory of the recursion the array `child_path` is left by no access, is
    terminated and names the entry's inode, and the recursion ends and changes nothing outside of the
    subtree — exactly if all these paths fit and the log and the inode cache have room. -/
theorem child_paths_iff {sb : Superblock} (hsb : sb.Wf) (hnlog : sb.nlog = LOGSIZE) {s : Kern}
    (hs : s.AtRest sb) (hout : 0 ≤ s.mach.log.outstanding) (hT : (s.vol sb).Tree sb) {p i : Nat}
    (path : Path) (hi : (s.vol sb).names p path.bytes = some i) :
    ((∀ d q, Below ((s.vol sb).Entry sb) built i path.bytes d q → d < sb.ninodes →
        ((s.vol sb).ino d).type = T_DIR → ∀ e, (s.vol sb).Live d e →
        ∃ buf c, Up.childBuf q ((s.vol sb).deName d e) = some buf ∧ Up.cstring MAXPATH buf = some c ∧
          (s.vol sb).names p c = some ((s.vol sb).deInum d e)) ∧
      ∀ mode isAdd depth, sb.ninodes ≤ depth →
        ∃ r s', (Up.chperm p mode isAdd true depth path.bytes).run (I := Inodes) (Kern.icall sb) s =
            .ok (r, s') ∧
          ∀ j, j < sb.ninodes → ¬ (s.vol sb).Sub sb i j → s'.dinode sb j = s.dinode sb j) ↔
    (∀ d q, Below ((s.vol sb).Entry sb) built i path.bytes d q → ∀ n j, (s.vol sb).Entry sb d n j →
      (s.vol sb).Fits q d n j) ∧ (s.vol sb).ChmodRoom sb s.mach.log.lh p i path.bytes := by
  constructor
  · rintro ⟨hgood, hends⟩
    -- the array's string is `childPath`, so a good one fits
    have hfits : ∀ d q, Below ((s.vol sb).Entry sb) built i path.bytes d q → (s.vol sb).names p q = some d →
        (∀ c ∈ q, c ≠ 0) → q.length < MAXPATH → ∀ n j, (s.vol sb).Entry sb d n j →
        (s.vol sb).Fits q d n j := by
      intro d q h hd h0 hlen n j he
      obtain ⟨hlt, ht, e, hlive, hn, rfl⟩ := he
      obtain ⟨buf, c, hbuf, hc, hnames⟩ := hgood d q h hlt ht e hlive
      refine (childPath_names hT ⟨hlt, ht, e, hlive, hn, rfl⟩ hd hn).mp ⟨c, ?_, hnames⟩
      rw [childPath_eq ⟨q, h0, hlen⟩, hbuf]
      exact hc
    have hall : ∀ d q, Below ((s.vol sb).Entry sb) built i path.bytes d q → ∀ n j,
        (s.vol sb).Entry sb d n j → (s.vol sb).Fits q d n j := by
      intro d q h n j he
      obtain ⟨hd, h0, hlen⟩ := hT.below_names path hi hfits d q h
      exact hfits d q h hd h0 hlen n j he
    -- a run that ends has found room
    obtain ⟨r, s', hrun, -⟩ := hends 0 true sb.ninodes le_rfl
    obtain ⟨-, -, -, hroom⟩ := hs.chperm hsb hnlog hout hT hi hall le_rfl
      (guarded_of_ok (fun _ _ _ => patient_of_ok) hrun)
    exact ⟨hall, hroom⟩
  · rintro ⟨hfits, hroom⟩
    have hbelow := hT.below_names path hi fun d q h _ _ _ => hfits d q h
    constructor
    · intro d q h hlt ht e hlive
      obtain ⟨hd, h0, hlen⟩ := hbelow d q h
      have he : (s.vol sb).Entry sb d ((s.vol sb).entryName d e) ((s.vol sb).deInum d e) :=
        ⟨hlt, ht, e, hlive, rfl, rfl⟩
      obtain ⟨c, hc, hnames⟩ := (childPath_names hT he hd rfl).mpr (hfits d q h _ _ he)
      rw [childPath_eq ⟨q, h0, hlen⟩] at hc
      obtain ⟨buf, hbuf, hc⟩ := Option.bind_eq_some_iff.mp hc
      exact ⟨buf, c, hbuf, hc, hnames⟩
    · intro mode isAdd depth hdepth
      obtain ⟨s', hrun, hpaint, -⟩ := hs.chperm hsb hnlog hout hT hi hfits hdepth
        (hs.chperm_guarded hsb hnlog hout hT hi hfits hdepth hroom)
      exact ⟨0, s', hrun, hpaint.outside⟩

/-- `chmod -R /` fits and has room, with one file in the root: it ends, and on the way it has named the
    file. -/
theorem child_paths_root : ∃ m,
    initlog (bootMach 1 (OneFile.disk 1 1)) mkfsSb.logstart mkfsSb.nlog = .ok m ∧
    (∃ e buf c, Up.childBuf [47] ((Kern.vol mkfsSb ⟨m, OneFile.openMem 1 1 0⟩).deName ROOTINO e) = some buf ∧
      Up.cstring MAXPATH buf = some c ∧
      (Kern.vol mkfsSb ⟨m, OneFile.openMem 1 1 0⟩).names 0 c = some 2) ∧
    ∃ r s', (Up.chperm 0 4 true true 200 [47]).run (I := Inodes) (Kern.icall mkfsSb)
      ⟨m, OneFile.openMem 1 1 0⟩ = .ok (r, s') := by
  obtain ⟨m, hm, hout, hs, hA⟩ := atRest
  obtain ⟨hlone, hD⟩ := lone_dirs
  have hT := hA.tree hD hlone.tree
  have hentry := hA.entry hD
  have hi : (vol mkfsSb ⟨m, openMem 1 1 0⟩).names 0 [47] = some ROOTINO := rfl
  have hchild : (vol mkfsSb ⟨m, openMem 1 1 0⟩).Entry mkfsSb ROOTINO [97] 2 := by
    rw [hentry]
    exact hlone.entry.mpr ⟨rfl, rfl, rfl⟩
  have hlh : m.log.lh = [] := by
    obtain ⟨v, t, ⟨⟨H, hB⟩, -⟩, -⟩ := hs.shows
    have hlog : m.log = _ := hB.log
    rw [hlog] at hout ⊢
    exact hB.idle (Int.le_of_eq hout)
  have hused : (vol mkfsSb ⟨m, openMem 1 1 0⟩).used.card + 2 < NINODE := by
    show (((Finset.range NINODE).filter fun k => 1 ≤ ((openMem 1 1 0).icache k).ref).image fun k =>
      ((openMem 1 1 0).icache k).inum).card + 2 < NINODE
    decide
  have hgood := (child_paths_iff mkfsSb_wf rfl hs (Int.le_of_eq hout.symm) hT
    ⟨[47], forall_mem_singleton.mpr (by decide), by decide⟩ hi).mpr ⟨by
      intro d q hb n j he
      have he' := he
      rw [hentry] at hb he'
      obtain ⟨rfl, rfl, rfl⟩ := hlone.entry.mp he'
      rcases hlone.below hb with ⟨-, rfl⟩ | ⟨h, -⟩
      · exact Vol.fits_of_short hT he (by decide) (by decide) (by decide)
      · exact absurd h (by decide), by
      refine ⟨?_, finds_of_card (by omega), fun ht e hlive => ⟨hout, ?_, ?_, finds_of_card ?_⟩⟩
      · show (m.log.lh.length : Int) + (m.log.outstanding + 1) * 10 ≤ 30
        rw [hlh, hout]
        decide
      · intro n j he
        rw [hentry] at he
        have hown : (vol mkfsSb ⟨m, openMem 1 1 0⟩).Entry mkfsSb ROOTINO _ _ :=
          ⟨by decide, ht, e, hlive, rfl, rfl⟩
        rw [hentry] at hown
        have h2 := (hlone.entry.mp hown).2.2
        rw [h2] at he
        exact absurd (hlone.entry.mp he).1 (by decide)
      · -- the file is the only child
        rw [logAt_first, hlh]
        · decide
        · intro e' he' hlive'
          have hname : ∀ e, (vol mkfsSb ⟨m, openMem 1 1 0⟩).Live ROOTINO e →
              (vol mkfsSb ⟨m, openMem 1 1 0⟩).entryName ROOTINO e = [97] := by
            intro e hlive
            have hown : (vol mkfsSb ⟨m, openMem 1 1 0⟩).Entry mkfsSb ROOTINO _ _ :=
              ⟨by decide, ht, e, hlive, rfl, rfl⟩
            rw [hentry] at hown
            exact (hlone.entry.mp hown).2.1
          have := hT.uniq ROOTINO e' e (by decide) ht hlive'.mem hlive.mem hlive'.used hlive.used
            ((hname e' hlive').trans (hname e hlive).symm)
          omega
      · have := Finset.card_insert_le ROOTINO (vol mkfsSb ⟨m, openMem 1 1 0⟩).used
        omega⟩
  obtain ⟨hlt, ht, e, hlive, hn, hj⟩ := hchild
  obtain ⟨buf, c, hbuf, hc, hnames⟩ := hgood.1 ROOTINO [47] .self hlt ht e hlive
  obtain ⟨r, s', hrun, -⟩ := hgood.2 4 true 200 (by decide)
  exact ⟨m, hm, ⟨e, buf, c, hbuf, hc, by rw [hnames, hj]⟩, r, s', hrun⟩

/-- The longest path that consists of slashes. -/
def slashes : Path where
  bytes := List.replicate 127 47
  nonul := by
    intro c hc
    rw [List.eq_of_mem_replicate hc]
    decide
  short := by
    rw [List.length_replicate]
    decide

/-- After 127 slashes there is no room for a name: the child of the root is the root, and `chmod -R` calls
    itself until `begin_op` waits forever. -/
theorem child_path_of_slashes : ∃ m,
    initlog (bootMach 1 (OneFile.disk 1 1)) mkfsSb.logstart mkfsSb.nlog = .ok m ∧ m.log.outstanding = 0 ∧
    Kern.AtRest mkfsSb ⟨m, OneFile.openMem 1 1 0⟩ ∧
    (Kern.vol mkfsSb ⟨m, OneFile.openMem 1 1 0⟩).Tree mkfsSb ∧
    (Kern.vol mkfsSb ⟨m, OneFile.openMem 1 1 0⟩).names 0 slashes.bytes = some ROOTINO ∧
    (∃ e, (Kern.vol mkfsSb ⟨m, OneFile.openMem 1 1 0⟩).Live ROOTINO e ∧
      (Kern.vol mkfsSb ⟨m, OneFile.openMem 1 1 0⟩).deInum ROOTINO e = 2 ∧
      (Up.childBuf slashes.bytes ((Kern.vol mkfsSb ⟨m, OneFile.openMem 1 1 0⟩).deName ROOTINO e)).bind
        (Up.cstring MAXPATH) = some slashes.bytes) ∧
    (Up.chperm 0 4 true true 200 slashes.bytes).run (I := Inodes) (Kern.icall mkfsSb)
      ⟨m, OneFile.openMem 1 1 0⟩ = .error .blocked := by
  obtain ⟨m, hm, hout, hs, hA⟩ := atRest
  obtain ⟨hlone, hD⟩ := lone_dirs
  have hrun : (match initlog (bootMach 1 (disk 1 1)) mkfsSb.logstart mkfsSb.nlog with
      | .ok m => failsWith ((Up.chperm 0 4 true true 200 slashes.bytes).run (icall mkfsSb)
          ⟨m, openMem 1 1 0⟩) .blocked
      | .error _ => false) = true := by decide +kernel
  rw [hm] at hrun
  have hcomp : components slashes.bytes = [] := by decide +kernel
  have hchild : (vol mkfsSb ⟨m, openMem 1 1 0⟩).Entry mkfsSb ROOTINO [97] 2 := by
    rw [hA.entry hD]
    exact hlone.entry.mpr ⟨rfl, rfl, rfl⟩
  obtain ⟨-, -, e, hlive, hn, hj⟩ := hchild
  refine ⟨m, hm, hout, hs, hA.tree hD hlone.tree, ?_, ⟨e, hlive, hj, ?_⟩, failsWith_eq hrun⟩
  · show (some ROOTINO).bind (fun i => resolve _ i (components slashes.bytes)) = _
    rw [hcomp]
    rfl
  · rw [← childPath_eq]
    have hslash : withSlash slashes.bytes = slashes.bytes := by decide +kernel
    have hroom : roomAfter slashes.bytes = 0 := by decide +kernel
    refine childPath_iff.mpr ⟨cons_ne_nil _ _, ?_, .inr ?_, ?_⟩
    · rw [hslash]
      exact slashes.short
    · rw [hroom]
      exact Nat.zero_le _
    · rw [hslash, hroom, take_zero, append_nil]

end Xv6
