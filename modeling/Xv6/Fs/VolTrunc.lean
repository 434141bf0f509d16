/-
  TRUNCATING AND FREEING AN INODE: `itrunc` and `iput`.

  `itrunc` frees the blocks of an inode one by one, and between two `bfree`s the inode refers to some
  blocks that are free and to some that are not.  The proof lets the table give up ALL of the inode's
  blocks first: they are then reserved, and each `bfree` gives one of them back.  `Sheds P` is the
  file system while places `P` are still to be done.
-/
import Xv6.Fs.VolInode

namespace Xv6

open Function Prog Bytes Owner Store List Inode Mem Code

variable {x : Dinode} {g : Goal} {i k : Nat} {D : Nat → Dinode} {a : Nat → Nat} {t : Store}
  {sb : Superblock} {α : Type} {kont : Unit → Code α} {Q : α → Store → Prop}

/-- The inode without its contents. -/
def Dinode.emptied (x : Dinode) : Dinode := { x with size := 0, addrs := fun _ => 0 }

theorem Dinode.Ok.emptied (h : x.Ok) : x.emptied.Ok :=
  ⟨h.type, h.nlink, show 0 < 4294967296 by decide, fun _ => show 0 < 4294967296 by decide,
    fun _ _ => rfl, h.mode, h.perm⟩

/-- The inode `i` refers to nothing any more; its blocks are reserved. -/
theorem Fs.shed {y : Dinode}
    (h : Fs sb D (some i) (fun _ => False) t) (hy : ∀ p, y.addrs p = 0) (hok : y.Ok) :
    Fs sb (update D i y) (some i) (fun b => ∃ p, Refers sb D t.blk (i, p) b) t := by
  have href : ∀ ip c, Refers sb (update D i y) t.blk ip c ↔
      Refers sb D t.blk ip c ∧ ip.1 ≠ i := refers_reset hy
  refine h.redo (fun j hj => update_of_ne hj ..) ?_
    ((h.owned.detach fun ip => ip.1 = i).congr (fun _ => Iff.rfl) href fun b => ?_)
    fun b hb j p hr => ?_
  · rw [update_self]
    exact hok
  · grind
  · obtain ⟨hr, hj⟩ := (href _ _).mp hr
    rw [update_of_ne hj]
    exact (h.taint b hb).2 j p hr

/-! ## Between two `bfree`s -/

/-- Places `P` of the inode in slot `k`, which referred to the blocks `A` in the store `t0`, are still
    to be freed. -/
structure Sheds (sb : Superblock) (D : Nat → Dinode) (A : Nat → Nat) (i k : Nat) (x : Dinode)
    (t0 : Store) (P : Nat → Prop) (t : Store) : Prop where
  fs : Fs sb D (some i) (fun b => b ≠ 0 ∧ ∃ p, P p ∧ A p = b) t
  mem : ∃ a, t.mem = t0.mem.setDin k { x with addrs := a } ∧
    (∀ p, p ≤ NDIRECT → P p → a p = A p) ∧ (∀ p, p ≤ NDIRECT → ¬ P p → a p = 0) ∧
    ∀ p, NDIRECT < p → a p = 0
  inum : (t0.mem.icache k).inum = i
  held : t.held = t0.held
  out : t.out = t0.out
  taint : ∀ b, t.taint b → t0.taint b
  data : ∀ c, sb.data ≤ c → t.blk c = t0.blk c
  free : freeBlocks sb t0.blk ≤ freeBlocks sb t.blk

section Sheds

variable {A : Nat → Nat} {p : Nat} {t0 : Store} {P P' : Nat → Prop}

/-- What the inode refers to, place by place. -/
structure Places (sb : Superblock) (A : Nat → Nat) (P : Nat → Prop) : Prop where
  inj : ∀ p q, P p → P q → A p ≠ 0 → A p = A q → p = q
  data : ∀ p, P p → A p ≠ 0 → sb.data ≤ A p

theorem Places.mono (h : Places sb A P) (hP : ∀ p, P' p → P p) : Places sb A P' :=
  ⟨fun p q hp hq => h.inj p q (hP p hp) (hP q hq), fun p hp => h.data p (hP p hp)⟩

namespace Sheds

section

variable (h : Sheds sb D A i k x t0 P t)
include h

/-- A place that refers to nothing is done. -/
theorem skip (hp : P p → A p = 0) : Sheds sb D A i k x t0 (fun q => P q ∧ q ≠ p) t := by
  obtain ⟨a, hmem, h1, h2, h3⟩ := h.mem
  have hX : (fun b => b ≠ 0 ∧ ∃ q, (P q ∧ q ≠ p) ∧ A q = b) = fun b => b ≠ 0 ∧ ∃ q, P q ∧ A q = b := by
    grind
  refine ⟨by rw [hX]; exact h.fs, ⟨a, hmem, fun q hq hPq => h1 q hq hPq.1, fun q hq hn => ?_, h3⟩,
    h.inum, h.held, h.out, h.taint, h.data, h.free⟩
  by_cases hPq : P q
  · obtain rfl : q = p := by
      by_contra hne
      exact hn ⟨hPq, hne⟩
    rw [h1 q hq hPq, hp hPq]
  · exact h2 q hq hPq

/-- `bfree` of the block at a place. -/
theorem wp_bfree (hsb : sb.Wf) (hnt : ¬ g.total) (hp : P p) (h0 : A p ≠ 0) {H : List Nat}
    (hk : (kont ()).wp (spec sb g) Q { t.free sb (A p) with held := H }) :
    (bfree sb (A p) >>= kont).wp (spec sb g) Q { t with held := H } := by
  have hu := h.fs.owned.reserved_used (.inr ⟨h0, p, hp, rfl⟩)
  have hfs : Fs sb D (some i) (fun b => b ≠ 0 ∧ ∃ p, P p ∧ A p = b) { t with held := H } :=
    { h.fs with }
  refine wp_seq (Xv6.wp_bfree hsb hfs hu.1 hu.2 (fun ht => absurd ht hnt) fun ht => absurd ht hnt) ?_
  rintro ⟨⟩ t' rfl
  exact hk

/-- A place above the inode's own addresses is freed: nothing in the inode changes. -/
theorem freed (hsb : sb.Wf) (hA : Places sb A P) (hp : P p) (h0 : A p ≠ 0)
    (ha : (∀ q, q ≤ NDIRECT → P q → q ≠ p → a q = A q) ∧ (∀ q, q ≤ NDIRECT → ¬ P q ∨ q = p → a q = 0) ∧
      ∀ q, NDIRECT < q → a q = 0) :
    Sheds sb D A i k x t0 (fun q => P q ∧ q ≠ p)
      ((t.free sb (A p)).withMem (t0.mem.setDin k { x with addrs := a })) := by
  obtain ⟨a', hmem, -⟩ := h.mem
  have hu := h.fs.owned.reserved_used (.inr ⟨h0, p, hp, rfl⟩)
  have hfs := h.fs.free hsb ⟨h0, p, hp, rfl⟩ (hA.data p hp h0)
  have hX : (fun c => (c ≠ 0 ∧ ∃ q, P q ∧ A q = c) ∧ c ≠ A p) =
      fun c => c ≠ 0 ∧ ∃ q, (P q ∧ q ≠ p) ∧ A q = c := by grind [Places]
  rw [hX] at hfs
  refine ⟨hfs.withMem ?_, ⟨a, rfl, fun q hq hPq => ha.1 q hq hPq.1 hPq.2, fun q hq hn => ha.2.1 q hq ?_,
    ha.2.2⟩, h.inum, h.held, h.out, fun b hb => h.taint b hb.1, fun c hc => ?_, ?_⟩
  · have hs : Slots sb D (some i) t.mem := hfs.slots
    have hslot : (t.mem.icache k).inum = i := by
      rw [hmem]
      exact (congrArg Inode.inum (upd_self ..)).trans h.inum
    rw [← setDin_setDin _ _ { x with addrs := a' }, ← hmem]
    exact hs.setDin hslot _
  · grind
  · show (t.free sb (A p)).blk c = _
    rw [Fs.free_blk hu.1 hc, h.data c hc]
  · refine le_trans h.free (freeBlocks_mono fun c hc hf => ?_)
    show mapBit sb (update t.blk _ _) c = false
    rw [mapBit_clear]
    split
    · rfl
    · exact hf

theorem congr (hP : ∀ q, P' q ↔ P q) : Sheds sb D A i k x t0 P' t := by
  obtain rfl : P' = P := funext fun q => propext (hP q)
  exact h

/-- The cached copy. -/
theorem slot : ∃ a,
    t.mem = t0.mem.setDin k { x with addrs := a } ∧ (t.mem.icache k).din = { x with addrs := a } ∧
    (∀ p, p ≤ NDIRECT → P p → a p = A p) ∧ (∀ p, p ≤ NDIRECT → ¬ P p → a p = 0) ∧
    ∀ p, NDIRECT < p → a p = 0 := by
  obtain ⟨a, hmem, h⟩ := h.mem
  refine ⟨a, hmem, ?_, h⟩
  rw [hmem]
  exact congrArg din (upd_self ..)

end

end Sheds

/-! ## The loops of `itrunc` -/

theorem wp_setAddr_zero (hmem : t.mem = t0.mem.setDin k { x with addrs := a })
    (h : (kont ()).wp (spec sb g) Q (t.withMem (t0.mem.setDin k { x with addrs := update a p 0 }))) :
    (setAddr k p 0 >>= kont).wp (spec sb g) Q t := by
  refine wp_modify ?_
  have hsame : t.mem.upd k (fun ip =>
      { ip with din := { ip.din with addrs := update ip.din.addrs p 0 } }) =
      t0.mem.setDin k { x with addrs := update a p 0 } := by
    rw [hmem, setDin, upd_upd]
    rfl
  rw [hsame]
  exact h

theorem wp_freeDirect (hsb : sb.Wf) (hnt : ¬ g.total) (is : List Nat) (his : ∀ j ∈ is, j ≤ NDIRECT)
    (h : Sheds sb D A i k x t0 P t) (hA : Places sb A P) :
    (freeDirect sb k is).wp (spec sb g)
      (fun _ t' => Sheds sb D A i k x t0 (fun q => P q ∧ q ∉ is) t') t := by
  induction is generalizing P t with
  | nil => exact h.congr fun q => and_iff_left not_mem_nil
  | cons j is ih =>
    have hj := his j (mem_cons_self ..)
    have his' : ∀ j ∈ is, j ≤ NDIRECT := fun j' hj' => his j' (mem_cons_of_mem _ hj')
    obtain ⟨a, hmem, hdin, h1, h2, h3⟩ := h.slot
    have hend : ∀ t', Sheds sb D A i k x t0 (fun q => (P q ∧ q ≠ j) ∧ q ∉ is) t' →
        Sheds sb D A i k x t0 (fun q => P q ∧ q ∉ j :: is) t' := fun t' ht' =>
      ht'.congr fun q => by rw [mem_cons, not_or, and_assoc]
    refine wp_mem ?_
    rw [hdin]
    dsimp only
    split
    · next h0 =>
      refine wp_mono (ih his' (h.skip fun hP => ?_) (hA.mono fun _ hq => hq.1)) fun _ t' => hend t'
      rw [← h1 j hj hP, h0]
    · next h0 =>
      have hP : P j := by
        by_contra hn
        exact h0 (h2 j hj hn)
      rw [h1 j hj hP] at h0 ⊢
      refine h.wp_bfree hsb hnt hP h0 (H := t.held) ?_
      refine wp_setAddr_zero (t := t.free sb (A j)) hmem ?_
      refine wp_mono (ih his' (h.freed hsb hA hP h0 ⟨fun q hq hPq hne => ?_, fun q hq hn => ?_,
        fun q hq => ?_⟩) (hA.mono fun _ hq => hq.1)) fun _ t' => hend t'
      · rw [update_of_ne hne, h1 q hq hPq]
      · grind
      · rw [update_of_ne (by omega), h3 q hq]

theorem wp_freeEntries (hsb : sb.Wf) (hnt : ¬ g.total) {d : Block} {b : Nat} (js : List Nat)
    (hjs : js.Nodup) (hd : ∀ j ∈ js, P (NDIRECT + 1 + j) ∧ A (NDIRECT + 1 + j) = le32 d (4 * j))
    (h : Sheds sb D A i k x t0 P t) (hA : Places sb A P) :
    (freeEntries sb d js).wp (spec sb g) (fun _ t' => ∃ t1, t' = t1.hold b ∧
      Sheds sb D A i k x t0 (fun q => P q ∧ ∀ j ∈ js, q ≠ NDIRECT + 1 + j) t1) (t.hold b) := by
  induction js generalizing P t with
  | nil => exact ⟨t, rfl, h.congr fun q => and_iff_left fun j hj => absurd hj not_mem_nil⟩
  | cons j js ih =>
    obtain ⟨hP, hj⟩ := hd j (mem_cons_self ..)
    obtain ⟨hnot, hnodup⟩ := nodup_cons.mp hjs
    have hd' : ∀ j' ∈ js, (P (NDIRECT + 1 + j') ∧ NDIRECT + 1 + j' ≠ NDIRECT + 1 + j) ∧
        A (NDIRECT + 1 + j') = le32 d (4 * j') := fun j' hj' => by grind
    have hend : ∀ t', (∃ t1, t' = t1.hold b ∧ Sheds sb D A i k x t0
          (fun q => (P q ∧ q ≠ NDIRECT + 1 + j) ∧ ∀ j' ∈ js, q ≠ NDIRECT + 1 + j') t1) →
        ∃ t1, t' = t1.hold b ∧
          Sheds sb D A i k x t0 (fun q => P q ∧ ∀ j' ∈ j :: js, q ≠ NDIRECT + 1 + j') t1 := by
      rintro t' ⟨t1, rfl, ht1⟩
      exact ⟨t1, rfl, ht1.congr fun q => by rw [forall_mem_cons, and_assoc]⟩
    unfold freeEntries
    rw [← hj]
    split
    · next h0 =>
      exact wp_mono (ih hnodup hd' (h.skip fun _ => h0) (hA.mono fun _ hq => hq.1)) fun _ t' => hend t'
    · next h0 =>
      obtain ⟨a, hmem, -, h1, h2, h3⟩ := h.slot
      have hfreed := h.freed hsb hA hP h0 (a := a) ⟨fun q hq hPq _ => h1 q hq hPq, fun q hq hn => ?_, h3⟩
      · rw [← hmem] at hfreed
        refine h.wp_bfree hsb hnt hP h0 (H := b :: t.held) ?_
        exact wp_mono (ih hnodup hd' hfreed (hA.mono fun _ hq => hq.1)) fun _ t' => hend t'
      · exact h2 q hq (hn.resolve_right (by omega))

/-- The indirect block and its entries. -/
theorem wp_freeIndirect (hsb : sb.Wf) (hnt : ¬ g.total) (hP : ∀ q, P q ↔ NDIRECT ≤ q ∧ q < NPLACE)
    (hA0 : ∀ q, NDIRECT < q → A NDIRECT = 0 → A q = 0)
    (hA1 : ∀ j, A NDIRECT ≠ 0 → A (NDIRECT + 1 + j) = le32 (t0.blk (A NDIRECT)) (4 * j))
    (hT : A NDIRECT ≠ 0 → ¬ t0.taint (A NDIRECT))
    (h : Sheds sb D A i k x t0 P t) (hA : Places sb A P) :
    (freeIndirect sb k).wp (spec sb g) (fun _ t' => Sheds sb D A i k x t0 (fun _ => False) t') t := by
  obtain ⟨a, hmem, hdin, h1, h2, h3⟩ := h.slot
  have hlast : P NDIRECT := (hP _).mpr ⟨le_rfl, by decide⟩
  refine wp_mem ?_
  rw [hdin]
  dsimp only
  rw [h1 NDIRECT le_rfl hlast]
  split
  · next h0 =>
    -- without an indirect block there are no entries either
    have hzero : ∀ q, P q → A q = 0 := fun q hq => by
      rcases eq_or_lt_of_le ((hP q).mp hq).1 with rfl | hlt
      · exact h0
      · exact hA0 q hlt h0
    refine ⟨?_, ⟨a, hmem, fun q _ hf => hf.elim, fun q hq _ => ?_, h3⟩, h.inum, h.held, h.out, h.taint,
      h.data, h.free⟩
    · grind [Sheds]
    · by_cases hPq : P q
      · rw [h1 q hq hPq, hzero q hPq]
      · exact h2 q hq hPq
  · next h0 =>
    have hdata := hA.data NDIRECT hlast h0
    have hmeta := hsb.inode_lt
    refine wp_bread_clean (not_inLog hsb (by omega)) (fun hb => hT h0 (h.taint _ hb))
      (fun ht => absurd ht hnt) fun _ => ?_
    refine wp_data (mem_cons_self ..) ?_
    rw [hold_blk, h.data _ hdata]
    refine wp_seq (wp_freeEntries hsb hnt (b := A NDIRECT) (range NINDIRECT) nodup_range
      (fun j hj => ⟨(hP _).mpr ?_, hA1 j h0⟩) h hA) ?_
    · have := mem_range.mp hj
      unfold NPLACE
      omega
    rintro ⟨⟩ t' ⟨t1, rfl, ht1⟩
    refine wp_brelse_hold ?_
    have hleft : ∀ q, (P q ∧ ∀ j ∈ range NINDIRECT, q ≠ NDIRECT + 1 + j) ↔ q = NDIRECT := fun q => by
      constructor
      · rintro ⟨hq, hne⟩
        obtain ⟨hq1, hq2⟩ := (hP q).mp hq
        by_contra hqn
        refine hne (q - (NDIRECT + 1)) (mem_range.mpr ?_) (by omega)
        unfold NPLACE at hq2
        omega
      · rintro rfl
        exact ⟨hlast, fun j _ => by omega⟩
    have ht1 : Sheds sb D A i k x t0 (fun q => q = NDIRECT) t1 := ht1.congr fun q => (hleft q).symm
    obtain ⟨a', hmem', -, -, h2', h3'⟩ := ht1.slot
    refine ht1.wp_bfree hsb hnt rfl h0 (H := t1.held) ?_
    show (setAddr k NDIRECT 0 >>= fun _ => pure ()).wp (spec sb g) _ (t1.free sb (A NDIRECT))
    refine wp_setAddr_zero (t := t1.free sb (A NDIRECT)) hmem' ?_
    have hend := ht1.freed hsb (hA.mono fun q hq => hq ▸ hlast) rfl h0
      (a := update a' NDIRECT 0) ⟨fun q _ hq hne => absurd hq hne, fun q hq _ => ?_, fun q hq => ?_⟩
    · exact hend.congr fun q => ⟨False.elim, fun hq => hq.2 hq.1⟩
    · by_cases hqn : q = NDIRECT
      · rw [hqn, update_self]
      · rw [update_of_ne hqn, h2' q hq hqn]
    · rw [update_of_ne (by omega), h3' q hq]

end Sheds

/-! ## The calls -/

section Calls

variable {v : Vol}

/-- The volume after `itrunc`. -/
def Vol.truncated (v : Vol) (k lh : Nat) : Vol :=
  (v.drop (v.inum k) (v.ino (v.inum k)).emptied lh).upd k fun ip => { ip with din := ip.din.emptied }

theorem wp_itrunc (hsb : sb.Wf) (hR : Rep sb t v) (hk : v.Held k) (hnt : ¬ g.total) :
    (itrunc sb k).wp (spec sb g) (fun _ t' => ∃ lh, Rep sb t' (v.truncated k lh)) t := by
  obtain ⟨hdin, htype, hi⟩ := hk.ino hR.ok
  have hmem := hR.mem
  have hslot : (t.mem.icache k).din = v.ino (v.inum k) := by rw [hmem]; exact hdin
  have hlt := hsb.inode_lt
  -- the inode gives up its blocks
  have hshed := (hR.fs.activate (v.inum k)).shed (y := (v.ino (v.inum k)).emptied) (fun _ => rfl)
    (hR.ok.ino _ hi).emptied
  have hrefers : ∀ p, p < NPLACE → addrAt t.blk (v.ino (v.inum k)) p ≠ 0 →
      Refers sb v.ino t.blk (v.inum k, p) (addrAt t.blk (v.ino (v.inum k)) p) :=
    fun p hp h0 => ⟨hi, htype, hp, rfl, h0⟩
  have hA : Places sb (addrAt t.blk (v.ino (v.inum k))) fun p => p < NPLACE := by
    refine ⟨fun p q hp hq h0 he => ?_, fun p hp h0 => (hR.fs.refers_data (hrefers p hp h0)).1⟩
    have h1 := hrefers p hp h0
    rw [he] at h0 h1
    exact (Prod.mk.inj (hR.fs.owned.inj h1 (hrefers q hq h0))).2
  have hstart : Sheds sb (update v.ino (v.inum k) (v.ino (v.inum k)).emptied)
      (addrAt t.blk (v.ino (v.inum k))) (v.inum k) k (v.ino (v.inum k)) t (fun p => p < NPLACE) t := by
    refine ⟨?_, ⟨(v.ino (v.inum k)).addrs, ?_, fun p hp _ => (addrAt_direct hp).symm, fun p hp hn => ?_,
      (hR.ok.ino _ hi).last⟩, by rw [hmem]; rfl, rfl, rfl, fun _ => id, fun _ _ => rfl, le_rfl⟩
    · grind [Refers]
    · rw [← hslot, setDin_self]
    · unfold NPLACE at hn
      omega
  refine wp_seq (wp_freeDirect hsb hnt (range NDIRECT)
    (fun j hj => Nat.le_of_lt (mem_range.mp hj)) hstart hA) ?_
  rintro ⟨⟩ t1 ht1
  refine wp_seq (wp_freeIndirect hsb hnt (fun q => ?_) (fun q hq h0 => ?_) (fun j h0 => ?_)
    (fun h0 => ?_) ht1 (hA.mono fun _ hq => hq.1)) ?_
  · rw [mem_range, Nat.not_lt, and_comm]
  · rw [addrAt_direct le_rfl] at h0
    rw [addrAt, if_neg (by omega), if_pos h0]
  · rw [addrAt_direct le_rfl] at h0 ⊢
    rw [addrAt_indirect (by omega) h0, Nat.add_sub_cancel_left]
  · rw [addrAt_direct le_rfl] at h0 ⊢
    exact hR.fs.indirect_clean (refers_indirect hi htype h0)
  rintro ⟨⟩ t2 ht2
  obtain ⟨a, hmem2, -, -, h2, h3⟩ := ht2.slot
  have ha : a = fun _ => 0 := funext fun p => by
    by_cases hp : p ≤ NDIRECT
    · exact h2 p hp id
    · exact h3 p (by omega)
  subst ha
  -- the cached copy is what the table says
  have hfs := ht2.fs
  have hnone : (fun b => b ≠ 0 ∧ ∃ p, False ∧ addrAt t.blk (v.ino (v.inum k)) p = b) = fun _ => False := by
    funext b
    refine propext ⟨?_, False.elim⟩
    rintro ⟨-, p, hf, -⟩
    exact hf
  rw [hnone] at hfs
  refine wp_modify ?_
  have hmem3 : t2.mem.upd k (fun ip => { ip with din := { ip.din with size := 0 } }) =
      t.mem.setDin k (v.ino (v.inum k)).emptied := by
    rw [hmem2, setDin, upd_upd]
    rfl
  rw [hmem3]
  have hself : (t.mem.setDin k (v.ino (v.inum k)).emptied).icache k =
      { t.mem.icache k with din := (v.ino (v.inum k)).emptied } := upd_self ..
  have hfs3 := hfs.withMem (m := t.mem.setDin k (v.ino (v.inum k)).emptied) (by
    have hs := hfs.slots
    rw [hmem2] at hs
    rw [← setDin_setDin _ _ { v.ino (v.inum k) with addrs := fun _ => 0 }]
    exact hs.setDin ((congrArg Inode.inum (upd_self ..)).trans ht2.inum) _)
  refine wp_mono (wp_iupdate (i := v.inum k) hsb hi ?_ (hfs3.meta_clean ?_) (ht2.held.trans hR.held)
    fun ht => absurd ht hnt) ?_
  · show ((t.mem.setDin k _).icache k).inum = _
    rw [hself, hmem]
    rfl
  · have := hsb.iblock hi
    omega
  rintro ⟨⟩ t' rfl
  have hget : (t2.withMem (t.mem.setDin k (v.ino (v.inum k)).emptied)).mem.icache k =
      { v.slot k with din := (v.ino (v.inum k)).emptied } := hself.trans (by rw [hmem]; rfl)
  have hfs4 := hfs3.settled hsb hi hk.lt (by rw [hget]; exact hk.ref) (by rw [hget]; rfl)
    (by rw [hget, update_self]) fun _ => by rw [update_self]; exact htype
  have hib := hsb.iblock hi
  have hnew := hR.drop rfl (fun _ => rfl) hfs4 (fun c hc => ?_) (fun c hT => ht2.taint c hT.1)
    (ht2.held.trans hR.held) ht2.out le_rfl (le_trans ht2.free (freeBlocks_update (.inl hib.2) _))
  · have hvol : ∀ lh, v.truncated k lh = (v.drop (v.inum k) (v.ino (v.inum k)).emptied lh).withMem
        (t.mem.setDin k (v.ino (v.inum k)).emptied) := fun lh => by
      refine congrArg (v.drop (v.inum k) (v.ino (v.inum k)).emptied lh).withMem ?_
      rw [hmem, ← hdin]
      rfl
    obtain ⟨lh, hnew⟩ : ∃ lh, Rep sb _ ((v.drop (v.inum k) (v.ino (v.inum k)).emptied lh).withMem
      (t.mem.setDin k (v.ino (v.inum k)).emptied)) := ⟨_, hnew⟩
    exact ⟨lh, by rw [hvol]; exact hnew⟩
  · rw [← ht2.data c hc]
    exact update_of_ne (by omega) ..

theorem itrunc_served (hsb : sb.Wf) (k : Nat) : Served sb g (.itrunc k) := by
  rintro t v hR ⟨hk, hnt⟩
  refine wp_mono (wp_itrunc hsb hR hk hnt) ?_
  rintro ⟨⟩ t' ⟨lh, hR'⟩
  exact ⟨_, ⟨lh, rfl⟩, hR'⟩

/-- The cached inode after it has been freed. -/
def Inode.freed (ip : Inode) : Inode :=
  { ip with ref := ip.ref - 1, valid := false, locked := false, din := { ip.din with type := 0 } }

/-- An inode without contents is freed, and the last reference to it dropped. -/
theorem wp_release (hsb : sb.Wf) (hR : Rep sb t v) (hk : v.Held k) (hnt : ¬ g.total)
    (hsize : (v.ino (v.inum k)).size = 0) (haddrs : ∀ p, (v.ino (v.inum k)).addrs p = 0) :
    (modify k (fun ip => { ip with din := { ip.din with type := 0 } }) >>= fun _ =>
      iupdate sb k >>= fun _ =>
      modify k (fun ip => { ip with valid := false, locked := false }) >>= fun _ =>
      modify k fun ip => { ip with ref := ip.ref - 1 }).wp (spec sb g) (fun _ t' =>
      ∃ lh, Rep sb t' ((v.drop (v.inum k) { v.ino (v.inum k) with type := 0 } lh).upd k freed)) t := by
  obtain ⟨hdin, htype, hi⟩ := hk.ino hR.ok
  have hmem := hR.mem
  have hok := hR.ok.ino _ hi
  have hok' : ({ v.ino (v.inum k) with type := 0 } : Dinode).Ok :=
    { hok with type := show 0 < 65536 by decide }
  have hib := hsb.iblock hi
  have hlt := hsb.inode_lt
  have hreset : ∀ ip c, Refers sb (update v.ino (v.inum k) { v.ino (v.inum k) with type := 0 }) t.blk ip c ↔
      Refers sb v.ino t.blk ip c ∧ ip.1 ≠ v.inum k := refers_reset haddrs
  have hnone : ∀ ip c, Refers sb v.ino t.blk ip c → ip.1 ≠ v.inum k := fun ip c hr he => by
    have ha := hr.addr
    rw [he, addrAt, haddrs, haddrs] at ha
    exact hr.ne (by simpa using ha.symm)
  have hfs : Fs sb (update v.ino (v.inum k) { v.ino (v.inum k) with type := 0 })
      (some (v.inum k)) (fun _ => False) t := by
    refine (hR.fs.activate (v.inum k)).redo (fun j hj => update_of_ne hj ..) ?_
      (hR.fs.owned.congr (fun _ => Iff.rfl)
        (fun ip c => (hreset ip c).trans (and_iff_left_of_imp (hnone ip c))) fun _ => Iff.rfl)
      fun b hb j p hr => ?_
    · rw [update_self]
      exact hok'
    · obtain ⟨hr, hj⟩ := (hreset _ _).mp hr
      rw [update_of_ne hj]
      exact (hR.fs.taint b hb).2 j p hr
  obtain ⟨m, hm⟩ : ∃ m, m = v.mem.upd k fun ip => { ip with din := { ip.din with type := 0 } } :=
    ⟨_, rfl⟩
  refine wp_modify ?_
  rw [hmem, ← hm]
  have hinum : (m.icache k).inum = v.inum k := by
    rw [hm, upd_self]
    rfl
  have hdin' : (m.icache k).din = { v.ino (v.inum k) with type := 0 } := by
    rw [hm, upd_self, ← hdin]
    rfl
  have hslots : Slots sb (update v.ino (v.inum k) { v.ino (v.inum k) with type := 0 })
      (some (v.inum k)) v.mem := hmem ▸ hfs.slots
  have hfs1 : Fs sb (update v.ino (v.inum k) { v.ino (v.inum k) with type := 0 })
      (some (v.inum k)) (fun _ => False) (t.withMem m) := by
    rw [hm]
    exact hfs.withMem (hslots.upd rfl id fun _ _ hact => absurd rfl hact)
  refine wp_seq (wp_iupdate hsb hi hinum (hfs1.meta_clean (by omega)) hR.held
    fun ht => absurd ht hnt) ?_
  rintro ⟨⟩ t1 ht1
  have hput := hfs1.put_inode hsb hi ((t.withMem m).mem.icache k).din
  have hblk : t1.blk = update t.blk (sb.iblock (v.inum k)) (Dinode.put
      (t.blk (sb.iblock (v.inum k))) (v.inum k % IPB) { v.ino (v.inum k) with type := 0 }) := by
    rw [ht1, ← hdin']
    rfl
  have hmem1 : (t1.mem.upd k fun ip => { ip with valid := false, locked := false }).upd k
      (fun ip => { ip with ref := ip.ref - 1 }) = v.mem.upd k freed := by
    rw [show t1.mem = m by rw [ht1]; rfl, hm, upd_upd, upd_upd]
    rfl
  refine wp_modify (wp_modify (k := fun _ => pure ()) ?_)
  suffices h : ∃ lh, Rep sb (t1.withMem (v.mem.upd k freed))
      ((v.drop (v.inum k) { v.ino (v.inum k) with type := 0 } lh).upd k freed) by
    rw [← hmem1] at h
    exact h
  -- now no valid copy says anything else
  have hfs2 : Fs sb (update v.ino (v.inum k) { v.ino (v.inum k) with type := 0 }) none
      (fun _ => False) (t1.withMem (v.mem.upd k freed)) := by
    rw [← ht1] at hput
    refine (hput.withMem (hslots.upd rfl (fun _ => hk.ref) fun _ hv => by cases hv)).settle ?_ ?_
    · show Dinode.get (t1.blk _) _ = _
      rw [hblk, update_self, update_self]
      exact Dinode.get_put _ _ hok'
    · intro l hl h1 hv hil
      by_cases hlk : l = k
      · rw [hlk] at hv
        simp [withMem, freed] at hv
      · simp only [withMem, upd_ne _ _ hlk] at h1 hil
        exact absurd (hR.ok.slots.uniq l k hl hk.lt h1 hk.ref hil) hlk
  have hdata : ∀ c, c ≠ sb.iblock (v.inum k) → t1.blk c = t.blk c := fun c hc => by
    rw [hblk, update_of_ne hc]
  refine ⟨_, hR.drop (x := { v.ino (v.inum k) with type := 0 }) hsize haddrs hfs2
    (fun c hc => hdata c (by omega)) (fun c hT => ?_) ?_ ?_ le_rfl
    (by rw [show (t1.withMem (v.mem.upd k freed)).blk = _ from hblk]
        exact freeBlocks_update (.inl hib.2) _)⟩
  · change t1.taint c at hT
    rw [ht1] at hT
    exact hT.1
  · show t1.held = []
    rw [ht1]
    exact hR.held
  · show t1.out = t.out
    rw [ht1]
    rfl

theorem iput_served (hsb : sb.Wf) (k : Nat) : Served sb g (.iput k) := by
  rintro t v hR ⟨hk, href, hdying⟩
  refine wp_mem ?_
  rw [hR.mem]
  dsimp only
  split
  · next hd =>
    obtain ⟨hfree, hnt⟩ := hdying hd
    split
    · next hl =>
      refine wp_block fun hbad => ?_
      have : (v.mem.icache k).locked = false := hfree hbad
      rw [this] at hl
      cases hl
    next hl =>
    have hunl : (v.mem.icache k).locked = false := by simpa using hl
    obtain ⟨v0, hv0⟩ : ∃ v0, v0 = v.upd k fun ip => { ip with locked := true } := ⟨_, rfl⟩
    have hslot : v0.slot k = { v.mem.icache k with locked := true } := by
      rw [hv0, Vol.upd_slot]
      rfl
    have hheld : v0.Held k := by
      refine ⟨hk, ?_, ?_, ?_⟩
      · rw [hslot]; exact href
      · rw [hslot]
      · rw [hslot]; exact hd.2.1
    have hR0 : Rep sb (t.withMem (v.mem.upd k fun ip => { ip with locked := true })) v0 := by
      rw [hv0]
      exact hR.withMem (hR.ok.slots.upd rfl id fun h1 hv ha => hR.ok.slots.valid k hk h1 hv ha)
    unfold ifree
    simp only [Prog.bind_assoc]
    refine wp_modify ?_
    rw [hR.mem]
    refine wp_seq (wp_itrunc hsb hR0 hheld hnt) ?_
    rintro ⟨⟩ t1 ⟨lh1, hR1⟩
    have hslot1 : (v0.truncated k lh1).slot k =
        { v0.slot k with din := (v0.slot k).din.emptied } := Vol.upd_slot ..
    have hinum1 : (v0.truncated k lh1).inum k = v0.inum k := (congrArg Inode.inum hslot1).trans rfl
    have hino1 : (v0.truncated k lh1).ino (v0.inum k) = (v0.ino (v0.inum k)).emptied :=
      update_self ..
    have hheld1 : (v0.truncated k lh1).Held k := by
      refine ⟨hk, ?_, ?_, ?_⟩
      · rw [hslot1]; exact hheld.ref
      · rw [hslot1]; exact hheld.locked
      · rw [hslot1]; exact hheld.valid
    refine wp_mono (wp_release hsb hR1 hheld1 hnt (by rw [hinum1, hino1]; rfl) fun p => by
      rw [hinum1, hino1]; rfl) ?_
    rintro ⟨⟩ t' ⟨lh, hR'⟩
    refine ⟨_, (if_pos hd).mpr ⟨hunl, lh, ?_⟩, hR'⟩
    have hinum0 : v0.inum k = v.inum k := (congrArg Inode.inum hslot).trans rfl
    rw [hinum1, hino1, hinum0]
    unfold Vol.truncated Vol.drop Vol.upd
    rw [hinum0, hv0]
    unfold Vol.upd
    simp only [update_idem, upd_upd]
    congr 1
    refine upd_congr ?_
    unfold freed
    rw [show (v.mem.icache k).ref - 1 = 0 by rw [hd.1]; rfl]
    rfl
  · next hd =>
    refine wp_mono (wp_upd hR (hR.ok.slots.upd rfl (fun _ => href) fun _ hv ha => ?_)) ?_
    · exact hR.ok.slots.valid k hk href hv ha
    · rintro ⟨⟩ t' hR'
      refine ⟨_, ?_, hR'⟩
      exact (if_neg hd).mpr rfl

end Calls

end Xv6
