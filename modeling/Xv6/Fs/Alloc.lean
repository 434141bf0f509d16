/-
  THE FILE SYSTEM ON THE BLOCK STORE, and the block allocator.

  `Fs D act X` says that the store holds the inode table `D`: every inode block has what `D` says,
  every cached copy of an inode too, and the free map is in order — a block is marked in use exactly
  if it is metadata, an inode refers to it, or it is in `X`, the blocks the running code has taken
  and not yet stored anywhere.  Code that works on one inode changes its cached copy first and the
  disk last; while it does, `act` names that inode and `D` alone speaks for it.

  `balloc` and `bfree` have exact effects (`Store.alloc`, `Store.free`), and on `Fs` these are the
  moves `take` and `give` of `Xv6.Lib.Owner`.
-/
import Mathlib.Data.Finset.Card
import Mathlib.Data.Finset.Range
import Xv6.Fs.Exec

namespace Xv6

open Function Prog Bytes Owner Store Superblock Finset

variable {b c : Nat} {blk' : Nat → Block} {D : Nat → Dinode} {X X' : Nat → Prop} {act : Option Nat}
  {t : Store} {sb : Superblock}

/-! ## The file system -/

/-- The inode cache: one entry per inode, and a valid one agrees with the table. -/
structure Slots (sb : Superblock) (D : Nat → Dinode) (act : Option Nat) (m : Mem) : Prop where
  uniq : ∀ k l, k < NINODE → l < NINODE → 1 ≤ (m.icache k).ref → 1 ≤ (m.icache l).ref →
    (m.icache k).inum = (m.icache l).inum → k = l
  inum : ∀ k, k < NINODE → 1 ≤ (m.icache k).ref → (m.icache k).inum < sb.ninodes
  valid : ∀ k, k < NINODE → 1 ≤ (m.icache k).ref → (m.icache k).valid = true →
    act ≠ some (m.icache k).inum →
    (m.icache k).din = D (m.icache k).inum ∧ (D (m.icache k).inum).type ≠ 0

/-- The file system on the blocks: `D` is the inode table but for `act`, whose inode is being worked on,
    and every allocated block is used once, `X` aside. -/
structure Fs (sb : Superblock) (D : Nat → Dinode) (act : Option Nat) (X : Nat → Prop)
    (t : Store) : Prop where
  table : ∀ i, i < sb.ninodes → act ≠ some i → Dinode.get (t.blk (sb.iblock i)) (i % IPB) = D i
  ok : ∀ i, i < sb.ninodes → (D i).Ok
  owned : Owned (Used sb t.blk) (Refers sb D t.blk) fun b => b < sb.data ∨ X b
  taint : ∀ b, t.taint b → sb.data ≤ b ∧
    ∀ i p, Refers sb D t.blk (i, p) b → p ≠ NDIRECT ∧ (D i).type ≠ T_DIR
  slots : Slots sb D act t.mem

namespace Fs

variable {D' : Nat → Dinode} {t' : Store} {i k : Nat}

section

variable (h : Fs sb D act X t)
include h

/-- A referenced block is a data block, and in use. -/
theorem refers_data {ip : Nat × Nat} (hr : Refers sb D t.blk ip b) : sb.data ≤ b ∧ Used sb t.blk b := by
  refine ⟨?_, h.owned.ref_used hr⟩
  by_contra hlt
  exact h.owned.apart hr (.inl (not_le.mp hlt))

theorem meta_clean (hb : b < sb.data) : ¬ t.taint b := fun hT => by
  have := (h.taint b hT).1
  omega

theorem indirect_clean (hr : Refers sb D t.blk (i, NDIRECT) b) :
    ¬ t.taint b := fun hT => ((h.taint b hT).2 i NDIRECT hr).1 rfl

/-- A block that is free is nobody's, and no metadata. -/
theorem free_data (hf : mapBit sb t.blk b = false) :
    sb.data ≤ b ∧ ¬ X b ∧ ∀ ip, ¬ Refers sb D t.blk ip b := by
  have hn : ¬ Used sb t.blk b := fun hu => by rw [hu.2] at hf; cases hf
  refine ⟨?_, fun hx => hn (h.owned.reserved_used (.inr hx)), fun ip hr => hn (h.owned.ref_used hr)⟩
  by_contra hlt
  exact hn (h.owned.reserved_used (.inl (not_le.mp hlt)))

/-- What the file system depends on: metadata, indirect blocks, the inode cache. -/
theorem change (hblk : ∀ c, (c < sb.data ∨ ∃ j, Refers sb D t.blk (j, NDIRECT) c) → t'.blk c = t.blk c)
    (htaint : ∀ c, t'.taint c → t.taint c) (hmem : t'.mem = t.mem) (hsb : sb.Wf) :
    Fs sb D act X t' := by
  have href : ∀ ip c, Refers sb D t'.blk ip c ↔ Refers sb D t.blk ip c :=
    refers_congr fun j c hr => hblk c (.inr ⟨j, hr⟩)
  refine ⟨fun j hj ha => ?_, h.ok, h.owned.congr (fun c => ?_) href fun _ => Iff.rfl, fun c hT => ?_,
    by rw [hmem]; exact h.slots⟩
  · rw [hblk _ (.inl ?_)]
    · exact h.table j hj ha
    · have := hsb.iblock hj
      have := hsb.inode_lt
      omega
  · refine and_congr_right fun hc => ?_
    rw [mapBit, mapBit, hblk _ (.inl (bblock_range hc).2)]
  · grind [Fs]

/-- A block that holds neither metadata nor addresses may hold anything. -/
theorem put_data (hsb : sb.Wf) (hb : sb.data ≤ b)
    (hind : ∀ j, ¬ Refers sb D t.blk (j, NDIRECT) b) (d : Block) : Fs sb D act X (t.put b d) := by
  refine h.change (fun c hc => update_of_ne ?_ ..) (fun _ hT => hT.1) rfl hsb
  rintro rfl
  rcases hc with hc | ⟨j, hr⟩
  · omega
  · exact hind j hr

end

/-- The code may start to work on an inode. -/
theorem activate (h : Fs sb D none X t) (i : Nat) : Fs sb D (some i) X t :=
  ⟨fun j hj _ => h.table j hj (by simp), h.ok, h.owned, h.taint, h.slots.uniq, h.slots.inum,
    fun k hk hr hv _ => h.slots.valid k hk hr hv (by simp)⟩

/-- The code is done with an inode: the disk and the cached copy have what the table says. -/
theorem settle (h : Fs sb D (some i) X t) (hdisk : Dinode.get (t.blk (sb.iblock i)) (i % IPB) = D i)
    (hslot : ∀ k, k < NINODE → 1 ≤ (t.mem.icache k).ref → (t.mem.icache k).valid = true →
      (t.mem.icache k).inum = i → (t.mem.icache k).din = D i ∧ (D i).type ≠ 0) :
    Fs sb D none X t := by
  refine ⟨fun j hj _ => ?_, h.ok, h.owned, h.taint, h.slots.uniq, h.slots.inum, fun k hk hr hv _ => ?_⟩
  · grind [Fs]
  · by_cases hki : (t.mem.icache k).inum = i
    · rw [hki]; exact hslot k hk hr hv hki
    · exact h.slots.valid k hk hr hv fun he => hki (Option.some.inj he).symm

theorem hold (h : Fs sb D act X t) (b : Nat) : Fs sb D act X (t.hold b) :=
  { h with }

theorem withMem (h : Fs sb D act X t) {m : Mem} (hm : Slots sb D act m) :
    Fs sb D act X (t.withMem m) := { h with slots := hm }

/-- Storing an inode the code is working on. -/
theorem put_inode (h : Fs sb D (some i) X t) (hsb : sb.Wf) (hi : i < sb.ninodes) (x : Dinode) :
    Fs sb D (some i) X (t.put (sb.iblock i) (Dinode.put (t.blk (sb.iblock i)) (i % IPB) x)) := by
  have hib := hsb.iblock hi
  have hlt := hsb.inode_lt
  have hne : ∀ c, c ≠ sb.iblock i →
      (t.put (sb.iblock i) (Dinode.put (t.blk (sb.iblock i)) (i % IPB) x)).blk c = t.blk c :=
    fun c hc => update_of_ne hc ..
  have href : ∀ ip c, Refers sb D
      (t.put (sb.iblock i) (Dinode.put (t.blk (sb.iblock i)) (i % IPB) x)).blk ip c ↔
      Refers sb D t.blk ip c :=
    refers_congr fun j c hr => hne c (by have := (h.refers_data hr).1; omega)
  refine ⟨fun j hj ha => ?_, h.ok, h.owned.congr (fun c => ?_) href fun _ => Iff.rfl,
    fun c hT => ?_, h.slots⟩
  · by_cases hjb : sb.iblock j = sb.iblock i
    · rw [hjb, Store.put_blk, update_self, Dinode.get_put_ne]
      · rw [← hjb]
        exact h.table j hj ha
      · intro hm
        exact ha (congrArg some (iblock_inj hjb hm).symm)
    · rw [hne _ hjb]
      exact h.table j hj ha
  · refine and_congr_right fun hc => ?_
    have := bblock_range hc
    rw [mapBit, mapBit, hne _ (by omega)]
  · obtain ⟨hd, hr⟩ := h.taint c hT.1
    exact ⟨hd, fun j p hjp => hr j p ((href (j, p) c).mp hjp)⟩

/-- The table may say something else about the inode the code is working on, if the books agree. -/
theorem redo (h : Fs sb D (some i) X t) (hD : ∀ j, j ≠ i → D' j = D j) (hok : (D' i).Ok)
    (howned : Owned (Used sb t.blk) (Refers sb D' t.blk) fun b => b < sb.data ∨ X' b)
    (htaint : ∀ b, t.taint b → ∀ j p, Refers sb D' t.blk (j, p) b →
      p ≠ NDIRECT ∧ (D' j).type ≠ T_DIR) : Fs sb D' (some i) X' t := by
  refine ⟨fun j hj ha => ?_, fun j hj => ?_, howned, fun b hT => ⟨(h.taint b hT).1, htaint b hT⟩,
    h.slots.uniq, h.slots.inum, fun k hk hr hv ha => ?_⟩
  · rw [hD j fun he => ha (congrArg some he.symm)]
    exact h.table j hj ha
  · by_cases hji : j = i
    · rw [hji]; exact hok
    · rw [hD j hji]; exact h.ok j hj
  · rw [hD _ fun he => ha (congrArg some he.symm)]
    exact h.slots.valid k hk hr hv ha

end Fs

/-! ## The free map -/

namespace Store

variable (sb : Superblock) (t : Store) (b : Nat)

/-- `balloc` marks block `b` and zeroes it. -/
def alloc : Store :=
  (t.put (sb.bblock b) (setBit (t.blk (sb.bblock b)) (b % BPB))).put b fun _ => 0

/-- `bfree` unmarks block `b`. -/
def free : Store := t.put (sb.bblock b) (clearBit (t.blk (sb.bblock b)) (b % BPB))

end Store

section Map

variable {blk : Nat → Block}

theorem mapBit_set (b c : Nat) :
    mapBit sb (update blk (sb.bblock b) (setBit (blk (sb.bblock b)) (b % BPB))) c =
      if c = b then true else mapBit sb blk c := by
  unfold mapBit
  by_cases hb : sb.bblock c = sb.bblock b
  · rw [hb, update_self]
    split
    · next h => rw [h, getBit_setBit]
    · next h => rw [getBit_setBit_ne fun hm => h (bblock_inj hb hm)]
  · rw [update_of_ne hb, if_neg]
    rintro rfl
    exact hb rfl

theorem mapBit_clear (b c : Nat) :
    mapBit sb (update blk (sb.bblock b) (clearBit (blk (sb.bblock b)) (b % BPB))) c =
      if c = b then false else mapBit sb blk c := by
  unfold mapBit
  by_cases hb : sb.bblock c = sb.bblock b
  · rw [hb, update_self]
    split
    · next h => rw [h, getBit_clearBit]
    · next h => rw [getBit_clearBit_ne fun hm => h (bblock_inj hb hm)]
  · rw [update_of_ne hb, if_neg]
    rintro rfl
    exact hb rfl

/-- The number of free blocks. -/
def freeBlocks (sb : Superblock) (blk : Nat → Block) : Nat :=
  ((Finset.range sb.size).filter fun b => mapBit sb blk b = false).card

theorem exists_free (h : 0 < freeBlocks sb blk) : ∃ b, b < sb.size ∧ mapBit sb blk b = false := by
  obtain ⟨b, hb⟩ := card_pos.mp h
  obtain ⟨hb, hf⟩ := mem_filter.mp hb
  exact ⟨b, mem_range.mp hb, hf⟩

theorem freeBlocks_mono (h : ∀ c, c < sb.size → mapBit sb blk c = false → mapBit sb blk' c = false) :
    freeBlocks sb blk ≤ freeBlocks sb blk' := by
  refine card_le_card fun c hc => ?_
  obtain ⟨hc, hf⟩ := mem_filter.mp hc
  exact mem_filter.mpr ⟨hc, h c (mem_range.mp hc) hf⟩

/-- A block that is not part of the free map. -/
theorem freeBlocks_update (hb : b < sb.bmapstart ∨ sb.data ≤ b) (d : Block) :
    freeBlocks sb blk ≤ freeBlocks sb (update blk b d) := by
  refine freeBlocks_mono fun c hc hf => ?_
  have := bblock_range hc
  rw [mapBit, update_of_ne (by omega)]
  exact hf

theorem freeBlocks_take
    (h : ∀ c, c < sb.size → c ≠ b → mapBit sb blk c = false → mapBit sb blk' c = false) :
    freeBlocks sb blk ≤ freeBlocks sb blk' + 1 := by
  refine le_trans (card_le_card fun c hc => ?_) (card_insert_le b _)
  obtain ⟨hc, hf⟩ := mem_filter.mp hc
  by_cases hcb : c = b
  · rw [hcb]
    exact mem_insert_self ..
  · exact mem_insert_of_mem (mem_filter.mpr ⟨hc, h c (mem_range.mp hc) hcb hf⟩)

end Map

namespace Fs

/-- A change of the free map alone. -/
theorem put_map (h : Fs sb D act X t) (hsb : sb.Wf) (hb : b < sb.size) {d : Block}
    (howned : Owned (Used sb (update t.blk (sb.bblock b) d)) (Refers sb D t.blk)
      fun b => b < sb.data ∨ X' b) : Fs sb D act X' (t.put (sb.bblock b) d) := by
  have hbb := bblock_range hb
  have href : ∀ ip c, Refers sb D (t.put (sb.bblock b) d).blk ip c ↔ Refers sb D t.blk ip c :=
    refers_congr fun j c hr => update_of_ne (by have := (h.refers_data hr).1; omega) ..
  refine ⟨fun j hj ha => ?_, h.ok, howned.congr (fun _ => Iff.rfl) href fun _ => Iff.rfl,
    fun c hT => ?_, h.slots⟩
  · have := hsb.iblock hj
    rw [Store.put_blk, update_of_ne (by omega)]
    exact h.table j hj ha
  · obtain ⟨hd, hr⟩ := h.taint c hT.1
    exact ⟨hd, fun j p hjp => hr j p ((href (j, p) c).mp hjp)⟩

theorem alloc (h : Fs sb D act X t) (hsb : sb.Wf) (hb : b < sb.size)
    (hf : mapBit sb t.blk b = false) : Fs sb D act (fun c => X c ∨ c = b) (t.alloc sb b) := by
  obtain ⟨hdata, -, hnref⟩ := h.free_data hf
  have hn : ¬ Used sb t.blk b := fun hu => by rw [hu.2] at hf; cases hf
  have hmap : Fs sb D act (fun c => X c ∨ c = b)
      (t.put (sb.bblock b) (setBit (t.blk (sb.bblock b)) (b % BPB))) := by
    refine h.put_map hsb hb ((h.owned.take hn).congr (fun c => ?_) (fun _ _ => Iff.rfl) fun c => ?_)
    · unfold Used
      rw [mapBit_set]
      split
      · next hc => simp [hc, hb]
      · next hc => simp [hc]
    · exact or_assoc.symm
  refine hmap.put_data hsb hdata (fun j hr => hnref (j, NDIRECT) ?_) _
  refine (refers_congr (fun i c hr => ?_) _ _).mp hr
  have := (h.refers_data hr).1
  have := bblock_range hb
  exact update_of_ne (by omega) ..

theorem free (h : Fs sb D act X t) (hsb : sb.Wf) (hx : X b) (hdata : sb.data ≤ b) :
    Fs sb D act (fun c => X c ∧ c ≠ b) (t.free sb b) := by
  have hu := h.owned.reserved_used (.inr hx)
  refine h.put_map hsb hu.1 ((h.owned.give (.inr hx)).congr (fun c => ?_) (fun _ _ => Iff.rfl) fun c => ?_)
  · unfold Used
    rw [mapBit_clear]
    split
    · next hc => simp [hc]
    · next hc => simp [hc]
  · grind

/-- What `balloc` leaves alone. -/
theorem alloc_blk (hb : b < sb.size) (hc : sb.data ≤ c) (hne : c ≠ b) : (t.alloc sb b).blk c = t.blk c := by
  have := bblock_range hb
  rw [Store.alloc, Store.put_blk, update_of_ne hne, Store.put_blk, update_of_ne (by omega)]

/-- The free map after `balloc`. -/
theorem alloc_map (hdata : sb.data ≤ b) (hc : c < sb.size) :
    mapBit sb (t.alloc sb b).blk c = if c = b then true else mapBit sb t.blk c := by
  have := bblock_range hc
  rw [← mapBit_set]
  unfold mapBit
  rw [Store.alloc, Store.put_blk, update_of_ne (by omega)]
  rfl

theorem alloc_zero : (t.alloc sb b).blk b = fun _ => 0 := update_self ..

theorem free_blk (hb : b < sb.size) (hc : sb.data ≤ c) : (t.free sb b).blk c = t.blk c := by
  have := bblock_range hb
  rw [Store.free, Store.put_blk, update_of_ne (by omega)]

end Fs

/-! ## `balloc` and `bfree` -/

section Code

variable {g : Goal}

theorem not_inLog (hsb : sb.Wf) (hb : sb.inodestart ≤ b) : ¬ sb.layout.InLog b := hsb.not_inLog hb

theorem Store.Room.buffers (hsb : sb.Wf) {n : Nat} (h : t.Room sb g n) (ht : g.total)
    (hn : t.held.length ≤ n) : t.held.length + t.lh.length < NBUF := by
  have h1 := (h ht).2
  have h2 : sb.nlog ≤ 30 := hsb.logsize
  show _ < 30
  omega

/-- `bzero` of a block that is no longer or not yet in use. -/
theorem wp_bzero (hsb : sb.Wf) (hb : sb.data ≤ b) (hsize : b < sb.size) (hroom : t.Room sb g 1)
    (hheld : g.total → t.held.length ≤ 1 ∧ b ∉ t.held) :
    (Code.bzero b).wp (spec sb g) (fun _ t' => t' = t.put b fun _ => 0) t := by
  have hlt := hsb.inode_lt
  refine wp_bread (not_inLog hsb (by omega))
    (fun ht => ⟨(hheld ht).2, hroom.buffers hsb ht (hheld ht).1⟩) fun d _ _ => ?_
  refine wp_put (List.mem_cons_self ..) (by have := hsb.small; omega) hsb.logsize hroom ?_
  have h : put { t with blk := update t.blk b d } b (fun _ => 0) = t.put b fun _ => 0 := by
    simp only [put, update_idem]
  refine wp_brelse_hold (t := put { t with blk := update t.blk b d } b _) (k := fun _ => pure ()) ?_
  exact h

/-- The bitmap block that `balloc` looks at in round `c`. -/
theorem bblock_round (sb : Superblock) (c : Nat) {bi : Nat} (h : bi < BPB) :
    sb.bblock (c * BPB + bi) = sb.bblock (c * BPB) ∧ (c * BPB + bi) % BPB = bi := by
  unfold bblock
  unfold BPB BSIZE at *
  omega

/-- `balloc` finds a free block, marks and zeroes it. -/
theorem wp_balloc (hsb : sb.Wf) (hfs : Fs sb D act X t) (hroom : t.Room sb g 2)
    (hheld : g.total → t.held.length ≤ 1 ∧ ∀ c ∈ t.held, sb.data ≤ c ∧ Used sb t.blk c)
    (hfree : g.bad (.panic "balloc: out of blocks") → ∃ b, b < sb.size ∧ mapBit sb t.blk b = false) :
    (Code.balloc sb).wp (spec sb g)
      (fun b t' => b < sb.size ∧ mapBit sb t.blk b = false ∧ t' = t.alloc sb b) t := by
  have hlt := hsb.inode_lt
  -- the free block, if one is promised, is in a bitmap block still to be looked at
  suffices h : ∀ cs : List Nat, (∀ c ∈ cs, c * BPB < sb.size) → (g.bad (.panic "balloc: out of blocks") →
        ∃ b, b < sb.size ∧ mapBit sb t.blk b = false ∧ b / BPB ∈ cs) →
      (Code.ballocFrom sb cs).wp (spec sb g)
        (fun b t' => b < sb.size ∧ mapBit sb t.blk b = false ∧ t' = t.alloc sb b) t by
    refine h _ (fun c hc => ?_) fun hbad => ?_
    · have := List.mem_range.mp hc
      unfold BPB BSIZE at *
      omega
    · obtain ⟨b, hb, hf⟩ := hfree hbad
      refine ⟨b, hb, hf, List.mem_range.mpr ?_⟩
      unfold BPB BSIZE
      omega
  intro cs
  induction cs with
  | nil =>
    intro _ hfree
    refine wp_panic fun hbad => ?_
    obtain ⟨b, -, -, hb⟩ := hfree hbad
    exact absurd hb List.not_mem_nil
  | cons c cs ih =>
    intro hcs hfree
    have hc := hcs c (List.mem_cons_self ..)
    have hbb := bblock_range hc
    have hnotin : g.total → sb.bblock (c * BPB) ∉ t.held := fun ht hm => by
      have := ((hheld ht).2 _ hm).1
      omega
    refine wp_bread_clean (not_inLog hsb (by omega)) (hfs.meta_clean hbb.2)
      (fun ht => ⟨hnotin ht, hroom.buffers hsb ht (by have := (hheld ht).1; omega)⟩) fun _ => ?_
    refine wp_data (List.mem_cons_self ..) ?_
    -- the scan of this bitmap block
    cases hscan : (List.range (min BPB (sb.size - c * BPB))).find?
        fun bi => !getBit ((t.hold (sb.bblock (c * BPB))).blk (sb.bblock (c * BPB))) bi with
    | some bi =>
      have hbi := List.mem_range.mp (List.mem_of_find?_eq_some hscan)
      have hclear : getBit (t.blk (sb.bblock (c * BPB))) bi = false := by
        have := List.find?_some hscan
        simpa using this
      obtain ⟨hround, hmod⟩ := bblock_round sb c (show bi < BPB by omega)
      have hsize : c * BPB + bi < sb.size := by omega
      have hf : mapBit sb t.blk (c * BPB + bi) = false := by rw [mapBit, hround, hmod]; exact hclear
      obtain ⟨hdata, -, -⟩ := hfs.free_data hf
      have hnot : g.total → c * BPB + bi ∉ t.held := fun ht hm => by
        have := ((hheld ht).2 _ hm).2.2
        rw [hf] at this
        cases this
      refine wp_put (List.mem_cons_self ..) (by have := hsb.small; have := hsb.fits; omega)
        hsb.logsize (hroom.mono (by omega)) ?_
      refine wp_brelse_hold (t := t.put _ _) ?_
      have hgrew := Store.Grew.put t (sb.bblock (c * BPB)) (setBit (t.blk (sb.bblock (c * BPB))) bi)
      refine wp_seq (wp_bzero hsb hdata hsize (hroom.grew (m := 1) hgrew) fun ht =>
        ⟨(hheld ht).1, hnot ht⟩) ?_
      rintro ⟨⟩ t' rfl
      refine ⟨hsize, hf, ?_⟩
      rw [Store.alloc, hround, hmod]
      rfl
    | none =>
      refine wp_brelse_hold (ih (fun c' hc' => hcs c' (List.mem_cons_of_mem _ hc')) fun hbad => ?_)
      obtain ⟨b, hb, hf, hm⟩ := hfree hbad
      refine ⟨b, hb, hf, (List.mem_cons.mp hm).resolve_left fun hbc => ?_⟩
      -- a free block of this round would have been found
      have hnone := List.find?_eq_none.mp hscan (b % BPB) (List.mem_range.mpr ?_)
      · obtain ⟨hround, hmod⟩ := bblock_round sb c (Nat.mod_lt b (by decide))
        have hbeq : c * BPB + b % BPB = b := by
          rw [← hbc, Nat.mul_comm]
          exact Nat.div_add_mod b BPB
        rw [mapBit] at hf
        rw [hbeq] at hround
        rw [hround] at hf
        simp [hf] at hnone
      · unfold BPB BSIZE at *
        omega

/-- `bfree` of a block in use. -/
theorem wp_bfree (hsb : sb.Wf) (hfs : Fs sb D act X t) (hb : b < sb.size)
    (hbit : mapBit sb t.blk b = true) (hroom : t.Room sb g 1)
    (hheld : g.total → t.held.length ≤ 1 ∧ ∀ c ∈ t.held, sb.data ≤ c) :
    (Code.bfree sb b).wp (spec sb g) (fun _ t' => t' = t.free sb b) t := by
  have hbb := bblock_range hb
  have hlt := hsb.inode_lt
  refine wp_bread_clean (not_inLog hsb (by omega)) (hfs.meta_clean hbb.2)
    (fun ht => ⟨fun hm => ?_, hroom.buffers hsb ht (hheld ht).1⟩) fun _ => ?_
  · have := (hheld ht).2 _ hm
    omega
  refine wp_data (List.mem_cons_self ..) ?_
  rw [if_pos (show getBit ((t.hold (sb.bblock b)).blk (sb.bblock b)) (b % BPB) = true from hbit)]
  refine wp_put (List.mem_cons_self ..) (by have := hsb.small; have := hsb.fits; omega) hsb.logsize hroom ?_
  exact wp_brelse_hold (t := t.put _ _) (k := fun _ => pure ()) rfl

end Code

end Xv6
