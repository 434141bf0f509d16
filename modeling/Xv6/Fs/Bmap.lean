/-
  MAPPING A BLOCK OF A FILE: `bmap`.

  Code that works on an inode changes the copy in memory first.  `Works D i k` is the file system
  while it does: inode `i` is cached in slot `k`, and `D i` is that copy.

  `bmap` has at most two steps, each of which takes a block with `balloc` and stores its address: in
  the inode, or in the indirect block.  `take_addr` and `take_entry` are these steps on `Works`; what
  `bmap` does as a whole is `Bmapped`.

  The log and the free map are paid from a POTENTIAL: the first use of the indirect block costs more
  than the later ones, so `cost` and `lack` say what is still to be paid for it.
-/
import Xv6.Fs.Alloc
import Xv6.Fs.Refs

namespace Xv6

open Function Prog Bytes Owner Store Mem

variable {x : Dinode} {f : Inode → Inode} {m : Mem} {a bn i j k p : Nat} {D : Nat → Dinode}
  {X : Nat → Prop} {act : Option Nat} {t : Store} {sb : Superblock}

/-! ## Working on an inode -/

/-- The caller has inode `i` in slot `k`, and the table may lag behind. -/
structure Works (sb : Superblock) (D : Nat → Dinode) (i k : Nat) (t : Store) : Prop where
  fs : Fs sb D (some i) (fun _ => False) t
  lt : k < NINODE
  inum : (t.mem.icache k).inum = i
  ref : 1 ≤ (t.mem.icache k).ref
  din : (t.mem.icache k).din = D i
  type : (D i).type ≠ 0

/-- Store another copy of the inode in slot `k`. -/
def Mem.setDin (m : Mem) (k : Nat) (x : Dinode) : Mem := m.upd k fun ip => { ip with din := x }

theorem Mem.upd_congr {g : Inode → Inode} (h : f (m.icache k) = g (m.icache k)) :
    m.upd k f = m.upd k g := by
  unfold upd
  rw [h]

theorem Mem.upd_upd (m : Mem) (k : Nat) (f g : Inode → Inode) :
    (m.upd k f).upd k g = m.upd k fun ip => g (f ip) := by
  unfold upd
  simp only [update_self, update_idem]

/-- A slot changes and keeps its key. -/
theorem Slots.upd (h : Slots sb D act m) (hinum : (f (m.icache k)).inum = (m.icache k).inum)
    (href : 1 ≤ (f (m.icache k)).ref → 1 ≤ (m.icache k).ref)
    (hvalid : 1 ≤ (f (m.icache k)).ref → (f (m.icache k)).valid = true →
      act ≠ some (m.icache k).inum → (f (m.icache k)).din = D (m.icache k).inum ∧
      (D (m.icache k).inum).type ≠ 0) : Slots sb D act (m.upd k f) := by
  have hi : ∀ l, ((m.upd k f).icache l).inum = (m.icache l).inum := fun l => by
    by_cases hl : l = k
    · rw [hl, upd_self, hinum]
    · rw [upd_ne _ _ hl]
  have hr : ∀ l, 1 ≤ ((m.upd k f).icache l).ref → 1 ≤ (m.icache l).ref := fun l => by
    by_cases hl : l = k
    · rw [hl, upd_self]
      exact href
    · rw [upd_ne _ _ hl]
      exact id
  refine ⟨fun l l' hl hl' h1 h2 he => ?_, fun l hl h1 => ?_, fun l hl h1 hv ha => ?_⟩
  · rw [hi, hi] at he
    exact h.uniq l l' hl hl' (hr l h1) (hr l' h2) he
  · rw [hi]
    exact h.inum l hl (hr l h1)
  · grind [Slots, upd_self, upd_ne]

namespace Works

theorem inum_lt (h : Works sb D i k t) : i < sb.ninodes := by
  have := h.fs.slots.inum k h.lt h.ref
  rwa [h.inum] at this

theorem ok (h : Works sb D i k t) : (D i).Ok := h.fs.ok i h.inum_lt

/-- The slot takes over a new version of the inode. -/
theorem setDin {t' : Store} (h : Works sb D i k t) (hmem : t'.mem = t.mem)
    (hfs : Fs sb (update D i x) (some i) (fun _ => False) t') (hx : x.type ≠ 0) :
    Works sb (update D i x) i k (t'.withMem (t'.mem.setDin k x)) := by
  have hslot : (t'.mem.setDin k x).icache k = { t.mem.icache k with din := x } := by
    rw [hmem]
    exact upd_self ..
  have hinum : (t'.mem.icache k).inum = i := by rw [hmem]; exact h.inum
  refine ⟨hfs.withMem (hfs.slots.upd rfl id fun _ _ ha => absurd (congrArg some hinum.symm) ha), h.lt,
    ?_, ?_, ?_, ?_⟩
  · show ((t'.mem.setDin k x).icache k).inum = i
    rw [hslot]
    exact h.inum
  · show 1 ≤ ((t'.mem.setDin k x).icache k).ref
    rw [hslot]
    exact h.ref
  · show ((t'.mem.setDin k x).icache k).din = _
    rw [hslot, update_self]
  · rw [update_self]
    exact hx

end Works

/-! ## Two moves -/

namespace Fs

/-- A block that was taken becomes a direct block or the indirect block of the inode. -/
theorem attach_addr (h : Fs sb D (some i) (fun c => X c ∨ c = a) t) (hi : i < sb.ninodes)
    (ht : (D i).type ≠ 0) (hp : p ≤ NDIRECT) (h0 : (D i).addrs p = 0) (hX : ¬ X a)
    (hdata : sb.data ≤ a) (hne : a ≠ 0) (hsmall : a < 4294967296)
    (hz : p = NDIRECT → NoEntries (t.blk a)) (hT : ¬ t.taint a) :
    Fs sb (update D i ((D i).setAddr p a)) (some i) X t := by
  have href : ∀ ip c, Refers sb (update D i ((D i).setAddr p a)) t.blk ip c ↔
      Refers sb D t.blk ip c ∨ ip = (i, p) ∧ c = a := refers_setAddr hi ht hp h0 hne hz
  have htype : ∀ j, (update D i ((D i).setAddr p a) j).type = (D j).type := fun j => by
    by_cases hj : j = i
    · rw [hj, update_self]
      rfl
    · rw [update_of_ne hj]
  refine h.redo (fun j hj => update_of_ne hj ..) ?_
    ((h.owned.attach (i := (i, p)) (.inr (.inr rfl))).congr (fun _ => Iff.rfl) href fun c => ?_) ?_
  · rw [update_self]
    exact (h.ok i hi).setAddr hp hsmall
  · grind
  · grind [Fs]

/-- A block that was taken becomes an entry of the inode's indirect block. -/
theorem attach_entry (h : Fs sb D (some i) (fun c => X c ∨ c = a) t) (hsb : sb.Wf)
    (hi : i < sb.ninodes) (ht : (D i).type ≠ 0) (hind : (D i).addrs NDIRECT ≠ 0)
    (hj : j < NINDIRECT) (h0 : addrAt t.blk (D i) (NDIRECT + 1 + j) = 0) (hX : ¬ X a)
    (hdata : sb.data ≤ a) (hne : a ≠ 0) (hsmall : a < 4294967296) (hT : ¬ t.taint a) :
    Fs sb D (some i) X (t.put ((D i).addrs NDIRECT) (put32 (t.blk ((D i).addrs NDIRECT)) (4 * j) a)) := by
  have hri : Refers sb D t.blk (i, NDIRECT) ((D i).addrs NDIRECT) := refers_indirect hi ht hind
  have hlow := (h.refers_data hri).1
  have hmeta := hsb.inode_lt
  have href := refers_setEntry hi ht hind (indirect_own h.owned hi ht hind) hj h0 hne hsmall
  refine ⟨fun l hl ha => ?_, h.ok, ?_, fun b hb => ⟨(h.taint b hb.1).1, fun l q hr => ?_⟩, h.slots⟩
  · have := hsb.iblock hl
    rw [put_blk, update_of_ne (by omega)]
    exact h.table l hl ha
  · refine (h.owned.attach (i := (i, NDIRECT + 1 + j)) (.inr (.inr rfl))).congr (fun c => ?_) href
      fun c => ?_
    · refine and_congr_right fun hc => ?_
      have := Superblock.bblock_range hc
      rw [mapBit, mapBit, put_blk, update_of_ne (by omega)]
    · grind
  · rcases (href (l, q) b).mp hr with hr | ⟨-, rfl⟩
    · exact (h.taint b hb.1).2 l q hr
    · exact absurd hb.1 hT

end Fs

namespace Works

/-- A free block is no metadata. -/
theorem free_ne (h : Works sb D i k t) (hsb : sb.Wf) (hf : mapBit sb t.blk a = false) :
    sb.data ≤ a ∧ a ≠ 0 := by
  have hdata := (h.fs.free_data hf).1
  have := hsb.inode_lt
  exact ⟨hdata, by omega⟩

/-- `balloc`, and the address goes to the inode. -/
theorem take_addr (h : Works sb D i k t) (hsb : sb.Wf) (hp : p ≤ NDIRECT)
    (h0 : (D i).addrs p = 0) (ha : a < sb.size) (hf : mapBit sb t.blk a = false) :
    Works sb (update D i ((D i).setAddr p a)) i k
      ((t.alloc sb a).withMem (t.mem.setDin k ((D i).setAddr p a))) := by
  obtain ⟨hdata, hne⟩ := h.free_ne hsb hf
  have hsmall := hsb.small
  refine h.setDin rfl ?_ h.type
  refine (h.fs.alloc hsb ha hf).attach_addr h.inum_lt h.type hp h0 id hdata hne (by omega)
    (fun _ => ?_) fun hT => hT.2 rfl
  rw [Fs.alloc_zero]
  exact noEntries_zero

/-- `balloc` leaves the indirect block alone. -/
theorem alloc_indirect (h : Works sb D i k t) (ha : a < sb.size)
    (hf : mapBit sb t.blk a = false) (hind : (D i).addrs NDIRECT ≠ 0) :
    (t.alloc sb a).blk ((D i).addrs NDIRECT) = t.blk ((D i).addrs NDIRECT) := by
  have hri : Refers sb D t.blk (i, NDIRECT) ((D i).addrs NDIRECT) :=
    refers_indirect h.inum_lt h.type hind
  refine Fs.alloc_blk ha (h.fs.refers_data hri).1 fun he => ?_
  exact (h.fs.free_data hf).2.2 _ (he ▸ hri)

/-- `balloc`, and the address goes to the indirect block. -/
theorem take_entry (h : Works sb D i k t) (hsb : sb.Wf) (hind : (D i).addrs NDIRECT ≠ 0)
    (hj : j < NINDIRECT) (h0 : addrAt t.blk (D i) (NDIRECT + 1 + j) = 0) (ha : a < sb.size)
    (hf : mapBit sb t.blk a = false) :
    Works sb D i k ((t.alloc sb a).put ((D i).addrs NDIRECT)
      (put32 (t.blk ((D i).addrs NDIRECT)) (4 * j) a)) := by
  obtain ⟨hdata, hne⟩ := h.free_ne hsb hf
  have hsmall := hsb.small
  have hkeep := h.alloc_indirect ha hf hind
  have hentry : addrAt (t.alloc sb a).blk (D i) (NDIRECT + 1 + j) = 0 := by
    rw [addrAt_congr fun _ => hkeep]
    exact h0
  have hfs := (h.fs.alloc hsb ha hf).attach_entry hsb h.inum_lt h.type hind hj hentry id hdata hne
    (by omega) fun hT => hT.2 rfl
  rw [hkeep] at hfs
  exact ⟨hfs, h.lt, h.inum, h.ref, h.din, h.type⟩

end Works

/-! ## What `bmap` does -/

/-- What is still to be paid to the log for the indirect block. -/
def cost (x : Dinode) (lh : List Nat) : Nat :=
  if x.addrs NDIRECT ≠ 0 ∧ x.addrs NDIRECT ∈ lh then 0 else 2

/-- The blocks still to be allocated for the indirect block. -/
def lack (x : Dinode) : Nat := if x.addrs NDIRECT = 0 then 1 else 0

/-- Block `bn` of inode `i` is block `a`, and the inode is now `x`. -/
structure Bmapped (sb : Superblock) (D : Nat → Dinode) (i k bn : Nat) (t : Store) (a : Nat)
    (x : Dinode) (t' : Store) : Prop where
  works : Works sb (update D i x) i k t'
  mapped : Mapped t.blk t'.blk (D i) x bn a
  mem : t'.mem = t.mem.setDin k x
  held : t'.held = t.held
  out : t'.out = t.out
  taint : ∀ b, t'.taint b → t.taint b
  data : ∀ c, sb.data ≤ c → Used sb t.blk c → c ≠ (D i).addrs NDIRECT → t'.blk c = t.blk c
  used : ∀ c, Used sb t.blk c → Used sb t'.blk c
  fresh : addrAt t.blk (D i) (place bn) = 0 → ¬ Used sb t.blk a ∧ ¬ t'.taint a
  listed : ∀ c, c ∈ t.lh → c ∈ t'.lh
  paid : t'.lh.length + cost x t'.lh + (if a ∈ t'.lh then 0 else 1) ≤
    t.lh.length + cost (D i) t.lh + 2
  free : freeBlocks sb t.blk + lack x ≤ freeBlocks sb t'.blk + lack (D i) + 1

theorem cost_mono {lh lh' : List Nat} (h : ∀ c, c ∈ lh → c ∈ lh') : cost x lh' ≤ cost x lh := by
  unfold cost
  split
  · exact Nat.zero_le _
  · next hn =>
    rw [if_neg fun hx => hn ⟨hx.1, h _ hx.2⟩]

theorem Mem.setDin_self (m : Mem) (k : Nat) : m.setDin k (m.icache k).din = m := by
  unfold setDin upd
  rw [update_eq_self]

theorem Mem.setDin_setDin (m : Mem) (k : Nat) (x y : Dinode) :
    (m.setDin k x).setDin k y = m.setDin k y := by
  unfold setDin upd
  simp only [update_self, update_idem]

/-- The log after `balloc`. -/
theorem Store.alloc_lh (sb : Superblock) (t : Store) (a : Nat) :
    (t.alloc sb a).lh.length ≤ t.lh.length + 2 ∧ a ∈ (t.alloc sb a).lh ∧
      ∀ c, c ∈ t.lh → c ∈ (t.alloc sb a).lh := by
  have h1 := length_addBlock t.lh (sb.bblock a)
  have h2 := length_addBlock (addBlock t.lh (sb.bblock a)) a
  refine ⟨?_, mem_addBlock.mpr (.inr rfl), fun c hc =>
    mem_addBlock.mpr (.inl (mem_addBlock.mpr (.inl hc)))⟩
  show (addBlock (addBlock t.lh (sb.bblock a)) a).length ≤ _
  omega

section Cases

/-- What `balloc` does to the free map. -/
theorem alloc_used (hdata : sb.data ≤ a) (c : Nat) (hc : Used sb t.blk c) :
    Used sb (t.alloc sb a).blk c := by
  refine ⟨hc.1, ?_⟩
  rw [Fs.alloc_map hdata hc.1]
  split
  · rfl
  · exact hc.2

theorem alloc_freeBlocks (hdata : sb.data ≤ a) :
    freeBlocks sb t.blk ≤ freeBlocks sb (t.alloc sb a).blk + 1 := by
  refine freeBlocks_take (b := a) fun c hc hca hf => ?_
  rw [Fs.alloc_map hdata hc, if_neg hca]
  exact hf

theorem used_put (hdata : sb.data ≤ a) (d : Block) (c : Nat) :
    Used sb (t.put a d).blk c ↔ Used sb t.blk c := by
  refine and_congr_right fun hc => ?_
  have := Superblock.bblock_range hc
  rw [mapBit, mapBit, put_blk, update_of_ne (by omega)]

section

variable (h : Works sb D i k t)
include h

/-- The block is there. -/
theorem bmapped_here (hm : Mapped t.blk t.blk (D i) (D i) bn a) : Bmapped sb D i k bn t a (D i) t := by
  have hold : addrAt t.blk (D i) (place bn) ≠ 0 := by rw [hm.addr]; exact hm.ne
  refine ⟨by rw [update_eq_self]; exact h, hm, ?_, rfl, rfl, fun _ => id, fun _ _ _ _ => rfl,
    fun _ => id, fun h0 => absurd h0 hold, fun _ => id, ?_, by omega⟩
  · rw [← h.din, setDin_self]
  · split <;> omega

/-- A new direct block. -/
theorem bmapped_direct (hsb : sb.Wf) (hbn : bn < NDIRECT)
    (h0 : (D i).addrs bn = 0) (ha : a < sb.size) (hf : mapBit sb t.blk a = false) :
    Bmapped sb D i k bn t a ((D i).setAddr bn a)
      ((t.alloc sb a).withMem (t.mem.setDin k ((D i).setAddr bn a))) := by
  obtain ⟨hdata, hne⟩ := h.free_ne hsb hf
  have hnot : ¬ Used sb t.blk a := fun hu => by rw [hu.2] at hf; cases hf
  have hsame : ((D i).setAddr bn a).addrs NDIRECT = (D i).addrs NDIRECT :=
    (D i).setAddr_ne a (Nat.ne_of_gt hbn)
  obtain ⟨hlen, hin, hlisted⟩ := alloc_lh sb t a
  refine ⟨h.take_addr hsb hbn.le h0 ha hf, ?_, rfl, rfl, rfl, fun b hb => hb.1.1,
    fun c hc hu _ => Fs.alloc_blk ha hc ?_, alloc_used hdata, fun _ => ⟨hnot, fun hT => hT.2 rfl⟩,
    hlisted, ?_, ?_⟩
  · refine (mapped_setAddr hbn h0 hne).congr fun hx => ?_
    rw [hsame] at hx ⊢
    exact h.alloc_indirect ha hf hx
  · rintro rfl
    exact hnot hu
  · show (t.alloc sb a).lh.length + cost _ (t.alloc sb a).lh + (if a ∈ (t.alloc sb a).lh then 0 else 1)
      ≤ _
    have hmono : cost ((D i).setAddr bn a) (t.alloc sb a).lh ≤ cost (D i) t.lh := by
      have := cost_mono (x := D i) hlisted
      unfold cost at this ⊢
      rwa [hsame]
    rw [if_pos hin]
    omega
  · have := alloc_freeBlocks (t := t) hdata
    unfold lack
    rw [hsame]
    show _ ≤ freeBlocks sb (t.alloc sb a).blk + _ + 1
    omega

/-- A new entry of the indirect block. -/
theorem bmapped_entry (hsb : sb.Wf) (hbn : ¬ bn < NDIRECT)
    (hmax : bn < MAXFILE) (hind : (D i).addrs NDIRECT ≠ 0)
    (h0 : addrAt t.blk (D i) (place bn) = 0) (ha : a < sb.size) (hf : mapBit sb t.blk a = false) :
    Bmapped sb D i k bn t a (D i) ((t.alloc sb a).put ((D i).addrs NDIRECT)
      (put32 (t.blk ((D i).addrs NDIRECT)) (4 * (bn - NDIRECT)) a)) := by
  obtain ⟨hdata, hne⟩ := h.free_ne hsb hf
  have hsmall := hsb.small
  have hnot : ¬ Used sb t.blk a := fun hu => by rw [hu.2] at hf; cases hf
  have hri : Refers sb D t.blk (i, NDIRECT) ((D i).addrs NDIRECT) :=
    refers_indirect h.inum_lt h.type hind
  have hlow := (h.fs.refers_data hri).1
  obtain ⟨hlen, hin, hlisted⟩ := alloc_lh sb t a
  have hin' : ∀ c, c ∈ (t.alloc sb a).lh → c ∈ addBlock (t.alloc sb a).lh ((D i).addrs NDIRECT) :=
    fun c hc => mem_addBlock.mpr (.inl hc)
  have hj : bn - NDIRECT < NINDIRECT := by unfold MAXFILE at hmax; omega
  refine ⟨?_, ?_, ?_, rfl, rfl, fun b hb => hb.1.1.1, fun c hc hu hci => ?_, fun c hu => ?_,
    fun _ => ⟨hnot, fun hT => hT.1.2 rfl⟩, fun c hc => hin' c (hlisted c hc), ?_, ?_⟩
  · rw [update_eq_self]
    exact h.take_entry hsb hind hj (by rw [← place_indirect hbn]; exact h0) ha hf
  · refine ((withIndirect_refl hind).mapped_setEntry hbn hmax h0 hne (by omega)).congr fun _ => ?_
    rw [update_self]
    exact update_self ..
  · show t.mem = t.mem.setDin k (D i)
    rw [← h.din, setDin_self]
  · rw [put_blk, update_of_ne hci]
    refine Fs.alloc_blk ha hc ?_
    rintro rfl
    exact hnot hu
  · exact (used_put hlow _ c).mpr (alloc_used hdata c hu)
  · show (addBlock (t.alloc sb a).lh ((D i).addrs NDIRECT)).length +
      cost (D i) (addBlock (t.alloc sb a).lh ((D i).addrs NDIRECT)) +
      (if a ∈ addBlock (t.alloc sb a).lh ((D i).addrs NDIRECT) then 0 else 1) ≤ _
    have hzero : cost (D i) (addBlock (t.alloc sb a).lh ((D i).addrs NDIRECT)) = 0 :=
      if_pos ⟨hind, mem_addBlock.mpr (.inr rfl)⟩
    rw [hzero, if_pos (hin' a hin)]
    unfold cost
    split
    · next hx =>
      -- listed already
      rw [addBlock, if_pos (hlisted _ hx.2)]
      omega
    · have := length_addBlock (t.alloc sb a).lh ((D i).addrs NDIRECT)
      omega
  · have h1 := alloc_freeBlocks (t := t) hdata
    have h2 : freeBlocks sb (t.alloc sb a).blk ≤ freeBlocks sb ((t.alloc sb a).put
        ((D i).addrs NDIRECT) (put32 (t.blk ((D i).addrs NDIRECT)) (4 * (bn - NDIRECT)) a)).blk := by
      refine freeBlocks_mono fun c hc hfc => ?_
      have := Superblock.bblock_range hc
      rw [mapBit, put_blk, update_of_ne (by omega)]
      exact hfc
    omega

/-- The inode has an indirect block; everything else is as before. -/
structure Prepared (sb : Superblock) (D : Nat → Dinode) (i k : Nat) (t : Store) (x : Dinode)
    (t' : Store) : Prop where
  works : Works sb (update D i x) i k t'
  fields : x = { D i with addrs := x.addrs }
  ne : x.addrs NDIRECT ≠ 0
  kept : ∀ p, p < NPLACE → p ≠ NDIRECT → addrAt t'.blk x p = addrAt t.blk (D i) p
  indirect : (D i).addrs NDIRECT ≠ 0 → x.addrs NDIRECT = (D i).addrs NDIRECT
  fresh : (D i).addrs NDIRECT = 0 → ¬ Used sb t.blk (x.addrs NDIRECT)
  mem : t'.mem = t.mem.setDin k x
  held : t'.held = t.held
  out : t'.out = t.out
  taint : ∀ b, t'.taint b → t.taint b
  data : ∀ c, sb.data ≤ c → Used sb t.blk c → t'.blk c = t.blk c
  used : ∀ c, Used sb t.blk c → Used sb t'.blk c
  listed : ∀ c, c ∈ t.lh → c ∈ t'.lh
  paid : t'.lh.length + cost x t'.lh ≤ t.lh.length + cost (D i) t.lh
  free : freeBlocks sb t.blk + lack x ≤ freeBlocks sb t'.blk + lack (D i)

theorem prepared_here (hind : (D i).addrs NDIRECT ≠ 0) : Prepared sb D i k t (D i) t := by
  refine ⟨by rw [update_eq_self]; exact h, rfl, hind, fun _ _ _ => rfl, fun _ => rfl,
    fun h0 => absurd h0 hind, ?_, rfl, rfl, fun _ => id, fun _ _ _ => rfl, fun _ => id, fun _ => id,
    le_rfl, le_rfl⟩
  rw [← h.din, setDin_self]

theorem prepared_new (hsb : sb.Wf) (h0 : (D i).addrs NDIRECT = 0)
    (ha : a < sb.size) (hf : mapBit sb t.blk a = false) :
    Prepared sb D i k t ((D i).setAddr NDIRECT a)
      ((t.alloc sb a).withMem (t.mem.setDin k ((D i).setAddr NDIRECT a))) := by
  obtain ⟨hdata, hne⟩ := h.free_ne hsb hf
  have hnot : ¬ Used sb t.blk a := fun hu => by rw [hu.2] at hf; cases hf
  have hself : ((D i).setAddr NDIRECT a).addrs NDIRECT = a := Dinode.setAddr_self ..
  obtain ⟨hlen, hin, hlisted⟩ := alloc_lh sb t a
  refine ⟨h.take_addr hsb le_rfl h0 ha hf, rfl, by rw [hself]; exact hne, fun p hp hpn => ?_,
    fun hx => absurd h0 hx, fun _ => by rw [hself]; exact hnot, rfl, rfl, rfl, fun b hb => hb.1.1,
    fun c hc hu => Fs.alloc_blk ha hc ?_, alloc_used hdata, hlisted, ?_, ?_⟩
  · show addrAt (t.alloc sb a).blk _ p = _
    rw [addrAt_setAddr le_rfl h0 (fun _ => ?_) hp, if_neg hpn]
    · exact addrAt_congr fun hx => absurd h0 hx
    · rw [Fs.alloc_zero]
      exact noEntries_zero
  · rintro rfl
    exact hnot hu
  · show (t.alloc sb a).lh.length + cost _ (t.alloc sb a).lh ≤ _
    have h1 : cost ((D i).setAddr NDIRECT a) (t.alloc sb a).lh = 0 :=
      if_pos (by rw [hself]; exact ⟨hne, hin⟩)
    have h2 : cost (D i) t.lh = 2 := if_neg fun hx => hx.1 h0
    omega
  · have h1 : lack ((D i).setAddr NDIRECT a) = 0 := if_neg (by rw [hself]; exact hne)
    have h2 : lack (D i) = 1 := if_pos h0
    have := alloc_freeBlocks (t := t) hdata
    show _ ≤ freeBlocks sb (t.alloc sb a).blk + _
    omega

end

/-- First the indirect block, then the entry. -/
theorem Prepared.bmapped {y : Dinode} {t1 t2 : Store} (h : Prepared sb D i k t x t1)
    (hbn : ¬ bn < NDIRECT) (hmax : bn < MAXFILE)
    (h' : Bmapped sb (update D i x) i k bn t1 a y t2) : Bmapped sb D i k bn t a y t2 := by
  obtain ⟨hworks, hmapped, hmem, hheld, hout, htaint, hdata, hused, hfresh, hlisted, hpaid, hfree⟩ := h'
  rw [update_idem] at hworks
  rw [update_self] at hmapped hdata hfresh hpaid hfree
  obtain ⟨hplt, hpne⟩ := place_lt hmax
  have hold := h.kept _ hplt hpne
  refine ⟨hworks, ⟨?_, hmapped.addr, hmapped.ne, fun hx => ?_, fun p hp hpb hpn => ?_, fun hx => ?_, ?_⟩,
    ?_, hheld.trans h.held, hout.trans h.out, fun b hb => h.taint b (htaint b hb), fun c hc hu hci => ?_,
    fun c hu => hused c (h.used c hu), fun h0 => ?_, fun c hc => hlisted c (h.listed c hc), ?_, ?_⟩
  · rw [hmapped.fields, h.fields]
  · rw [← hold] at hx ⊢
    exact hmapped.old hx
  · rw [hmapped.kept p hp hpb hpn, h.kept p hp hpn]
  · rw [hmapped.indirect h.ne, h.indirect hx]
  · exact iff_of_true (hmapped.indirect_iff.mpr (.inl h.ne)) (.inr (not_lt.mp hbn))
  · rw [hmem, h.mem, setDin_setDin]
  · grind [Prepared]
  · rw [← hold] at h0
    exact ⟨fun hu => (hfresh h0).1 (h.used a hu), (hfresh h0).2⟩
  · have := h.paid
    omega
  · have := h.free
    omega

end Cases

/-! ## The code -/

section Code

variable {g : Goal}

/-- `ip->addrs[p]`, allocated if there is none. -/
theorem wp_bmapAddr (hsb : sb.Wf) (h : Works sb D i k t) (hheld : t.held = []) (msg : String)
    (hroom : (D i).addrs p = 0 → t.Room sb g 2)
    (hfree : (D i).addrs p = 0 → g.bad (.panic "balloc: out of blocks") → 0 < freeBlocks sb t.blk) :
    (Code.bmapAddr sb k p msg).wp (spec sb g) (fun a t' =>
      (D i).addrs p ≠ 0 ∧ a = (D i).addrs p ∧ t' = t ∨
      (D i).addrs p = 0 ∧ a < sb.size ∧ mapBit sb t.blk a = false ∧
        t' = (t.alloc sb a).withMem (t.mem.setDin k ((D i).setAddr p a))) t := by
  refine wp_mem ?_
  rw [h.din]
  split
  · next h0 =>
    refine wp_seq (wp_balloc hsb h.fs (hroom h0) (fun _ => by rw [hheld]; simp) fun hbad =>
      exists_free (hfree h0 hbad)) ?_
    rintro a t' ⟨ha, hf, rfl⟩
    rw [if_neg (h.free_ne hsb hf).2]
    refine wp_modify (.inr ⟨h0, ha, hf, ?_⟩)
    refine congrArg (t.alloc sb a).withMem (upd_congr ?_)
    show ({ t.mem.icache k with din := (t.mem.icache k).din.setAddr p a } : Inode) = _
    rw [h.din]
    rfl
  · next h0 => exact .inl ⟨h0, rfl, rfl⟩

/-- The disk block of the `bn`th block of the inode, allocated if there is none. -/
theorem wp_bmap (hsb : sb.Wf) (h : Works sb D i k t) (hheld : t.held = []) (hmax : bn < MAXFILE)
    (hbuf : g.total → t.lh.length < NBUF)
    (hroom : addrAt t.blk (D i) (place bn) = 0 → t.Room sb g (cost (D i) t.lh + 3))
    (hfree : addrAt t.blk (D i) (place bn) = 0 → g.bad (.panic "balloc: out of blocks") →
      lack (D i) + 1 ≤ freeBlocks sb t.blk) :
    (Code.bmap sb k bn).wp (spec sb g) (fun a t' => ∃ x, Bmapped sb D i k bn t a x t') t := by
  unfold Code.bmap
  split
  · next hbn =>
    have hplace : addrAt t.blk (D i) (place bn) = (D i).addrs bn := by
      rw [place_direct hbn, addrAt_direct hbn.le]
    rw [hplace] at hroom hfree
    refine wp_mono (wp_bmapAddr hsb h hheld _ (fun h0 => (hroom h0).mono (by omega))
      fun h0 hbad => by have := hfree h0 hbad; omega) ?_
    rintro a t' (⟨h0, rfl, rfl⟩ | ⟨h0, ha, hf, rfl⟩)
    · exact ⟨_, bmapped_here h (mapped_direct hbn h0)⟩
    · exact ⟨_, bmapped_direct h hsb hbn h0 ha hf⟩
  · next hbn =>
    have hlt : bn - NDIRECT < NINDIRECT := by unfold MAXFILE at hmax; omega
    rw [if_pos hlt]
    -- without an indirect block there is no entry
    have hnone : (D i).addrs NDIRECT = 0 → addrAt t.blk (D i) (place bn) = 0 := fun h0 => by
      rw [place_indirect hbn, addrAt, if_neg (by omega), if_pos h0]
    refine wp_seq (wp_bmapAddr hsb h hheld _ (fun h0 => (hroom (hnone h0)).mono (by omega))
      fun h0 hbad => by have := hfree (hnone h0) hbad; omega) ?_
    intro ind t1 hind
    have hprep : ∃ x, Prepared sb D i k t x t1 ∧ ind = x.addrs NDIRECT := by
      grind [prepared_here, prepared_new, Dinode.setAddr_self]
    have hbuf1 : g.total → t1.lh.length < NBUF := fun ht => by
      rcases hind with ⟨-, -, rfl⟩ | ⟨h0, -, -, rfl⟩
      · exact hbuf ht
      · have h1 := (hroom (hnone h0) ht).2
        have h2 := (alloc_lh sb t ind).1
        have h3 : sb.nlog ≤ 30 := hsb.logsize
        show (t.alloc sb ind).lh.length < 30
        omega
    obtain ⟨x, hp, rfl⟩ := hprep
    have hD : update D i x i = x := update_self ..
    obtain ⟨hplt, hpne⟩ := place_lt hmax
    have hri : Refers sb (update D i x) t1.blk (i, NDIRECT) _ :=
      refers_indirect hp.works.inum_lt hp.works.type (by rw [hD]; exact hp.ne)
    rw [hD] at hri
    have hlow := hp.works.fs.refers_data hri
    have hmeta := hsb.inode_lt
    have hheld1 : t1.held = [] := hp.held.trans hheld
    have hentry : le32 (t1.blk (x.addrs NDIRECT)) (4 * (bn - NDIRECT)) = addrAt t1.blk x (place bn) := by
      rw [place_indirect hbn, addrAt_indirect (by omega) hp.ne, Nat.add_sub_cancel_left]
    refine wp_bread_clean (not_inLog hsb (by omega)) (hp.works.fs.indirect_clean hri)
      (fun ht => by rw [hheld1]; simpa using hbuf1 ht) fun _ => ?_
    refine wp_data (List.mem_cons_self ..) ?_
    rw [hold_blk, hentry]
    split
    · next h0 =>
      rw [hp.kept _ hplt hpne] at h0
      have hroom1 : t1.Room sb g 3 := fun ht => by
        obtain ⟨h1, h2⟩ := hroom h0 ht
        have h3 := hp.paid
        have h4 := hp.out
        exact ⟨by omega, by omega⟩
      refine wp_seq (wp_balloc hsb (hp.works.fs.hold _) (hroom1.mono (by omega)) (fun _ => ?_)
        fun hbad => exists_free ?_) ?_
      · rw [hold_held, hheld1]
        exact ⟨Nat.le_refl 1, fun c hc => by
          obtain rfl := List.mem_singleton.mp hc
          exact hlow⟩
      · have h1 := hfree h0 hbad
        have h2 := hp.free
        show 0 < freeBlocks sb t1.blk
        omega
      · rintro a t2 ⟨ha, hf, rfl⟩
        rw [if_neg (hp.works.free_ne hsb hf).2]
        refine wp_put (List.mem_cons_self ..) (by have := hsb.small; have := hlow.2.1; omega)
          hsb.logsize ?_ ?_
        · intro ht
          obtain ⟨h1, h2⟩ := hroom1 ht
          have h3 := (alloc_lh sb t1 a).1
          exact ⟨h1, show (t1.alloc sb a).lh.length + 1 < _ by omega⟩
        · refine wp_brelse_hold (t := (t1.alloc sb a).put (x.addrs NDIRECT)
            (put32 (t1.blk (x.addrs NDIRECT)) (4 * (bn - NDIRECT)) a)) ?_
          have hb := bmapped_entry hp.works hsb hbn hmax (by rw [hD]; exact hp.ne)
            (by rw [hD, hp.kept _ hplt hpne]; exact h0) ha hf
          rw [hD] at hb
          exact ⟨x, hp.bmapped hbn hmax hb⟩
    · next h0 =>
      refine wp_brelse_hold ?_
      have hm : Mapped t1.blk t1.blk (update D i x i) (update D i x i) bn (addrAt t1.blk x (place bn)) := by
        rw [hD]
        exact (withIndirect_refl hp.ne).mapped hbn hmax h0
      have hb := bmapped_here hp.works hm
      rw [hD] at hb
      exact ⟨x, hp.bmapped hbn hmax hb⟩

/-- `bmap` of a block that is there changes nothing, and only looks. -/
theorem wp_bmap_here (hsb : sb.Wf) (hfs : Fs sb D act X t)
    (hi : i < sb.ninodes) (ht : (D i).type ≠ 0) (hdin : (t.mem.icache k).din = D i)
    (hheld : t.held = []) (hmax : bn < MAXFILE) (hbuf : g.total → t.lh.length < NBUF)
    (hne : addrAt t.blk (D i) (place bn) ≠ 0) :
    (Code.bmap sb k bn).wp (looks sb g) (fun a t' => a = addrAt t.blk (D i) (place bn) ∧ t' = t) t := by
  have haddr : ∀ p msg, (D i).addrs p ≠ 0 → (Code.bmapAddr sb k p msg).wp (looks sb g)
      (fun a t' => a = (D i).addrs p ∧ t' = t) t := fun p msg h0 => by
    refine look_mem ?_
    rw [hdin, if_neg h0]
    exact ⟨rfl, rfl⟩
  unfold Code.bmap
  split
  · grind [place_direct, addrAt_direct]
  · next hbn =>
    rw [if_pos (show bn - NDIRECT < NINDIRECT by unfold MAXFILE at hmax; omega)]
    have hind : (D i).addrs NDIRECT ≠ 0 := fun h0 => hne (by
      rw [place_indirect hbn, addrAt, if_neg (by omega), if_pos h0])
    have hentry : addrAt t.blk (D i) (place bn) =
        le32 (t.blk ((D i).addrs NDIRECT)) (4 * (bn - NDIRECT)) := by
      rw [place_indirect hbn, addrAt_indirect (by omega) hind, Nat.add_sub_cancel_left]
    rw [hentry] at hne ⊢
    refine wp_seq (haddr NDIRECT _ hind) ?_
    rintro a t' ⟨rfl, rfl⟩
    have hri : Refers sb D t'.blk (i, NDIRECT) _ := refers_indirect hi ht hind
    have hlow := (hfs.refers_data hri).1
    have hmeta := hsb.inode_lt
    refine look_bread hlow (not_inLog hsb (by omega))
      (fun ht => by rw [hheld]; simpa using hbuf ht) fun d _ hd => ?_
    rw [hd (hfs.indirect_clean hri), update_eq_self]
    refine look_data (List.mem_cons_self ..) ?_
    rw [hold_blk, if_neg hne]
    exact look_brelse ⟨rfl, rfl⟩

end Code

end Xv6
