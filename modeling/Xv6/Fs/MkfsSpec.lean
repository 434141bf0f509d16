/-
  WHAT `mkfs` BUILDS.

  `Made D act` says that the image holds the inode table `D` and that the blocks handed out so far —
  those below `freeblock` — are exactly the metadata blocks and the blocks that the inodes refer to,
  each from one place; `act` is the inode `iappend` is working on, whose copy on disk is behind.
  `Full` says that an inode of `off` bytes has exactly the blocks it needs.

  Each round of `iappend` keeps both (`appendRound_spec`), so a call appends its bytes to one file,
  leaves the others alone and takes as many blocks as the longer file needs more
  (`iappend_spec`).
-/
import Xv6.Fs.Mkfs

namespace Xv6

open Function Bytes Owner Option

theorem mkfsSb_wf : mkfsSb.Wf := by
  constructor <;> decide

namespace Mkfs

/-! ## The invariant -/

/-- The image so far: `D` is the inode table but for `act`, and what is not allocated yet is zero. -/
structure Made (D : Nat → Dinode) (act : Option Nat) (st : Mkfs) : Prop where
  table : ∀ i, i < mkfsSb.ninodes → act ≠ some i → Dinode.get (st.img (mkfsSb.iblock i)) (i % IPB) = D i
  ok : ∀ i, i < mkfsSb.ninodes → (D i).Ok
  owned : Owned (fun b => b < st.freeblock) (Refers mkfsSb D st.img) fun b => b < mkfsSb.data
  fresh : ∀ b, st.freeblock ≤ b → st.img b = fun _ => 0
  first : ∀ b, b < mkfsSb.inodestart → st.img b = blank.img b

/-- The inode has a block for each index below the end of its `off` bytes, and no other. -/
structure Full (blk : Nat → Block) (x : Dinode) (off : Nat) : Prop where
  blocks : ∀ bn, bn < MAXFILE → (addrAt blk x (place bn) ≠ 0 ↔ bn * BSIZE < off)
  indirect : x.addrs NDIRECT ≠ 0 ↔ NDIRECT * BSIZE < off

/-- The blocks of a file: its data blocks, and the indirect block. -/
def nblocks (size : Nat) : Nat :=
  (size + (BSIZE - 1)) / BSIZE + if NDIRECT * BSIZE < size then 1 else 0

variable {D : Nat → Dinode} {act : Option Nat} {st st' : Mkfs} {i b : Nat}

namespace Made

theorem low (h : Made D act st) : mkfsSb.data ≤ st.freeblock := by
  have hd : mkfsSb.data = 46 := by decide
  have := h.owned.reserved_used (b := 45) (show 45 < mkfsSb.data by decide)
  omega

/-- A referenced block is a data block that has been handed out. -/
theorem refers_range (h : Made D act st) {ip : Nat × Nat} (hr : Refers mkfsSb D st.img ip b) :
    mkfsSb.data ≤ b ∧ b < st.freeblock :=
  ⟨not_lt.mp (h.owned.apart hr), h.owned.ref_used hr⟩

/-- What the invariant depends on. -/
theorem change (h : Made D act st) {img : Nat → Block}
    (hblk : ∀ c, c < mkfsSb.data ∨ (∃ j, Refers mkfsSb D st.img (j, NDIRECT) c) ∨
      st.freeblock ≤ c → img c = st.img c) : Made D act { st with img := img } := by
  have href : ∀ ip c, Refers mkfsSb D img ip c ↔ Refers mkfsSb D st.img ip c :=
    refers_congr fun j c hr => hblk c (.inr (.inl ⟨j, hr⟩))
  refine ⟨fun j hj ha => ?_, h.ok, h.owned.congr (fun _ => Iff.rfl) href fun _ => Iff.rfl,
    fun c hc => (hblk c (.inr (.inr hc))).trans (h.fresh c hc), fun c hc => ?_⟩
  · have := mkfsSb_wf.iblock hj
    have := mkfsSb_wf.inode_lt
    show Dinode.get (img _) _ = _
    rw [hblk _ (.inl (by omega))]
    exact h.table j hj ha
  · have := mkfsSb_wf.inode_lt
    exact (hblk c (.inl (by omega))).trans (h.first c hc)

theorem activate (h : Made D none st) (i : Nat) : Made D (some i) st :=
  ⟨fun j hj _ => h.table j hj (some_ne_none j).symm, h.ok, h.owned, h.fresh, h.first⟩

/-- A new block becomes a direct block or the indirect block of the inode. -/
theorem take_addr (h : Made D (some i) st) {p : Nat} (hi : i < mkfsSb.ninodes)
    (ht : (D i).type ≠ 0) (hp : p ≤ NDIRECT) (h0 : (D i).addrs p = 0)
    (hsmall : st.freeblock < FSSIZE) :
    Made (update D i ((D i).setAddr p st.freeblock)) (some i)
      { st with freeblock := st.freeblock + 1 } := by
  have hlow := h.low
  have hd : 0 < mkfsSb.data := by decide
  refine ⟨fun j hj ha => ?_, fun j hj => ?_, ?_, fun c hc => h.fresh c (Nat.le_of_succ_le hc), h.first⟩
  · rw [update_of_ne fun he => ha (congrArg some he.symm)]
    exact h.table j hj ha
  · by_cases hji : j = i
    · subst hji
      rw [update_self]
      refine (h.ok j hj).setAddr hp ?_
      have : FSSIZE = 4096 := rfl
      omega
    · rw [update_of_ne hji]
      exact h.ok j hj
  · -- take it, then let the place refer to it
    have htake := h.owned.take (b := st.freeblock) (lt_irrefl _)
    refine (htake.attach (i := (i, p)) (.inr rfl)).congr (fun c => ?_) (fun ip c => ?_) fun c => ?_
    · show c < st.freeblock + 1 ↔ _
      omega
    · exact refers_setAddr hi ht hp h0 (by omega)
        (fun _ => by rw [h.fresh _ le_rfl]; exact noEntries_zero) ip c
    · omega

/-- A new block becomes an entry of the inode's indirect block. -/
theorem take_entry (h : Made D (some i) st) {j : Nat} (hi : i < mkfsSb.ninodes)
    (ht : (D i).type ≠ 0) (hind : (D i).addrs NDIRECT ≠ 0) (hj : j < NINDIRECT)
    (h0 : addrAt st.img (D i) (NDIRECT + 1 + j) = 0) (hsmall : st.freeblock < FSSIZE) :
    Made D (some i) ({ st with freeblock := st.freeblock + 1 }.wsect ((D i).addrs NDIRECT)
      (put32 (st.img ((D i).addrs NDIRECT)) (4 * j) st.freeblock)) := by
  have hrange := h.refers_range (refers_indirect hi ht hind)
  have hs : FSSIZE = 4096 := rfl
  refine ⟨fun l hl ha => ?_, h.ok, ?_, fun c hc => ?_, fun c hc => ?_⟩
  · have := mkfsSb_wf.iblock hl
    have := mkfsSb_wf.inode_lt
    rw [wsect_ne _ _ (by omega)]
    exact h.table l hl ha
  · have htake := h.owned.take (b := st.freeblock) (lt_irrefl _)
    refine (htake.attach (i := (i, NDIRECT + 1 + j)) (.inr rfl)).congr (fun c => ?_)
      (fun ip c => ?_) fun c => ?_
    · show c < st.freeblock + 1 ↔ _
      omega
    · exact refers_setEntry hi ht hind (indirect_own h.owned hi ht hind) hj h0 (by omega) (by omega) ip c
    · omega
  · have hc' : st.freeblock + 1 ≤ c := hc
    rw [wsect_ne _ _ (by omega)]
    exact h.fresh c (by omega)
  · have := mkfsSb_wf.inode_lt
    rw [wsect_ne _ _ (by omega)]
    exact h.first c hc

end Made

/-! ## What the other inodes see -/

/-- Nothing that the inodes other than `i` refer to has changed. -/
structure Spares (D : Nat → Dinode) (i : Nat) (st st' : Mkfs) : Prop where
  addr : ∀ j, j ≠ i → j < mkfsSb.ninodes → (D j).type ≠ 0 → ∀ p,
    addrAt st'.img (D j) p = addrAt st.img (D j) p
  data : ∀ j p c, j ≠ i → Refers mkfsSb D st.img (j, p) c → st'.img c = st.img c
  freeinode : st'.freeinode = st.freeinode

namespace Spares

theorem refl (D : Nat → Dinode) (i : Nat) (st : Mkfs) : Spares D i st st :=
  ⟨fun _ _ _ _ _ => rfl, fun _ _ _ _ _ => rfl, rfl⟩

theorem refers (h : Spares D i st st') {j p c : Nat} (hj : j ≠ i) :
    Refers mkfsSb D st'.img (j, p) c ↔ Refers mkfsSb D st.img (j, p) c := by
  constructor
  · rintro ⟨h1, h2, h3, h4, h5⟩
    exact ⟨h1, h2, h3, (h.addr j hj h1 h2 p) ▸ h4, h5⟩
  · rintro ⟨h1, h2, h3, h4, h5⟩
    exact ⟨h1, h2, h3, (h.addr j hj h1 h2 p).trans h4, h5⟩

theorem trans {st'' : Mkfs} (h : Spares D i st st') (h' : Spares D i st' st'') : Spares D i st st'' := by
  refine ⟨fun j hj hlt ht p => (h'.addr j hj hlt ht p).trans (h.addr j hj hlt ht p),
    fun j p c hj hr => ?_, h'.freeinode.trans h.freeinode⟩
  rw [h'.data j p c hj ((h.refers hj).mpr hr), h.data j p c hj hr]

/-- The table may change at `i`. -/
theorem table {D' : Nat → Dinode} (h : Spares D i st st') (hD : ∀ j, j ≠ i → D' j = D j) :
    Spares D' i st st' := by
  refine ⟨fun j hj hlt ht p => ?_, fun j p c hj hr => h.data j p c hj ?_, h.freeinode⟩
  · rw [hD j hj] at ht ⊢
    exact h.addr j hj hlt ht p
  · obtain ⟨h1, h2, h3, h4, h5⟩ := hr
    rw [hD j hj] at h2 h4
    exact ⟨h1, h2, h3, h4, h5⟩

end Spares

/-! ## One round of `iappend` -/

/-- `blockFor` has found or made block `bn` of inode `i`. -/
structure Found (D : Nat → Dinode) (i bn : Nat) (st : Mkfs) (x : Nat) (y : Dinode) (st' : Mkfs) :
    Prop where
  made : Made (update D i y) (some i) st'
  mapped : Mapped st.img st'.img (D i) y bn x
  spares : Spares D i st st'
  own : ∀ p c, p ≠ NDIRECT → Refers mkfsSb D st.img (i, p) c → st'.img c = st.img c
  count : st'.freeblock = st.freeblock + (if addrAt st.img (D i) (place bn) = 0 then 1 else 0) +
    if (D i).addrs NDIRECT = 0 ∧ NDIRECT ≤ bn then 1 else 0

section

variable (h : Made D (some i) st)
include h

/-- `addrFor` for the indirect block. -/
theorem addrFor_indirect (hi : i < mkfsSb.ninodes) (ht : (D i).type ≠ 0) (hsmall : st.freeblock < FSSIZE) :
    ∃ y n, st.addrFor (D i) NDIRECT = (y, { st with freeblock := n }) ∧
      Made (update D i y) (some i) { st with freeblock := n } ∧
      WithIndirect st.img (D i) y ∧
      n = st.freeblock + if (D i).addrs NDIRECT = 0 then 1 else 0 := by
  have hlow := h.low
  have hd : 0 < mkfsSb.data := by decide
  unfold addrFor
  split
  · next h0 =>
    refine ⟨_, _, rfl, h.take_addr hi ht le_rfl h0 hsmall, ?_, rfl⟩
    refine withIndirect_set h0 (by omega) ?_
    rw [h.fresh _ le_rfl]
    exact noEntries_zero
  · next h0 =>
    refine ⟨D i, st.freeblock, rfl, ?_, withIndirect_refl h0, rfl⟩
    rw [update_eq_self]
    exact h

theorem blockFor_direct (hi : i < mkfsSb.ninodes) (ht : (D i).type ≠ 0)
    {bn : Nat} (hbn : bn < NDIRECT) (hsmall : st.freeblock < FSSIZE) :
    ∃ x y st', st.blockFor (D i) bn = some (x, y, st') ∧ Found D i bn st x y st' := by
  have hlow := h.low
  have hd : 0 < mkfsSb.data := by decide
  have hcase : ¬ ((D i).addrs NDIRECT = 0 ∧ NDIRECT ≤ bn) := by omega
  have ha : addrAt st.img (D i) (place bn) = (D i).addrs bn := by
    rw [place_direct hbn, addrAt_direct (le_of_lt hbn)]
  unfold blockFor addrFor
  rw [if_pos hbn]
  split
  · next h0 =>
    refine ⟨_, _, _, rfl, h.take_addr hi ht (le_of_lt hbn) h0 hsmall, ?_,
      ⟨fun _ _ _ _ _ => rfl, fun _ _ _ _ _ => rfl, rfl⟩, fun _ _ _ _ => rfl, ?_⟩
    · rw [Dinode.setAddr_self]
      exact mapped_setAddr hbn h0 (by omega)
    · rw [ha, if_pos h0, if_neg hcase]
  · next h0 =>
    refine ⟨_, _, _, rfl, by rw [update_eq_self]; exact h, mapped_direct hbn h0,
      Spares.refl D i st, fun _ _ _ _ => rfl, ?_⟩
    rw [ha, if_neg h0, if_neg hcase]
    rfl

theorem blockFor_indirect (hi : i < mkfsSb.ninodes)
    (ht : (D i).type ≠ 0) {bn : Nat} (hbn : ¬ bn < NDIRECT) (hmax : bn < MAXFILE)
    (hroom : st.freeblock + 2 ≤ FSSIZE) :
    ∃ x y st', st.blockFor (D i) bn = some (x, y, st') ∧ Found D i bn st x y st' := by
  have hs : FSSIZE = 4096 := rfl
  obtain ⟨y, n, hfor, hM, hw, hn⟩ := addrFor_indirect h hi ht (by omega)
  have hnle : n ≤ st.freeblock + 1 := by rw [hn]; split <;> omega
  have hDi : update D i y i = y := update_self ..
  have hty : y.type = (D i).type := by rw [hw.fields]
  have hty' : (update D i y i).type ≠ 0 := by rw [hDi, hty]; exact ht
  have hind : (update D i y i).addrs NDIRECT ≠ 0 := by rw [hDi]; exact hw.ne
  have hrange : mkfsSb.data ≤ y.addrs NDIRECT ∧ y.addrs NDIRECT < n := by
    have hr := hM.refers_range (refers_indirect hi hty' hind)
    rw [hDi] at hr
    exact hr
  obtain ⟨hplt, hpne⟩ := place_lt hmax
  have hpl := place_indirect hbn
  -- the entry that the code reads is the place of block `bn`
  have hentry : le32 (st.img (y.addrs NDIRECT)) (4 * (bn - NDIRECT)) = addrAt st.img y (place bn) := by
    rw [hpl, addrAt_indirect (by omega) hw.ne, Nat.add_sub_cancel_left]
  have hold : addrAt st.img (D i) (place bn) = addrAt st.img y (place bn) :=
    (hw.kept _ hplt hpne).symm
  have hcount : ((D i).addrs NDIRECT = 0 ∧ NDIRECT ≤ bn) ↔ (D i).addrs NDIRECT = 0 :=
    and_iff_left (not_lt.mp hbn)
  have hread : ({ st with freeblock := n } : Mkfs).rsect (y.addrs NDIRECT) =
      some (st.img (y.addrs NDIRECT)) := if_pos (show y.addrs NDIRECT < FSSIZE by omega)
  simp only [blockFor, if_neg hbn, hfor, hread, bind_eq_bind, bind_some, hentry]
  split
  · next h0 =>
    have h0' : addrAt st.img (update D i y i) (NDIRECT + 1 + (bn - NDIRECT)) = 0 := by
      rw [hDi, ← hpl]
      exact h0
    have hm := hM.take_entry hi hty' hind
      (show bn - NDIRECT < NINDIRECT by unfold MAXFILE at hmax; omega) h0' (show n < FSSIZE by omega)
    rw [hDi] at hm
    -- the indirect block is referred to from no other place
    have hnot : ∀ j p c, (j, p) ≠ (i, NDIRECT) → Refers mkfsSb D st.img (j, p) c → c ≠ y.addrs NDIRECT := by
      rintro j p c hne hr rfl
      have hr' : Refers mkfsSb (update D i y) st.img (i, NDIRECT) _ :=
        refers_indirect hi hty' hind
      rw [hDi] at hr'
      exact hne (hM.owned.inj (hw.refers hne hr) hr')
    refine ⟨_, _, _, rfl, hm, hw.mapped_setEntry hbn hmax h0 (by omega) (by omega),
      ⟨fun j hj hlt htj p => ?_, fun j p c hj hr => ?_, rfl⟩, fun p c hp hr => ?_, ?_⟩
    · refine addrAt_congr fun hx => wsect_ne _ _ ?_
      exact hnot j NDIRECT _ (fun he => hj (Prod.mk.inj he).1) (refers_indirect hlt htj hx)
    · exact wsect_ne _ _ (hnot j p c (fun he => hj (Prod.mk.inj he).1) hr)
    · exact wsect_ne _ _ (hnot i p c (fun he => hp (Prod.mk.inj he).2) hr)
    · rw [hold, if_pos h0, if_congr hcount rfl rfl]
      show n + 1 = _
      omega
  · next h0 =>
    refine ⟨_, _, _, rfl, hM, hw.mapped hbn hmax h0,
      ⟨fun _ _ _ _ _ => rfl, fun _ _ _ _ _ => rfl, rfl⟩, fun _ _ _ _ => rfl, ?_⟩
    rw [hold, if_neg h0, if_congr hcount rfl rfl]
    exact hn

theorem blockFor_found (hi : i < mkfsSb.ninodes) (ht : (D i).type ≠ 0)
    {bn : Nat} (hmax : bn < MAXFILE) (hroom : st.freeblock + 2 ≤ FSSIZE) :
    ∃ x y st', st.blockFor (D i) bn = some (x, y, st') ∧ Found D i bn st x y st' := by
  by_cases hbn : bn < NDIRECT
  · exact blockFor_direct h hi ht hbn (by omega)
  · exact blockFor_indirect h hi ht hbn hmax hroom

end

/-- `n` bytes of `src` have been appended to the `off` bytes of inode `i`, which is now `y`. -/
structure Appended (D : Nat → Dinode) (i : Nat) (st st' : Mkfs) (y : Dinode) (off n : Nat)
    (src : Bytes) : Prop where
  made : Made (update D i y) (some i) st'
  fields : y = { D i with addrs := y.addrs }
  full : Full st'.img y (off + n)
  old : ∀ o, o < off → content st'.img y o = content st.img (D i) o
  new : ∀ o, o < n → content st'.img y (off + o) = src o
  spares : Spares D i st st'
  count : st'.freeblock + nblocks off = st.freeblock + nblocks (off + n)

section Round

variable {x off n : Nat} {y : Dinode} {d : Block}

/-- The inode refers to the block that was found. -/
theorem Found.refers {bn : Nat} (h : Found D i bn st x y st') (hi : i < mkfsSb.ninodes)
    (ht : (D i).type ≠ 0) (hmax : bn < MAXFILE) :
    Refers mkfsSb (update D i y) st'.img (i, place bn) x := by
  refine ⟨hi, ?_, (place_lt hmax).1, ?_, h.mapped.ne⟩
  · rw [update_self, h.mapped.fields]
    exact ht
  · rw [update_self]
    exact h.mapped.addr

/-- The blocks a round takes are those the longer file needs more. -/
theorem Found.nblocks (h : Found D i (off / BSIZE) st x y st') (hF : Full st.img (D i) off)
    (hn : 0 < n) (hfit : off % BSIZE + n ≤ BSIZE) (hmax : off / BSIZE < MAXFILE) :
    st'.freeblock + nblocks off = st.freeblock + nblocks (off + n) := by
  have hblock := hF.blocks _ hmax
  have hind := hF.indirect
  have hcount := h.count
  unfold Mkfs.nblocks
  unfold NDIRECT BSIZE at *
  by_cases h0 : addrAt st.img (D i) (place (off / 1024)) = 0
  · grind
  · by_cases h1 : (D i).addrs 12 = 0
    · grind
    · grind

/-- Writing into the block that was found. -/
theorem Found.append (h : Found D i (off / BSIZE) st x y st') (hi : i < mkfsSb.ninodes)
    (ht : (D i).type ≠ 0) (hF : Full st.img (D i) off) (hn : 0 < n)
    (hfit : off % BSIZE + n ≤ BSIZE) (hmax : off / BSIZE < MAXFILE) (src : Bytes) :
    Appended D i st (st'.wsect x (blit (st'.img x) (off % BSIZE) n src)) y off n src := by
  have hDi : update D i y i = y := update_self ..
  have hty : y.type ≠ 0 := by rw [h.mapped.fields]; exact ht
  obtain ⟨hplt, hpne⟩ := place_lt hmax
  -- the block is referred to from its place and from nowhere else
  have hrx := h.refers hi ht hmax
  have honly : ∀ j p c, Refers mkfsSb (update D i y) st'.img (j, p) c →
      (j, p) ≠ (i, place (off / BSIZE)) → c ≠ x := by
    rintro j p c hr hne rfl
    exact hne (h.made.owned.inj hr hrx)
  obtain ⟨hlo, hhi⟩ := h.made.refers_range hrx
  have hother : ∀ {j p c}, j ≠ i → Refers mkfsSb D st'.img (j, p) c → c ≠ x := by grind [Refers]
  have haddr : ∀ p, addrAt (st'.wsect x (blit (st'.img x) (off % BSIZE) n src)).img y p =
      addrAt st'.img y p := fun p => addrAt_congr fun hx => wsect_ne _ _ <| by
    refine honly i NDIRECT _ ?_ fun he => hpne (Prod.mk.inj he).2.symm
    have hr : Refers mkfsSb (update D i y) st'.img (i, NDIRECT) _ :=
      refers_indirect hi (by rw [hDi]; exact hty) (by rw [hDi]; exact hx)
    rwa [hDi] at hr
  have hb : BSIZE = 1024 := rfl
  have hfit' : off % 1024 + n ≤ 1024 := hfit
  have hmax' : off / 1024 < MAXFILE := hmax
  refine ⟨h.made.change fun c hc => wsect_ne _ _ ?_, h.mapped.fields, ⟨fun bn hbn => ?_, ?_⟩,
    fun o ho => ?_, fun o ho => ?_, h.spares.trans ⟨fun j hj hlt htj p => ?_, fun j p c hj hr => ?_,
    rfl⟩, h.nblocks hF hn hfit hmax⟩
  · grind
  · rw [haddr]
    by_cases hbn' : bn = off / BSIZE
    · subst hbn'
      rw [h.mapped.addr]
      refine iff_of_true h.mapped.ne ?_
      rw [hb]
      omega
    · obtain ⟨hp, hp'⟩ := place_lt hbn
      rw [h.mapped.kept _ hp (fun he => hbn' (place_inj he)) hp', hF.blocks bn hbn]
      rw [hb] at hbn' ⊢
      omega
  · rw [h.mapped.indirect_iff, hF.indirect]
    rw [hb]
    omega
  · -- a byte written before
    have hbo : o / BSIZE < MAXFILE := by rw [hb]; omega
    obtain ⟨hp, hp'⟩ := place_lt hbo
    have hne : addrAt st.img (D i) (place (o / BSIZE)) ≠ 0 :=
      (hF.blocks _ hbo).mpr (by rw [hb]; omega)
    have hro : Refers mkfsSb D st.img (i, place (o / BSIZE)) _ := ⟨hi, ht, hp, rfl, hne⟩
    rw [content, content, haddr]
    by_cases hsame : o / BSIZE = off / BSIZE
    · rw [hsame] at hne hro hp' ⊢
      rw [h.mapped.addr, wsect_self, blit_out (by rw [hb] at hsame ⊢; omega), ← h.mapped.old hne]
      rw [← h.mapped.old hne] at hro
      exact congrFun (h.own _ _ hp' hro) _
    · have hkept := h.mapped.kept _ hp (fun he => hsame (place_inj he)) hp'
      rw [hkept, wsect_ne _ _ ?_, h.own _ _ hp' hro]
      refine honly i (place (o / BSIZE)) _ ⟨hi, ?_, hp, ?_, hne⟩ fun he =>
        hsame (place_inj (Prod.mk.inj he).2)
      · rw [hDi]; exact hty
      · rw [hDi]; exact hkept
  · have hdiv : (off + o) / BSIZE = off / BSIZE := by rw [hb]; omega
    have hmod : (off + o) % BSIZE = off % BSIZE + o := by rw [hb]; omega
    rw [content, haddr, hdiv, h.mapped.addr, wsect_self, hmod, blit_in (by omega) (by omega),
      Nat.add_sub_cancel_left]
  · exact addrAt_congr fun hx => wsect_ne _ _ (hother hj (refers_indirect hlt htj hx))
  · exact wsect_ne _ _ (hother hj hr)

end Round

theorem appendRound_spec (h : Made D (some i) st) (hi : i < mkfsSb.ninodes) (ht : (D i).type ≠ 0)
    {off n : Nat} (hF : Full st.img (D i) off) (hn : 0 < n) (hfit : off % BSIZE + n ≤ BSIZE)
    (hmax : off / BSIZE < MAXFILE) (hroom : st.freeblock + 2 ≤ FSSIZE) (p : Bytes) (pos : Nat) :
    ∃ y st', st.appendRound p pos n off (D i) = some (y, st') ∧
      Appended D i st st' y off n fun o => p (pos + o) := by
  obtain ⟨x, y, st', hfor, hfound⟩ := blockFor_found h hi ht hmax hroom
  have hlt : x < FSSIZE := by
    have hrange := (hfound.made.refers_range (hfound.refers hi ht hmax)).2
    have hcount := hfound.count
    split at hcount <;> split at hcount <;> omega
  refine ⟨y, _, ?_, hfound.append hi ht hF hn hfit hmax fun o => p (pos + o)⟩
  have hoff : off - off / BSIZE * BSIZE = off % BSIZE := by
    rw [show BSIZE = 1024 from rfl]
    omega
  simp only [appendRound, hfor, hoff, bind_eq_bind, bind_some, rsect, if_pos hlt]
  rfl

/-! ## `iappend` as a whole -/

theorem nblocks_mono {a c : Nat} (h : a ≤ c) : nblocks a ≤ nblocks c := by
  unfold nblocks NDIRECT BSIZE
  split <;> split <;> omega

namespace Appended

theorem refl (h : Made D (some i) st) {off : Nat} (hF : Full st.img (D i) off) (src : Bytes) :
    Appended D i st st (D i) off 0 src := by
  refine ⟨?_, rfl, hF, fun _ _ => rfl, fun o ho => absurd ho (Nat.not_lt_zero o), Spares.refl D i st, rfl⟩
  rw [update_eq_self]
  exact h

theorem trans {st'' : Mkfs} {y z : Dinode} {off n m : Nat} {src src' : Bytes}
    (h : Appended D i st st' y off n src)
    (h' : Appended (update D i y) i st' st'' z (off + n) m src')
    (hsrc : ∀ o, src' o = src (n + o)) : Appended D i st st'' z off (n + m) src := by
  obtain ⟨hM, hfields, hF, hold, hnew, hsp, hcount⟩ := h
  obtain ⟨hM', hfields', hF', hold', hnew', hsp', hcount'⟩ := h'
  rw [update_idem] at hM'
  rw [update_self] at hfields' hold'
  refine ⟨hM', ?_, add_assoc off n m ▸ hF', fun o ho => ?_, fun o ho => ?_,
    hsp.trans (hsp'.table fun j hj => (update_of_ne hj ..).symm), ?_⟩
  · rw [hfields', hfields]
  · rw [hold' o (Nat.lt_add_right n ho), hold o ho]
  · by_cases hon : o < n
    · rw [hold' _ (Nat.add_lt_add_left hon off), hnew o hon]
    · have hm := hnew' (o - n) (by omega)
      rw [hsrc, Nat.add_sub_of_le (not_lt.mp hon)] at hm
      rw [← hm]
      congr 1
      omega
  · rw [add_assoc] at hcount'
    omega

end Appended

/-- The loop: induction on the fuel, of which every round needs one and takes at least one byte. -/
theorem iappendFrom_spec (p : Bytes) (pos : Nat) (hi : i < mkfsSb.ninodes) {fuel n off : Nat}
    (hfuel : n ≤ fuel) (h : Made D (some i) st) (ht : (D i).type ≠ 0) (hF : Full st.img (D i) off)
    (hmax : off + n ≤ MAXFILE * BSIZE)
    (hroom : st.freeblock + nblocks (off + n) + 2 ≤ nblocks off + FSSIZE) :
    ∃ y st', iappendFrom p fuel pos n off (D i) st = some (off + n, y, st') ∧
      Appended D i st st' y off n fun o => p (pos + o) := by
  induction fuel generalizing D st pos n off with
  | zero =>
    obtain rfl : n = 0 := Nat.le_zero.mp hfuel
    exact ⟨D i, st, rfl, Appended.refl h hF _⟩
  | succ fuel ih =>
    by_cases hn : n = 0
    · subst hn
      exact ⟨D i, st, by rw [iappendFrom, if_pos rfl]; rfl, Appended.refl h hF _⟩
    have hb : BSIZE = 1024 := rfl
    have hbn : off / BSIZE < MAXFILE := by
      rw [hb] at hmax ⊢
      omega
    obtain ⟨n1, hn1⟩ : ∃ n1, n1 = min n ((off / BSIZE + 1) * BSIZE - off) := ⟨_, rfl⟩
    have hn1' : 0 < n1 ∧ n1 ≤ n ∧ off % BSIZE + n1 ≤ BSIZE := by
      rw [hb] at hn1 ⊢
      omega
    obtain ⟨hpos, hle, hfit⟩ := hn1'
    have hmono := nblocks_mono (Nat.le_add_right off n)
    obtain ⟨y, st1, hround, hA⟩ := appendRound_spec h hi ht hF hpos hfit hbn (by omega) p pos
    have hDi : update D i y i = y := update_self ..
    have hsum : off + n1 + (n - n1) = off + n := by omega
    obtain ⟨z, st2, hrest, hA'⟩ := @ih (update D i y) st1 (pos + n1) (n - n1) (off + n1) (by omega) hA.made
      (by rw [hDi, hA.fields]; exact ht) (by rw [hDi]; exact hA.full) (by omega)
      (by have := hA.count; rw [hsum]; omega)
    rw [hDi, hsum] at hrest
    refine ⟨z, st2, ?_, ?_⟩
    · grind [iappendFrom]
    · have := hA.trans hA' fun o => congrArg p (add_assoc pos n1 o)
      rwa [Nat.add_sub_of_le hle] at this

/-- An inode of the image stores a file: `type`, and the bytes `data`. -/
structure Stores (D : Nat → Dinode) (st : Mkfs) (i type : Nat) (data : List UInt8) : Prop where
  inode : D i = { newInode type with size := data.length, addrs := (D i).addrs }
  full : Full st.img (D i) data.length
  bytes : ∀ o, o < data.length → content st.img (D i) o = ofList data o

/-- A step that works on inode `i`: the books are in order, and the other inodes are as before. -/
structure Works (D : Nat → Dinode) (i : Nat) (st : Mkfs) (D' : Nat → Dinode) (st' : Mkfs) :
    Prop where
  made : Made D' none st'
  others : ∀ j, j ≠ i → D' j = D j
  spares : Spares D i st st'

/-- The files of the other inodes are still there. -/
theorem Stores.kept {D' : Nat → Dinode} {j type : Nat} {data : List UInt8}
    (h : Stores D st j type data) (hw : Works D i st D' st') (hj : j ≠ i) (hlt : j < mkfsSb.ninodes)
    (ht : type ≠ 0) (hsize : data.length ≤ MAXFILE * BSIZE) : Stores D' st' j type data := by
  have hty : (D j).type ≠ 0 := by rw [h.inode]; exact ht
  have haddr := hw.spares.addr j hj hlt hty
  obtain ⟨hinode, hF, hbytes⟩ := h
  rw [← hw.others j hj] at hinode
  refine ⟨hinode, ⟨fun bn hbn => ?_, ?_⟩, fun o ho => ?_⟩
  · rw [hw.others j hj, haddr]
    exact hF.blocks bn hbn
  · rw [hw.others j hj]
    exact hF.indirect
  · rw [← hbytes o ho, hw.others j hj]
    refine content_congr (haddr _) (hw.spares.data j (place (o / BSIZE)) _ hj ?_)
    have hb : BSIZE = 1024 := rfl
    have hbn : o / BSIZE < MAXFILE := by rw [hb] at hsize ⊢; omega
    refine ⟨hlt, hty, (place_lt hbn).1, rfl, (hF.blocks _ hbn).mpr ?_⟩
    rw [hb]
    omega

/-- Writing an inode back, when what is referred to does not change. -/
theorem Made.winode (h : Made D (some i) st) (hi : i < mkfsSb.ninodes) {x : Dinode} (hx : x.Ok)
    (href : ∀ ip c, Refers mkfsSb (update D i x) st.img ip c ↔ Refers mkfsSb D st.img ip c) :
    ∃ st', st.winode i x = some st' ∧ Works D i st (update D i x) st' ∧
      (∀ c, mkfsSb.data ≤ c → st'.img c = st.img c) ∧ st'.freeblock = st.freeblock := by
  obtain ⟨hlo, hhi⟩ := mkfsSb_wf.iblock hi
  have hmeta := mkfsSb_wf.inode_lt
  have hlow := h.low
  have hdata : ∀ c, mkfsSb.data ≤ c → (st.wsect (mkfsSb.iblock i)
      (Dinode.put (st.img (mkfsSb.iblock i)) (i % IPB) x)).img c = st.img c := fun c hc =>
    wsect_ne _ _ (by omega)
  have hlt : mkfsSb.iblock i < FSSIZE := lt_trans hhi (by decide)
  refine ⟨_, by rw [Mkfs.winode, rsect, if_pos hlt]; rfl, ⟨⟨fun j hj _ => ?_, fun j hj => ?_, ?_,
    fun c hc => ?_, fun c hc => ?_⟩, fun j hj => update_of_ne hj .., ⟨fun j hj hjl ht p => ?_,
    fun j p c hj hr => hdata c (h.refers_range hr).1, rfl⟩⟩, hdata, rfl⟩
  · -- the table: the slot that was written, another slot of its block, another block
    by_cases hji : j = i
    · subst hji
      rw [wsect_self, Dinode.get_put _ _ hx, update_self]
    · grind [Made, wsect_self, Dinode.get_put_ne, Superblock.iblock_inj, wsect_ne]
  · grind [Made]
  · refine h.owned.congr (fun _ => Iff.rfl) (fun ip c => ?_) fun _ => Iff.rfl
    rw [refers_congr fun j c hr => hdata c ?_, href]
    exact (h.refers_range ((href _ _).mp hr)).1
  · rw [hdata c (le_trans hlow hc)]
    exact h.fresh c hc
  · rw [wsect_ne _ _ (by omega)]
    exact h.first c hc
  · exact addrAt_congr fun hx => hdata _ (h.refers_range (refers_indirect hjl ht hx)).1

theorem Made.rinode (h : Made D none st) (hi : i < mkfsSb.ninodes) : st.rinode i = some (D i) := by
  have hrange := mkfsSb_wf.iblock hi
  have hlt : mkfsSb.iblock i < FSSIZE := lt_trans hrange.2 (by decide)
  simp only [Mkfs.rinode, rsect, if_pos hlt, bind_eq_bind, bind_some, h.table i hi (some_ne_none i).symm]
  rfl

/-- A call of `iappend` appends its bytes to the file of inode `i`. -/
theorem iappend_spec (h : Made D none st) (hi : i < mkfsSb.ninodes) {type : Nat} (ht : type ≠ 0)
    {old : List UInt8} (hS : Stores D st i type old) (data : List UInt8)
    (hmax : (old ++ data).length ≤ MAXFILE * BSIZE)
    (hroom : st.freeblock + nblocks (old ++ data).length + 2 ≤ nblocks old.length + FSSIZE) :
    ∃ D' st', st.iappend i data = some st' ∧ Works D i st D' st' ∧ Stores D' st' i type (old ++ data) ∧
      st'.freeblock + nblocks old.length = st.freeblock + nblocks (old ++ data).length := by
  rw [List.length_append] at hmax hroom ⊢
  have hty : (D i).type ≠ 0 := by rw [hS.inode]; exact ht
  have hsize : (D i).size = old.length := by rw [hS.inode]
  obtain ⟨y, st1, hloop, hA⟩ := iappendFrom_spec (ofList data) 0 hi le_rfl
    (h.activate i) hty hS.full hmax hroom
  have hDi : update D i y i = y := update_self ..
  have hyok : y.Ok := by have := hA.made.ok i hi; rwa [hDi] at this
  have hb : MAXFILE * BSIZE = 274432 := rfl
  have hok : ({ y with size := old.length + data.length } : Dinode).Ok :=
    { hyok with size := show old.length + data.length < 4294967296 by omega }
  obtain ⟨st2, hwi, hW, hsame, hfree⟩ := hA.made.winode hi hok fun ip c => by
    refine refers_fields (fun j => ?_) ip c
    by_cases hj : j = i
    · subst hj
      rw [update_self, hDi]
      exact ⟨rfl, Iff.rfl⟩
    · rw [update_of_ne hj]
      exact ⟨rfl, Iff.rfl⟩
  rw [update_idem] at hW
  -- what the inode refers to is in the data area, where the last write changed nothing
  have hyt : (update D i y i).type ≠ 0 := by rw [hDi, hA.fields]; exact hty
  have haddr : ∀ p, addrAt st2.img { y with size := old.length + data.length } p =
      addrAt st1.img y p := fun p => by
    rw [addrAt_addrs (x := y) rfl]
    refine addrAt_congr fun hx => hsame _ ?_
    have hr := hA.made.refers_range (refers_indirect hi hyt (by rw [hDi]; exact hx))
    rw [hDi] at hr
    exact hr.1
  have hcontent : ∀ o, o < old.length + data.length →
      content st2.img { y with size := old.length + data.length } o = content st1.img y o := by
    intro o ho
    have hbn : o / BSIZE < MAXFILE := by unfold BSIZE at hmax ⊢; omega
    refine content_congr (haddr _) (hsame _ ?_)
    have hr : Refers mkfsSb (update D i y) st1.img (i, place (o / BSIZE)) _ :=
      ⟨hi, hyt, (place_lt hbn).1, by rw [hDi], (hA.full.blocks _ hbn).mpr (by unfold BSIZE; omega)⟩
    exact (hA.made.refers_range hr).1
  refine ⟨_, st2, ?_, ⟨hW.made, fun j hj => update_of_ne hj .., hA.spares.trans
    (hW.spares.table fun j hj => (update_of_ne hj ..).symm)⟩, ⟨?_, ⟨fun bn hbn => ?_, ?_⟩,
    fun o ho => ?_⟩, ?_⟩
  · simp only [iappend, h.rinode hi, hsize, hloop, hwi, bind_eq_bind, bind_some]
  · rw [update_self, hA.fields, hS.inode, List.length_append]
  · rw [update_self, haddr, List.length_append]
    exact hA.full.blocks bn hbn
  · rw [update_self, List.length_append]
    exact hA.full.indirect
  · grind [Stores, Appended, ofList_append]
  · rw [hfree]
    exact hA.count

end Mkfs

end Xv6
