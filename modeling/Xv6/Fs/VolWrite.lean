/-
  WRITING FILES: `writei`.

  `writei` works on the inode in memory until its last step, so its loop has an invariant of its own.
  `Writing tot` says that the file has `tot` bytes of the source more, and that nobody else's blocks
  have changed; `bmapped` and `own` are the two things a round does to it: a block may be added to the
  file, and a block of the file is stored.

  A copy from user memory may stop in the middle of a block.  What it left behind is in the buffer and
  not in the log, and the file is torn from then on.
-/
import Xv6.Fs.VolIo

namespace Xv6

open Function Prog Bytes Owner Store

/-- `tot` bytes have been written, and the inode in slot `k` is now `x`; `T` says that the file is
    torn. -/
structure Writing (sb : Superblock) (v : Vol) (t0 : Store) (k : Nat) (src : Src) (off tot : Nat)
    (T : Prop) (x : Dinode) (t : Store) : Prop where
  works : Works sb (update v.ino (v.inum k) x) (v.inum k) k t
  mem : t.mem = v.mem.setDin k x
  held : t.held = []
  out : t.out = v.out
  fields : x = { v.ino (v.inum k) with addrs := x.addrs }
  le : max (v.ino (v.inum k)).size (off + tot) ≤ MAXFILE * BSIZE
  kept : ∀ p, p < NPLACE → v.addr (v.inum k) p ≠ 0 → addrAt t.blk x p = v.addr (v.inum k) p
  full : ∀ bn, bn * BSIZE < max (v.ino (v.inum k)).size (off + tot) → addrAt t.blk x (place bn) ≠ 0
  bytes : ¬ T → ∀ o, o < max (v.ino (v.inum k)).size (off + tot) →
    content t.blk x o = v.spliced k src off tot o
  others : ∀ j p c, j ≠ v.inum k → Refers sb v.ino t0.blk (j, p) c →
    t.blk c = t0.blk c ∧ (t.taint c → t0.taint c)
  torn : ∀ p b, Refers sb (update v.ino (v.inum k) x) t.blk (v.inum k, p) b → t.taint b → T
  used : ∀ c, Used sb t0.blk c → Used sb t.blk c

/-- The blocks still to be written. -/
def rem (off n : Nat) : Nat := if n = 0 then 0 else span off n

/-- A round does one of them. -/
theorem rem_round {off n : Nat} (hn : 0 < n) :
    rem off n = rem (off + min n (BSIZE - off % BSIZE)) (n - min n (BSIZE - off % BSIZE)) + 1 := by
  unfold rem span
  unfold BSIZE
  rw [if_neg (by omega)]
  split <;> omega

namespace Writing

variable {sb : Superblock} {v : Vol} {t0 t t' : Store} {k off tot bn a : Nat} {src : Src} {T : Prop}
  {x x' : Dinode}

/-- Before the first round. -/
theorem start (hR : Rep sb t v) (hk : v.Held k) (hoff : off ≤ (v.ino (v.inum k)).size) :
    Writing sb v t k src off 0 (v.torn (v.inum k)) (v.ino (v.inum k)) t := by
  obtain ⟨hdin, htype, hi⟩ := hk.ino hR.ok
  have hmax : max (v.ino (v.inum k)).size (off + 0) = (v.ino (v.inum k)).size := by omega
  refine ⟨?_, ?_, hR.held, hR.out, rfl, ?_, fun p hp _ => hR.addr _ p hi htype hp, fun bn hbn => ?_,
    fun hT o ho => ?_, fun _ _ _ _ _ => ⟨rfl, id⟩, fun p b hr hT => ?_, fun _ => id⟩
  · rw [update_eq_self]
    refine ⟨hR.fs.activate _, hk.lt, ?_, ?_, ?_, htype⟩
    · rw [hR.mem]; rfl
    · rw [hR.mem]; exact hk.ref
    · rw [hR.mem]; exact hdin
  · rw [hR.mem, ← hdin]
    exact (Mem.setDin_self ..).symm
  · rw [hmax]
    exact hR.ok.size _ hi htype
  · rw [hmax] at hbn
    have hlt : bn < MAXFILE := by
      have h1 := hR.ok.size _ hi htype
      unfold BSIZE at hbn h1
      omega
    rw [hR.addr _ _ hi htype (place_lt hlt).1]
    exact hR.ok.full _ hi htype bn hbn
  · rw [hmax] at ho
    rw [hR.byte _ o hi htype ho hT, Vol.spliced, if_neg (by omega)]
  · rw [update_eq_self] at hr
    exact hR.torn _ p b hr hT

section

variable (h : Writing sb v t0 k src off tot T x t)
include h

/-- The other files are where they were. -/
theorem refers_other {j p c : Nat} (hj : j ≠ v.inum k) (hr : Refers sb v.ino t0.blk (j, p) c) :
    Refers sb (update v.ino (v.inum k) x) t.blk (j, p) c := by
  obtain ⟨h1, h2, h3, h4, h5⟩ := hr
  have haddr : addrAt t.blk (v.ino j) p = addrAt t0.blk (v.ino j) p :=
    addrAt_congr fun hx => (h.others j NDIRECT _ hj (refers_indirect h1 h2 hx)).1
  refine ⟨h1, ?_, h3, ?_, h5⟩
  · rw [update_of_ne hj]
    exact h2
  · rw [update_of_ne hj, haddr]
    exact h4

/-- A block of the file. -/
theorem refers_own {p : Nat} (hp : p < NPLACE) (h0 : addrAt t.blk x p ≠ 0) :
    Refers sb (update v.ino (v.inum k) x) t.blk (v.inum k, p) (addrAt t.blk x p) := by
  refine ⟨h.works.inum_lt, h.works.type, hp, ?_, h0⟩
  rw [update_self]

theorem bn_lt (hbn : bn * BSIZE < max (v.ino (v.inum k)).size (off + tot)) : bn < MAXFILE := by
  have h1 := h.le
  unfold BSIZE at hbn h1
  omega

/-- `bmap` adds a block to the file, if it has to. -/
theorem bmapped (hb : Bmapped sb (update v.ino (v.inum k) x) (v.inum k) k bn t a x' t') :
    Writing sb v t0 k src off tot T x' t' := by
  have hworks := hb.works
  have hmapped := hb.mapped
  have hdata := hb.data
  have hfresh := hb.fresh
  rw [update_idem] at hworks
  rw [update_self] at hmapped hdata hfresh
  -- an address that was there is there
  have haddr : ∀ p, p < NPLACE → addrAt t.blk x p ≠ 0 → addrAt t'.blk x' p = addrAt t.blk x p :=
    fun p hp h0 => by grind [Mapped, addrAt_direct]
  -- and a block other than the indirect block is what it was
  have hkeep : ∀ ip c, Refers sb (update v.ino (v.inum k) x) t.blk ip c →
      ip ≠ (v.inum k, NDIRECT) → t'.blk c = t.blk c := fun ip c hr hne => by
    obtain ⟨h1, h2⟩ := h.works.fs.refers_data hr
    refine hdata c h1 h2 fun he => hne ?_
    have hx : x.addrs NDIRECT ≠ 0 := he ▸ hr.ne
    refine h.works.fs.owned.inj hr ?_
    rw [he, ← show addrAt t.blk x NDIRECT = x.addrs NDIRECT from addrAt_direct (Nat.le_refl NDIRECT)]
    exact h.refers_own (by decide) (by rw [addrAt_direct le_rfl]; exact hx)
  refine ⟨hworks, ?_, hb.held.trans h.held, hb.out.trans h.out, ?_, h.le, fun p hp h0 => ?_,
    fun bn' hbn => ?_, fun hT o ho => ?_, fun j p c hj hr => ?_, fun p b hr hT => ?_,
    fun c hc => hb.used c (h.used c hc)⟩
  · rw [hb.mem, h.mem, Mem.setDin_setDin]
  · rw [hmapped.fields, h.fields]
  · have h1 := h.kept p hp h0
    rw [haddr p hp (by rw [h1]; exact h0), h1]
  · have h0 := h.full bn' hbn
    rw [haddr _ (place_lt (h.bn_lt hbn)).1 h0]
    exact h0
  · have hlt : o / BSIZE * BSIZE < max (v.ino (v.inum k)).size (off + tot) :=
      lt_of_le_of_lt (Nat.div_mul_le_self ..) ho
    obtain ⟨h1, h2⟩ := place_lt (h.bn_lt hlt)
    have h0 := h.full _ hlt
    rw [← h.bytes hT o ho]
    refine content_congr (haddr _ h1 h0) (hkeep _ _ (h.refers_own h1 h0) fun he => ?_)
    exact h2 (Prod.mk.inj he).2
  · obtain ⟨h1, h2⟩ := h.others j p c hj hr
    refine ⟨?_, fun hT => h2 (hb.taint c hT)⟩
    rw [hkeep _ _ (h.refers_other hj hr) fun he => hj (Prod.mk.inj he).1, h1]
  · have hp := hr.place
    have hra := hr.addr
    rw [update_self] at hra
    by_cases h0 : addrAt t.blk x p = 0
    · -- a new block is clean
      by_cases hpb : p = place bn
      · rw [hpb] at h0 hra
        rw [hmapped.addr] at hra
        exact absurd (hra ▸ hT) (hfresh h0).2
      · by_cases hpn : p = NDIRECT
        · exact absurd hT (hworks.fs.indirect_clean (hpn ▸ hr))
        · rw [hmapped.kept p hp hpb hpn, h0] at hra
          exact absurd hra.symm hr.ne
    · rw [haddr p hp h0] at hra
      rw [← hra] at hT
      exact h.torn p _ (h.refers_own hp h0) (hb.taint _ hT)

theorem mono {T' : Prop} (hT : T → T') : Writing sb v t0 k src off tot T' x t :=
  { h with bytes := fun hn => h.bytes fun hc => hn (hT hc), torn := fun p b hr hb => hT (h.torn p b hr hb) }

/-- A block of the file's contents holds no addresses. -/
theorem addrAt_update (hmax : bn < MAXFILE)
    (ha : addrAt t.blk x (place bn) = a) (h0 : a ≠ 0) (d : Block) (p : Nat) :
    addrAt (update t.blk a d) x p = addrAt t.blk x p := by
  obtain ⟨hplt, hpne⟩ := place_lt hmax
  refine addrAt_congr fun hx => update_of_ne (fun he => hpne ?_) ..
  have h1 := h.refers_own hplt (ha ▸ h0)
  have h2 := h.refers_own (p := NDIRECT) (by decide) (by rw [addrAt_direct le_rfl]; exact hx)
  rw [addrAt_direct le_rfl, he, ← ha] at h2
  exact (Prod.mk.inj (h.works.fs.owned.inj h1 h2)).2

/-- A block of the file is stored. -/
theorem own (hsb : sb.Wf) {d : Block} {tot' : Nat}
    {T' : Prop} (hmax : bn < MAXFILE) (ha : addrAt t.blk x (place bn) = a) (h0 : a ≠ 0)
    (hblk : t'.blk = update t.blk a d)
    (htaint : ∀ c, t'.taint c → t.taint c ∨ c = a ∧ T' ∧ x.type ≠ T_DIR) (hT : T → T')
    (hmem : t'.mem = t.mem) (hheld : t'.held = []) (hout : t'.out = t.out)
    (hle : max (v.ino (v.inum k)).size (off + tot') ≤ MAXFILE * BSIZE)
    (hfull : ∀ bn, bn * BSIZE < max (v.ino (v.inum k)).size (off + tot') → addrAt t.blk x (place bn) ≠ 0)
    (hbytes : ¬ T' → ∀ o, o < max (v.ino (v.inum k)).size (off + tot') →
      content t'.blk x o = v.spliced k src off tot' o) :
    Writing sb v t0 k src off tot' T' x t' := by
  obtain ⟨hplt, hpne⟩ := place_lt hmax
  have hra : Refers sb (update v.ino (v.inum k) x) t.blk (v.inum k, place bn) a :=
    ha ▸ h.refers_own hplt (ha ▸ h0)
  have hlow := (h.works.fs.refers_data hra).1
  have hne : ∀ c, c ≠ a → t'.blk c = t.blk c := fun c hc => by rw [hblk, update_of_ne hc]
  -- it is nobody's indirect block
  have hind : ∀ j c, Refers sb (update v.ino (v.inum k) x) t.blk (j, NDIRECT) c →
      t'.blk c = t.blk c := fun j c hc => hne c fun he =>
    hpne (Prod.mk.inj (h.works.fs.owned.inj hra (he ▸ hc))).2
  have href : ∀ ip c, Refers sb (update v.ino (v.inum k) x) t'.blk ip c ↔
      Refers sb (update v.ino (v.inum k) x) t.blk ip c := refers_congr hind
  have haddr : ∀ p, addrAt t'.blk x p = addrAt t.blk x p := fun p => by
    rw [hblk, h.addrAt_update hmax ha h0]
  have hused : ∀ c, Used sb t'.blk c ↔ Used sb t.blk c := fun c => by
    refine and_congr_right fun hc => ?_
    have := Superblock.bblock_range hc
    rw [mapBit, mapBit, hne _ (by omega)]
  refine ⟨⟨⟨fun j hj hact => ?_, h.works.fs.ok, h.works.fs.owned.congr hused href fun _ => Iff.rfl,
      fun c hc => ?_, by rw [hmem]; exact h.works.fs.slots⟩, h.works.lt, ?_, ?_, ?_, h.works.type⟩,
    hmem.trans h.mem, hheld, hout.trans h.out, h.fields, hle, fun p hp h0' => ?_, fun bn' hbn => ?_,
    hbytes, fun j p c hj hr => ?_, fun p b hr hTb => ?_, fun c hc => (hused c).mpr (h.used c hc)⟩
  · have := hsb.iblock hj
    have := hsb.inode_lt
    rw [hne _ (by omega)]
    exact h.works.fs.table j hj hact
  · rcases htaint c hc with hc | ⟨rfl, -, htype⟩
    · obtain ⟨h1, h2⟩ := h.works.fs.taint c hc
      exact ⟨h1, fun j p hr => h2 j p ((href _ _).mp hr)⟩
    · refine ⟨hlow, fun j p hr => ?_⟩
      obtain ⟨rfl, rfl⟩ := Prod.mk.inj (h.works.fs.owned.inj ((href _ _).mp hr) hra)
      refine ⟨hpne, ?_⟩
      rw [update_self]
      exact htype
  · rw [hmem]; exact h.works.inum
  · rw [hmem]; exact h.works.ref
  · rw [hmem]; exact h.works.din
  · rw [haddr, h.kept p hp h0']
  · rw [haddr]; exact hfull bn' hbn
  · obtain ⟨h1, h2⟩ := h.others j p c hj hr
    have hca : c ≠ a := fun he =>
      hj (Prod.mk.inj (h.works.fs.owned.inj (h.refers_other hj hr) (he ▸ hra))).1
    refine ⟨by rw [hne c hca, h1], fun hTc => ?_⟩
    rcases htaint c hTc with hc | ⟨hc, -⟩
    · exact h2 hc
    · exact absurd hc hca
  · rcases htaint b hTb with hc | ⟨-, hT', -⟩
    · exact hT (h.torn p b ((href _ _).mp hr) hc)
    · exact hT'

end

end Writing

/-! ## The loop -/

section Code

variable {sb : Superblock} {g : Goal} {v : Vol} {t0 t : Store} {k off n : Nat} {src : Src}

/-- What a round copies into its block. -/
theorem Writing.copied {tot m : Nat} {T : Prop} {x : Dinode} {d : Block} {a : Nat}
    (h : Writing sb v t0 k src off tot T x t) (hm : m ≤ BSIZE - (off + tot) % BSIZE)
    (hbn : (off + tot) / BSIZE < MAXFILE)
    (ha : addrAt t.blk x (place ((off + tot) / BSIZE)) = a) (h0 : a ≠ 0) (hT : ¬ T)
    (hd : d = t.blk a) {o : Nat} (ho : o < max (v.ino (v.inum k)).size (off + (tot + m))) :
    content (update t.blk a (blit d ((off + tot) % BSIZE) m fun j => src.byte (tot + j))) x o =
      v.spliced k src off (tot + m) o := by
  have haddr := h.addrAt_update hbn ha h0
  -- the bytes that are written are in this block
  have hin : off + tot ≤ o → o < off + (tot + m) → o / BSIZE = (off + tot) / BSIZE ∧
      o % BSIZE = (off + tot) % BSIZE + (o - (off + tot)) := fun h1 h2 => by
    have := round_block hm (show o - (off + tot) < m by omega)
    rwa [show off + tot + (o - (off + tot)) = o by omega] at this
  by_cases hw : off + tot ≤ o ∧ o < off + (tot + m)
  · obtain ⟨h1, h2⟩ := hin hw.1 hw.2
    rw [content, haddr, h1, ha, update_self, blit_in (by omega) (by omega), Vol.spliced, if_pos (by omega)]
    congr 1
    omega
  · have hold := h.bytes hT o (by omega)
    have hsame : v.spliced k src off (tot + m) o = v.spliced k src off tot o := by
      grind [Vol.spliced]
    rw [hsame, ← hold, content, content, haddr]
    by_cases hblock : o / BSIZE = (off + tot) / BSIZE
    · rw [hblock, ha, update_self, blit_out ?_, hd]
      unfold BSIZE at hblock hm ⊢
      omega
    · rw [update_of_ne]
      intro he
      -- another block of the file
      have hlt : o / BSIZE * BSIZE < max (v.ino (v.inum k)).size (off + tot) :=
        lt_of_le_of_lt (Nat.div_mul_le_self ..) (by omega)
      have h1 := h.refers_own (place_lt (h.bn_lt hlt)).1 (h.full _ hlt)
      have h2 := h.refers_own (place_lt hbn).1 (ha ▸ h0)
      rw [he, ← ha] at h1
      exact hblock (place_inj (Prod.mk.inj (h.works.fs.owned.inj h1 h2)).2)

theorem wp_writeLoop (hsb : sb.Wf) (hdir : (v.ino (v.inum k)).type = T_DIR → src.Readable n)
    (hn : off + n ≤ MAXFILE * BSIZE)
    (hroom : v.Room sb g (2 * span off n + 3))
    (hfree : g.bad (.panic "balloc: out of blocks") → span off n + 1 ≤ v.free)
    {fuel tot : Nat} {x : Dinode} (hfuel : n ≤ tot + fuel) (htot : tot ≤ n)
    (h : Writing sb v t0 k src off tot (v.torn (v.inum k)) x t)
    (hpaid : t.lh.length + cost x t.lh + 2 * rem (off + tot) (n - tot) ≤ v.lh + 2 + 2 * span off n)
    (hleft : v.free + lack x + rem (off + tot) (n - tot) ≤ freeBlocks sb t.blk + 1 + span off n) :
    (Code.writeLoop sb k src n fuel tot (off + tot)).wp (spec sb g) (fun off' t' => ∃ m x',
      off' = off + m ∧ m ≤ n ∧ (src.Readable n → m = n) ∧
      Writing sb v t0 k src off m (v.torn (v.inum k) ∨ m < n ∧ ¬ g.whole) x' t' ∧
      t'.lh.length ≤ v.lh + 2 + 2 * span off n ∧
      v.free ≤ freeBlocks sb t'.blk + 1 + span off n) t := by
  have hnlog : sb.nlog ≤ 30 := hsb.logsize
  induction fuel generalizing t tot x with
  | zero =>
    exact ⟨tot, x, rfl, htot, fun _ => by omega, h.mono .inl, by omega, by omega⟩
  | succ fuel ih =>
    unfold Code.writeLoop
    split
    · next hlt =>
      obtain ⟨m, hm⟩ : ∃ m, m = min (n - tot) (BSIZE - (off + tot) % BSIZE) := ⟨_, rfl⟩
      have hrem := @rem_round (off + tot) (n - tot) (by omega)
      rw [← hm] at hrem ⊢
      have hpos : 0 < m := by unfold BSIZE at hm; omega
      have hmle : m ≤ BSIZE - (off + tot) % BSIZE := by omega
      have hbn : (off + tot) / BSIZE < MAXFILE := by unfold BSIZE at hn ⊢; omega
      have hbuf : g.total → t.lh.length < NBUF := fun ht => by
        have := (hroom ht).2
        show _ < 30
        omega
      have hself : update v.ino (v.inum k) x (v.inum k) = x := update_self ..
      refine wp_seq (wp_bmap hsb h.works h.held hbn hbuf (fun _ ht => ?_) fun _ hbad => ?_) ?_
      · rw [hself]
        obtain ⟨h1, h2⟩ := hroom ht
        exact ⟨by rw [h.out]; exact h1, by omega⟩
      · rw [hself]
        have := hfree hbad
        omega
      rintro a t1 ⟨x', hb⟩
      have hw := h.bmapped hb
      have hpaid1 := hb.paid
      have hfree1 := hb.free
      have haddr := hb.mapped.addr
      have hne := hb.mapped.ne
      rw [hself] at hpaid1 hfree1
      have hra := hw.refers_own (place_lt hbn).1 (by rw [haddr]; exact hne)
      rw [haddr] at hra
      have hlow := hw.works.fs.refers_data hra
      have hmeta := hsb.inode_lt
      refine wp_bread (not_inLog hsb (by omega)) (fun ht => ?_) fun d _ hd => ?_
      · rw [hw.held]
        have := (hroom ht).2
        exact ⟨List.not_mem_nil, show 0 + t1.lh.length < 30 by omega⟩
      refine wp_data (List.mem_cons_self ..) ?_
      rw [show (hold { t1 with blk := update t1.blk a d } a).blk a = d from
        update_self ..]
      refine wp_copyin fun hwhole => ?_
      cases hr : (src.copy tot d ((off + tot) % BSIZE) m).2 with
      | true =>
        refine wp_put (List.mem_cons_self ..) (by have := hsb.small; have := hlow.2.1; omega)
          hsb.logsize (fun ht => ?_) ?_
        · obtain ⟨h1, h2⟩ := hroom ht
          exact ⟨show 1 ≤ t1.out by rw [hw.out]; exact h1, show t1.lh.length + 1 < _ by omega⟩
        refine wp_brelse_hold (t := put { t1 with blk := update t1.blk a d } a _) ?_
        rw [add_assoc]
        refine ih (by omega) (by omega) (x := x') ?_ ?_ ?_
        · refine hw.own hsb (d := (src.copy tot d ((off + tot) % BSIZE) m).1) hbn haddr hne ?_
            (fun c hc => .inl hc.1) id rfl hw.held rfl ?_ (fun bn' hbn' => ?_) fun hT o ho => ?_
          · exact update_idem ..
          · have := hw.le
            omega
          · by_cases hb' : bn' * BSIZE < max (v.ino (v.inum k)).size (off + tot)
            · exact hw.full bn' hb'
            · obtain rfl : bn' = (off + tot) / BSIZE := by
                unfold BSIZE at hmle hbn' hb' ⊢
                omega
              rw [haddr]
              exact hne
          · rw [put_blk]
            rw [update_idem, Src.copy_eq hr]
            exact hw.copied hmle hbn haddr hne hT (hd fun hb' => hT (hw.torn _ _ hra hb')) ho
        · show (addBlock t1.lh a).length + cost x' (addBlock t1.lh a) + _ ≤ _
          have h1 : cost x' (addBlock t1.lh a) ≤ cost x' t1.lh :=
            cost_mono fun c hc => mem_addBlock.mpr (.inl hc)
          have h2 : (addBlock t1.lh a).length ≤ t1.lh.length + if a ∈ t1.lh then 0 else 1 := by
            unfold addBlock
            split
            · omega
            · simp
          rw [← add_assoc, Nat.sub_add_eq]
          omega
        · rw [put_blk]
          have h1 : freeBlocks sb t1.blk ≤ _ := freeBlocks_update (.inr hlow.1)
            (src.copy tot d ((off + tot) % BSIZE) m).1
          rw [update_idem]
          rw [← add_assoc, Nat.sub_add_eq]
          omega
      | false =>
        have hxtype : x'.type = (v.ino (v.inum k)).type := by rw [hw.fields]
        refine ⟨List.mem_cons_self .., ?_⟩
        rintro ⟨⟩ t2 rfl
        refine wp_brelse_hold (t := { t1 with
          blk := update (update t1.blk a d) a (src.copy tot d ((off + tot) % BSIZE) m).1
          taint := fun c => t1.taint c ∨ c = a ∧ a ∉ t1.lh ∧
            (src.copy tot d ((off + tot) % BSIZE) m).1 ≠ update t1.blk a d a }) ?_
        rw [update_idem, update_self]
        refine ⟨tot, x', rfl, htot, fun hread => ?_, ?_, ?_, ?_⟩
        · rw [Src.copy_ok hread (show tot + m ≤ n by omega)] at hr
          cases hr
        · refine hw.own hsb hbn haddr hne rfl (fun c hc => ?_) .inl rfl hw.held rfl hw.le hw.full
            fun hT o ho => ?_
          · rcases hc with hc | ⟨rfl, -, hdiff⟩
            · exact .inl hc
            · refine .inr ⟨rfl, .inr ⟨hlt, fun hwh => hdiff (hwhole hwh hr)⟩, fun hd' => ?_⟩
              rw [Src.copy_ok (hdir (hxtype ▸ hd')) (show tot + m ≤ n by omega)] at hr
              cases hr
          · -- whole copies only: the block is what it was
            rw [not_or, not_and, not_not] at hT
            rw [hwhole (hT.2 hlt) hr, hd fun hb' => hT.1 (hw.torn _ _ hra hb'), update_eq_self]
            exact hw.bytes hT.1 o ho
        · show t1.lh.length ≤ _
          omega
        · have h1 : freeBlocks sb t1.blk ≤ _ := freeBlocks_update (.inr hlow.1)
            (src.copy tot d ((off + tot) % BSIZE) m).1
          show _ ≤ freeBlocks sb (update t1.blk a _) + 1 + _
          omega
    · next hge =>
      exact ⟨tot, x, rfl, htot, fun _ => by omega, h.mono .inl, by omega, by omega⟩

/-- `ip->size` and the disk: the last step. -/
theorem Writing.settle {m n l : Nat} {T : Prop} {x y : Dinode} {t1 : Store}
    (h : Writing sb v t0 k src off m T x t) (hR : Rep sb t0 v) (hk : v.Held k) (hsb : sb.Wf)
    (hT : T → (v.ino (v.inum k)).type ≠ T_DIR) (hlh : t.lh.length + 1 ≤ l)
    (hfree : n ≤ freeBlocks sb t.blk)
    (hy : y = { x with size := max (v.ino (v.inum k)).size (off + m) })
    (ht1 : t1 = (t.withMem (v.mem.setDin k y)).put (sb.iblock (v.inum k))
      (Dinode.put (t.blk (sb.iblock (v.inum k))) (v.inum k % IPB) y)) :
    Rep sb t1 { v with
      ino := update v.ino (v.inum k) y
      addr := update v.addr (v.inum k) (addrAt t.blk x)
      byte := update v.byte (v.inum k) (v.spliced k src off m)
      torn := update v.torn (v.inum k) T
      mem := v.mem.setDin k y, lh := l, free := n } := by
  obtain ⟨hdin, htype, hi⟩ := hk.ino hR.ok
  have hib := hsb.iblock hi
  have hmeta := hsb.inode_lt
  have hself : (v.mem.setDin k y).icache k = { v.slot k with din := y } := Mem.upd_self ..
  have hxtype : x.type = (v.ino (v.inum k)).type := by rw [h.fields]
  have hyaddrs : y.addrs = x.addrs := by rw [hy]
  have hytype : y.type = x.type := by rw [hy]
  have hysize : y.size = max (v.ino (v.inum k)).size (off + m) := by rw [hy]
  have hyok : y.Ok := by
    have hx := h.works.ok
    rw [update_self] at hx
    have hle := h.le
    rw [← hysize] at hle
    rw [hy] at hle ⊢
    refine { hx with size := ?_ }
    refine lt_of_le_of_lt hle ?_
    decide
  obtain ⟨hfs, href⟩ := h.works.fs.refit hyok hyaddrs hytype
  have hfs1 : Fs sb (update v.ino (v.inum k) y) none (fun _ => False) t1 := by
    have hm := hfs.withMem (m := v.mem.setDin k y) (by
      have hs := hfs.slots
      rw [h.mem] at hs
      rw [← Mem.setDin_setDin _ _ x]
      exact hs.setDin (by rw [← h.mem]; exact h.works.inum) _)
    have hget : ((t.withMem (v.mem.setDin k y)).mem.icache k) = { v.slot k with din := y } := hself
    have := hm.settled hsb hi hk.lt (by rw [hget]; exact hk.ref) (by rw [hget]; rfl)
      (by rw [hget, update_self]) (fun _ => by rw [update_self, hytype, hxtype]; exact htype)
    rw [hget] at this
    rw [ht1]
    exact this
  have hdata : ∀ c, sb.data ≤ c → t1.blk c = t.blk c := fun c hc => by
    rw [ht1]
    exact update_of_ne (by omega) ..
  have haddr : ∀ p, addrAt t1.blk y p = addrAt t.blk x p := fun p => by
    rw [addrAt_addrs hyaddrs]
    refine addrAt_congr fun hx => hdata _ ?_
    have := h.refers_own (p := NDIRECT) (by decide) (by rw [addrAt_direct le_rfl]; exact hx)
    rw [addrAt_direct le_rfl] at this
    exact (h.works.fs.refers_data this).1
  have htaint : ∀ c, t1.taint c → t.taint c := fun c hc => by
    rw [ht1] at hc
    exact hc.1
  have hnew := hR.change (i := v.inum k) (a := addrAt t.blk x) (f := v.spliced k src off m) (T := T)
    (l := l) (n := n) hfs1 (fun j p c hj hr => ?_) (fun j p c hj hr hc => ?_) (fun hc => ?_) (fun _ => ?_)
    ?_ ?_ ?_
  · rw [show t1.mem = v.mem.setDin k y by rw [ht1]; rfl,
      show t1.out = v.out by rw [ht1]; exact h.out] at hnew
    exact hnew
  · rw [hdata c (hR.fs.refers_data hr).1]
    exact (h.others j p c hj hr).1
  · exact (h.others j p c hj hr).2 (htaint c hc)
  · rw [hytype, hxtype]
    exact hT hc
  · rw [hysize]
    refine ⟨h.le, h.full, fun p _ => haddr p, fun o ho hc => ?_, fun p b hr hb => ?_⟩
    · rw [← h.bytes hc o ho]
      have hlt : o / BSIZE * BSIZE < max (v.ino (v.inum k)).size (off + m) :=
        lt_of_le_of_lt (Nat.div_mul_le_self ..) ho
      refine content_congr (haddr _) (hdata _ ?_)
      exact (h.works.fs.refers_data (h.refers_own (place_lt (h.bn_lt hlt)).1 (h.full _ hlt))).1
    · grind [Writing, Refers]
  · rw [ht1]
    exact h.held
  · rw [ht1]
    exact le_trans (length_addBlock ..) hlh
  · rw [ht1]
    exact le_trans hfree (freeBlocks_update (.inl hib.2) _)

theorem writei_served (hsb : sb.Wf) (k : Nat) (src : Src) (off n : Nat) :
    Served sb g (.writei k src off n) := by
  rintro t v hR ⟨hk, hdir, hroom, hfree⟩
  obtain ⟨hdin, htype, hi⟩ := hk.ino hR.ok
  have hrefuse : v.refuses k off n → ∃ v', Vol.Effect sb g (.writei k src off n) v (-1 : Int) v' ∧
      Rep sb t v' := fun h => ⟨v, (if_pos h).mpr ⟨rfl, rfl⟩, hR⟩
  refine wp_mem ?_
  rw [hR.mem, show (v.mem.icache k).din = v.ino (v.inum k) from hdin]
  split
  · next hno => exact hrefuse (hno.elim .inl fun h => .inr (.inl h))
  next hno =>
  split
  · next hbig => exact hrefuse (.inr (.inr hbig))
  next hfit =>
  have hgo : ¬ v.refuses k off n := by
    rintro (h | h | h)
    · exact hno (.inl h)
    · exact hno (.inr h)
    · exact hfit h
  rcases Nat.eq_zero_or_pos n with rfl | hpos
  · exact ⟨v, (if_neg hgo).mpr ⟨rfl, (if_pos rfl).mpr rfl⟩, hR⟩
  refine wp_seq (wp_writeLoop hsb hdir (by omega) hroom hfree (by omega) (Nat.zero_le n)
    (Writing.start hR hk (by omega)) ?_ ?_) ?_
  · have h1 : cost (v.ino (v.inum k)) t.lh ≤ 2 := by
      unfold cost
      split <;> omega
    have h2 := hR.lh
    have h3 : rem (off + 0) (n - 0) = span off n := if_neg (by omega)
    omega
  · have h1 : lack (v.ino (v.inum k)) ≤ 1 := by
      unfold lack
      split <;> omega
    have h2 := hR.free
    have h3 : rem (off + 0) (n - 0) = span off n := if_neg (by omega)
    omega
  rintro off' t1 ⟨m, x, rfl, hm, hall, hw, hlh, hleft⟩
  rw [if_pos hpos]
  obtain ⟨y, hy⟩ : ∃ y, y = { x with size := max (v.ino (v.inum k)).size (off + m) } := ⟨_, rfl⟩
  have hsize : x.size = (v.ino (v.inum k)).size := by rw [hw.fields]
  have hmem : t1.mem.upd k (fun ip => { ip with din := { ip.din with
      size := max ip.din.size (off + m) } }) = v.mem.setDin k y := by
    rw [hw.mem, Mem.setDin, Mem.upd_upd]
    refine Mem.upd_congr ?_
    rw [hy, hsize]
  refine wp_modify ?_
  rw [hmem]
  have hib := hsb.iblock hi
  have hmeta := hsb.inode_lt
  have hself : (v.mem.setDin k y).icache k = { v.slot k with din := y } := Mem.upd_self ..
  refine wp_seq (wp_iupdate hsb hi ((congrArg Inode.inum hself).trans rfl)
    (hw.works.fs.meta_clean (by omega)) hw.held fun ht => ?_) ?_
  · obtain ⟨h1, h2⟩ := hroom ht
    exact ⟨show 1 ≤ t1.out by rw [hw.out]; exact h1, show t1.lh.length + 1 < _ by omega⟩
  rintro ⟨⟩ t2 ht2
  have hread : (v.torn (v.inum k) ∨ m < n ∧ ¬ g.whole) → (v.ino (v.inum k)).type ≠ T_DIR := by
    rintro (hc | ⟨hc, -⟩) hd
    · exact hR.ok.torn _ hc hd
    · have hfull := hall (hdir hd)
      omega
  rw [show ((t1.withMem (v.mem.setDin k y)).mem.icache k).din = y from
    (congrArg Inode.din hself).trans rfl] at ht2
  have hR' := hw.settle (n := v.free - (span off n + 1)) (l := v.lh + (2 * span off n + 3)) hR hk hsb hread
    (by omega) (by omega) hy ht2
  refine ⟨_, (if_neg hgo).mpr ⟨rfl, (if_neg (Nat.ne_of_gt hpos)).mpr ⟨m, hm, hall, y, addrAt t1.blk x,
    rfl, ?_, fun p hp h0 => hw.kept p hp h0⟩⟩, hR'⟩
  rw [hy, hw.fields]

end Code

end Xv6
