/-
  INODES ON THE VOLUME: the calls that change the inode cache or one inode.

  `Rep.change` is the one way a volume changes on disk: one inode gets new fields, addresses or
  contents, and no block of another inode is touched.  The calls below only differ in what they do to
  that inode.
-/
import Xv6.Fs.Vol

namespace Xv6

open Function Prog Bytes Owner Store List Code Dinode Mem

variable {g : Goal} {f : Inode → Inode} {m m' : Mem} {i k l : Nat} {t : Store} {sb : Superblock} {v : Vol}

variable {x : Dinode} {inum : Nat} {D : Nat → Dinode}

/-! ## Representations -/

namespace Rep

variable {t' : Store}

/-- The inode cache or the tables change. -/
theorem withMem (h : Rep sb t v) (hm : Slots sb v.ino none m) : Rep sb (t.withMem m) (v.withMem m) :=
  { h with fs := h.fs.withMem hm, ok := { h.ok with slots := hm }, mem := rfl }

/-- A byte below the size of a file is in a block that is there. -/
theorem refers_byte (h : Rep sb t v) {o : Nat} (hi : i < sb.ninodes)
    (ht : (v.ino i).type ≠ 0) (ho : o < (v.ino i).size) : o / BSIZE < MAXFILE ∧
      Refers sb v.ino t.blk (i, place (o / BSIZE)) (addrAt t.blk (v.ino i) (place (o / BSIZE))) := by
  have hB : BSIZE = 1024 := rfl
  have hmax := h.ok.size i hi ht
  have hbn : o / BSIZE < MAXFILE := by rw [hB] at hmax ⊢; omega
  refine ⟨hbn, hi, ht, (place_lt hbn).1, rfl, ?_⟩
  rw [h.addr i _ hi ht (place_lt hbn).1]
  exact h.ok.full i hi ht _ (by rw [hB]; omega)

/-- One inode changes. -/
theorem change (h : Rep sb t v) {a : Nat → Nat} {f : Bytes} {T : Prop} {n : Nat}
    (hfs : Fs sb (update v.ino i x) none (fun _ => False) t')
    (hdata : ∀ j p c, j ≠ i → Refers sb v.ino t.blk (j, p) c → t'.blk c = t.blk c)
    (htaint : ∀ j p c, j ≠ i → Refers sb v.ino t.blk (j, p) c → t'.taint c → t.taint c)
    (hT : T → x.type ≠ T_DIR)
    (hself : x.type ≠ 0 → x.size ≤ MAXFILE * BSIZE ∧ (∀ bn, bn * BSIZE < x.size → a (place bn) ≠ 0) ∧
      (∀ p, p < NPLACE → addrAt t'.blk x p = a p) ∧
      (∀ o, o < x.size → ¬ T → content t'.blk x o = f o) ∧
      ∀ p b, Refers sb (update v.ino i x) t'.blk (i, p) b → t'.taint b → T)
    (hheld : t'.held = []) (hlh : t'.lh.length ≤ l) (hfree : n ≤ freeBlocks sb t'.blk) :
    Rep sb t' { v with
      ino := update v.ino i x
      addr := update v.addr i a
      byte := update v.byte i f
      torn := update v.torn i T
      mem := t'.mem, out := t'.out, lh := l, free := n } := by
  have haddr : ∀ j, j ≠ i → j < sb.ninodes → (v.ino j).type ≠ 0 → ∀ p,
      addrAt t'.blk (v.ino j) p = addrAt t.blk (v.ino j) p := fun j hj hlt ht p =>
    addrAt_congr fun hx => hdata j NDIRECT _ hj (refers_indirect hlt ht hx)
  refine ⟨hfs, ⟨hfs.ok, hfs.slots, fun j hj ht => ?_, fun j hj ht bn hbn => ?_, fun j hTj => ?_⟩,
    fun j p hj ht hp => ?_, fun j o hj ht ho hTj => ?_, fun j p b hr hb => ?_, rfl, hheld, rfl, hlh,
    hfree⟩
  · by_cases hji : j = i
    · subst hji
      dsimp only at ht ⊢
      rw [update_self] at ht ⊢
      exact (hself ht).1
    · dsimp only at ht ⊢
      rw [update_of_ne hji] at ht ⊢
      exact h.ok.size j hj ht
  · by_cases hji : j = i
    · subst hji
      dsimp only at ht hbn ⊢
      rw [update_self] at ht hbn ⊢
      exact (hself ht).2.1 bn hbn
    · dsimp only at ht hbn ⊢
      rw [update_of_ne hji] at ht hbn ⊢
      exact h.ok.full j hj ht bn hbn
  · by_cases hji : j = i
    · subst hji
      dsimp only at hTj ⊢
      rw [update_self] at hTj ⊢
      exact hT hTj
    · dsimp only at hTj ⊢
      rw [update_of_ne hji] at hTj ⊢
      exact h.ok.torn j hTj
  · by_cases hji : j = i
    · subst hji
      dsimp only at ht ⊢
      rw [update_self] at ht ⊢
      rw [update_self]
      exact (hself ht).2.2.1 p hp
    · dsimp only at ht ⊢
      rw [update_of_ne hji] at ht ⊢
      rw [update_of_ne hji, haddr j hji hj ht]
      exact h.addr j p hj ht hp
  · by_cases hji : j = i
    · subst hji
      dsimp only at ht ho hTj ⊢
      rw [update_self] at ht ho hTj ⊢
      rw [update_self]
      exact (hself ht).2.2.2.1 o ho hTj
    · dsimp only at ht ho hTj ⊢
      rw [update_of_ne hji] at ht ho hTj ⊢
      rw [update_of_ne hji, ← h.byte j o hj ht ho hTj]
      exact content_congr (haddr j hji hj ht _) (hdata j _ _ hji (h.refers_byte hj ht ho).2)
  · by_cases hji : j = i
    · grind [Refers]
    · grind [Rep, Fs, Refers]

/-- One inode loses its contents. -/
theorem drop (h : Rep sb t v) (hx : x.size = 0) (ha : ∀ p, x.addrs p = 0)
    (hfs : Fs sb (update v.ino i x) none (fun _ => False) t')
    (hdata : ∀ c, sb.data ≤ c → t'.blk c = t.blk c) (htaint : ∀ c, t'.taint c → t.taint c)
    (hheld : t'.held = []) (hout : t'.out = t.out) (hlh : t'.lh.length ≤ l)
    (hfree : freeBlocks sb t.blk ≤ freeBlocks sb t'.blk) :
    Rep sb t' ((v.drop i x l).withMem t'.mem) := by
  have hnew := h.change (a := fun _ => 0) (f := v.byte i) (T := False) (l := l) (n := v.free) hfs
    (fun j p c _ hr => hdata c (h.fs.refers_data hr).1) (fun j p c _ _ hT => htaint c hT) False.elim
    (fun _ => ⟨by rw [hx]; exact Nat.zero_le _, fun bn hbn => ?_, fun p _ => ?_, fun o ho => ?_,
      fun p b hr => ?_⟩) hheld hlh (le_trans h.free hfree)
  · rw [update_eq_self, hout, h.out] at hnew
    exact hnew
  · rw [hx] at hbn
    exact absurd hbn (Nat.not_lt_zero _)
  · rw [addrAt, ha, ha]
    simp
  · rw [hx] at ho
    exact absurd ho (Nat.not_lt_zero _)
  · exact absurd rfl ((refers_reset ha _ _).mp hr).2

/-- Where the blocks in use are unchanged, so are files. -/
theorem keeps (h : Rep sb t v) (hb : ∀ c, sb.data ≤ c → Used sb t.blk c → t'.blk c = t.blk c)
    (hi : i < sb.ninodes) (ht : (v.ino i).type ≠ 0) (hx : x.addrs = (v.ino i).addrs) :
    (∀ p, p < NPLACE → addrAt t'.blk x p = v.addr i p) ∧
      ∀ o, o < (v.ino i).size → ¬ v.torn i → content t'.blk x o = v.byte i o := by
  have haddr : ∀ p, addrAt t'.blk x p = addrAt t.blk (v.ino i) p := fun p => by
    rw [addrAt_addrs hx]
    refine addrAt_congr fun hne => ?_
    obtain ⟨h1, h2⟩ := h.fs.refers_data (refers_indirect hi ht hne)
    exact hb _ h1 h2
  refine ⟨fun p hp => (haddr p).trans (h.addr i p hi ht hp), fun o ho hT => ?_⟩
  rw [← h.byte i o hi ht ho hT]
  obtain ⟨h1, h2⟩ := h.fs.refers_data (h.refers_byte hi ht ho).2
  exact content_congr (haddr _) (hb _ h1 h2)

end Rep

/-! ## The inode cache -/

/-- `iget` finds the entry of the inode or takes one that nobody uses. -/
theorem Mem.iget_cases (h : m.iget inum = some (k, m')) : k < NINODE ∧
    (1 ≤ (m.icache k).ref ∧ (m.icache k).inum = inum ∧
        m' = m.upd k (fun ip => { ip with ref := ip.ref + 1 }) ∨
      (m.icache k).ref = 0 ∧ (∀ l, l < NINODE → 1 ≤ (m.icache l).ref → (m.icache l).inum ≠ inum) ∧
        m' = m.upd k fun ip => { ip with inum := inum, ref := 1, valid := false }) := by
  unfold iget at h
  split at h
  · grind
  · next hnone =>
    split at h
    · grind
    · cases h

theorem Slots.iget (h : Slots sb D none m) (hi : inum < sb.ninodes) (hg : m.iget inum = some (k, m')) :
    Slots sb D none m' := by
  obtain ⟨hk, ⟨href, hinum, rfl⟩ | ⟨href, hnew, rfl⟩⟩ := iget_cases hg
  · exact h.upd rfl (fun _ => href) fun _ hv ha => h.valid k hk href hv ha
  · -- the entry gets a new key, which no other entry has
    have hself : (m.upd k fun ip => { ip with inum := inum, ref := 1, valid := false }).icache k =
        { m.icache k with inum := inum, ref := 1, valid := false } := upd_self ..
    refine ⟨fun l l' hl hl' h1 h2 he => ?_, fun l hl h1 => ?_, fun l hl h1 hv ha => ?_⟩
    · grind [Slots, upd_ne]
    · grind [Slots, upd_ne]
    · grind [Slots, upd_ne]

/-! ## Calls that change the cache only -/

/-- The code behind `o` does what the specification says. -/
def Served (sb : Superblock) (g : Goal) (o : Icall) : Prop :=
  ∀ t v, Rep sb t v → Vol.Safe sb g o v → (o.code sb).wp (Store.spec sb g)
    (fun r t' => ∃ v', Vol.Effect sb g o v r v' ∧ Rep sb t' v') t

section Cache

theorem wp_iget (hroom : g.bad (.panic "iget: no inodes") → (t.mem.iget inum).isSome) :
    (iget inum).wp (spec sb g) (fun r t' => ∃ m, t.mem.iget inum = some (r, m) ∧ t' = t.withMem m) t := by
  refine wp_mem ?_
  split
  · next k m hm => exact wp_setMem ⟨m, hm, rfl⟩
  · next hn =>
    refine wp_panic fun hbad => ?_
    have := hroom hbad
    rw [hn] at this
    cases this

theorem iget_served (inum : Nat) : Served sb g (.iget inum) := by
  rintro t v hR ⟨hi, hroom⟩
  rw [← hR.mem] at hroom
  refine wp_mono (wp_iget hroom) ?_
  rintro k t' ⟨m, hm, rfl⟩
  rw [hR.mem] at hm
  exact ⟨v.withMem m, ⟨m, hm, rfl⟩, hR.withMem (hR.ok.slots.iget hi hm)⟩

/-- A change of one slot. -/
theorem wp_upd (hR : Rep sb t v) (hm : Slots sb v.ino none (v.mem.upd k f)) :
    (modify k f).wp (spec sb g) (fun _ t' => Rep sb t' (v.upd k f)) t := by
  refine wp_mem (wp_setMem ?_)
  rw [hR.mem]
  exact hR.withMem hm

theorem idup_served (k : Nat) : Served sb g (.idup k) := by
  rintro t v hR ⟨hk, href⟩
  refine wp_mono (wp_upd hR (hR.ok.slots.upd rfl (fun _ => href) fun _ hv ha => ?_)) ?_
  · exact hR.ok.slots.valid k hk href hv ha
  · rintro ⟨⟩ t' hR'
    exact ⟨_, rfl, hR'⟩

theorem wp_iunlock (hsafe : g.bad (.panic "iunlock") →
      (t.mem.icache k).locked = true ∧ 1 ≤ (t.mem.icache k).ref) :
    (iunlock k).wp (spec sb g) (fun _ t' => (t.mem.icache k).locked = true ∧
      1 ≤ (t.mem.icache k).ref ∧ t' = t.withMem (t.mem.upd k fun ip => { ip with locked := false })) t := by
  refine wp_mem ?_
  split
  · grind [wp_panic]
  · next hgo =>
    simp only [Bool.or_eq_true, Bool.not_eq_true', decide_eq_true_eq, not_or, Bool.not_eq_false,
      Int.not_lt] at hgo
    exact wp_setMem ⟨hgo.1, hgo.2, rfl⟩

theorem iunlock_served (k : Nat) : Served sb g (.iunlock k) := by
  rintro t v hR ⟨hk, hsafe⟩
  refine wp_mono (wp_iunlock fun hbad => ?_) ?_
  · rw [hR.mem]
    exact hsafe hbad
  · rintro ⟨⟩ t' ⟨hlock, href, rfl⟩
    rw [hR.mem] at hlock href ⊢
    refine ⟨_, ⟨hlock, href, rfl⟩, hR.withMem (hR.ok.slots.upd rfl id ?_)⟩
    exact fun h1 hv ha => hR.ok.slots.valid k hk h1 hv ha

/-- Reading an inode from its block. -/
theorem wp_readInode {α : Type} {X : Nat → Prop}
    {Q : α → Store → Prop} {kont : Block → Code α} (hsb : sb.Wf) (hfs : Fs sb D none X t)
    (hi : i < sb.ninodes) (hheld : t.held = []) (hbuf : g.total → t.lh.length < NBUF)
    (h : ∀ d, get d (i % IPB) = D i → (kont d).wp (spec sb g) Q t) :
    (bread (sb.iblock i) >>= fun _ => data (sb.iblock i) >>= fun d =>
      brelse (sb.iblock i) >>= fun _ => kont d).wp (spec sb g) Q t := by
  have hib := hsb.iblock hi
  have hlt := hsb.inode_lt
  refine wp_bread_clean (not_inLog hsb hib.1) (hfs.meta_clean (by omega))
    (fun ht => by rw [hheld]; simpa using hbuf ht) fun _ => ?_
  refine wp_data (mem_cons_self ..) (wp_brelse_hold ?_)
  exact h _ (hfs.table i hi (by simp))

/-- Locking an inode changes its slot, and nothing else. -/
theorem wp_ilock (hsb : sb.Wf) (hR : Rep sb t v) (hk : k < NINODE)
    (href : g.bad (.panic "ilock") → 1 ≤ (v.slot k).ref)
    (hfree : g.bad .blocked → (v.slot k).locked = false)
    (htype : g.bad (.panic "ilock: no type") → (v.ino (v.inum k)).type ≠ 0)
    (hbuf : g.total → t.lh.length < NBUF) :
    (ilock sb k).wp (spec sb g) (fun _ t' => 1 ≤ (v.slot k).ref ∧ (v.slot k).locked = false ∧
      (v.ino (v.inum k)).type ≠ 0 ∧ t' = t.withMem (v.mem.upd k fun ip =>
        { ip with locked := true, valid := true, din := v.ino ip.inum })) t := by
  refine wp_mem ?_
  rw [hR.mem]
  dsimp only
  split
  · next hr =>
    refine wp_panic fun hbad => ?_
    have : 1 ≤ (v.mem.icache k).ref := href hbad
    omega
  next hr =>
  have href : 1 ≤ (v.mem.icache k).ref := by omega
  split
  · next hl =>
    refine wp_block fun hbad => ?_
    have : (v.mem.icache k).locked = false := hfree hbad
    rw [this] at hl
    cases hl
  next hl =>
  have hunl : (v.mem.icache k).locked = false := by simpa using hl
  refine wp_setMem ?_
  split
  · next hv =>
    obtain ⟨hdin, ht⟩ := hR.ok.slots.valid k hk href hv (by simp)
    refine ⟨href, hunl, ht, congrArg t.withMem (upd_congr ?_)⟩
    rw [← hdin, ← hv]
  · next hv =>
    have hi := hR.ok.slots.inum k hk href
    have hR1 : Rep sb (t.withMem (v.mem.upd k fun ip => { ip with locked := true }))
        (v.upd k fun ip => { ip with locked := true }) :=
      hR.withMem (hR.ok.slots.upd rfl id fun _ hv' _ => absurd hv' hv)
    refine wp_readInode hsb hR1.fs hi hR1.held hbuf fun d hd => ?_
    have hd : get d ((v.mem.icache k).inum % IPB) = v.ino (v.mem.icache k).inum := hd
    refine wp_modify ?_
    rw [hd]
    split
    · next h0 => exact wp_panic fun hbad => htype hbad h0
    · next h0 =>
      refine ⟨href, hunl, h0, congrArg t.withMem ?_⟩
      unfold upd
      simp only [withMem, update_self, update_idem, hd]

theorem ilock_served (hsb : sb.Wf) (k : Nat) : Served sb g (.ilock k) := by
  rintro t v hR ⟨hk, href, hfree, htype, hbuf⟩
  refine wp_mono (wp_ilock hsb hR hk href hfree htype fun ht => ?_) ?_
  · exact lt_of_le_of_lt hR.lh (hbuf ht)
  · rintro ⟨⟩ t' ⟨href, hunl, ht, rfl⟩
    exact ⟨_, ⟨href, hunl, ht, rfl⟩, hR.withMem (hR.ok.slots.upd rfl id fun _ _ _ => ⟨rfl, ht⟩)⟩

end Cache

/-! ## Calls that change the fields of an inode -/

section Fields

theorem wp_iupdate (hsb : sb.Wf) (hi : i < sb.ninodes) (hinum : (t.mem.icache k).inum = i)
    (hclean : ¬ t.taint (sb.iblock i)) (hheld : t.held = []) (hroom : t.Room sb g 1) :
    (iupdate sb k).wp (spec sb g) (fun _ t' => t' =
      t.put (sb.iblock i) (put (t.blk (sb.iblock i)) (i % IPB) (t.mem.icache k).din)) t := by
  have hib := hsb.iblock hi
  have hlt := hsb.inode_lt
  have := hsb.fits
  have := hsb.small
  refine wp_mem ?_
  dsimp only
  rw [hinum]
  refine wp_bread_clean (not_inLog hsb hib.1) hclean
    (fun ht => ⟨by rw [hheld]; simp, hroom.buffers hsb ht (by rw [hheld]; simp)⟩) fun _ => ?_
  refine wp_data (mem_cons_self ..) ?_
  refine wp_put (mem_cons_self ..) (by omega) hsb.logsize hroom ?_
  exact wp_brelse_hold (t := t.put _ _) (k := fun _ => pure ()) rfl

/-- The disk has what the cached copy says: the work is done. -/
theorem Fs.settled (h : Fs sb D (some i) (fun _ => False) t) (hsb : sb.Wf)
    (hi : i < sb.ninodes) (hk : k < NINODE) (href : 1 ≤ (t.mem.icache k).ref)
    (hinum : (t.mem.icache k).inum = i)
    (hdin : (t.mem.icache k).din = D i) (hvalid : (t.mem.icache k).valid = true → (D i).type ≠ 0) :
    Fs sb D none (fun _ => False)
      (t.put (sb.iblock i) (put (t.blk (sb.iblock i)) (i % IPB) (t.mem.icache k).din)) := by
  refine (h.put_inode hsb hi _).settle ?_ fun l hl h1 hv hil => ?_
  · rw [put_blk, update_self, hdin]
    exact get_put _ _ (h.ok i hi)
  · rw [put_mem] at *
    obtain rfl : l = k := h.slots.uniq l k hl hk h1 href (hil.trans hinum.symm)
    exact ⟨hdin, hvalid hv⟩

theorem Vol.Held.ino (h : v.Held k) (hok : v.Ok sb) : (v.slot k).din = v.ino (v.inum k) ∧
    (v.ino (v.inum k)).type ≠ 0 ∧ v.inum k < sb.ninodes := by
  obtain ⟨h1, h2⟩ := hok.slots.valid k h.lt h.ref h.valid (by simp)
  exact ⟨h1, h2, hok.slots.inum k h.lt h.ref⟩

/-- The inode that is worked on gets other fields, but the addresses it had. -/
theorem Fs.refit {y : Dinode} (h : Fs sb (update D i x) (some i) (fun _ => False) t) (hok : y.Ok)
    (haddrs : y.addrs = x.addrs) (htype : y.type = x.type) :
    Fs sb (update D i y) (some i) (fun _ => False) t ∧
      ∀ ip c, Refers sb (update D i y) t.blk ip c ↔ Refers sb (update D i x) t.blk ip c := by
  have hfields : ∀ j, (update D i y j).addrs = (update D i x j).addrs ∧
      (update D i y j).type = (update D i x j).type := fun j => by
    by_cases hj : j = i
    · rw [hj, update_self, update_self]
      exact ⟨haddrs, htype⟩
    · rw [update_of_ne hj, update_of_ne hj]
      exact ⟨rfl, rfl⟩
  have href : ∀ ip c, Refers sb (update D i y) t.blk ip c ↔ Refers sb (update D i x) t.blk ip c :=
    refers_fields fun j => ⟨(hfields j).1, by rw [(hfields j).2]⟩
  refine ⟨h.redo (fun j hj => by rw [update_of_ne hj, update_of_ne hj]) (by rw [update_self]; exact hok)
    (h.owned.congr (fun _ => Iff.rfl) href fun _ => Iff.rfl) fun b hb j p hr => ?_, href⟩
  obtain ⟨h1, h2⟩ := (h.taint b hb).2 j p ((href _ _).mp hr)
  exact ⟨h1, by rw [(hfields j).2]; exact h2⟩

/-- The slot of the inode that is worked on may hold any copy of it. -/
theorem Slots.setDin (h : Slots sb D (some i) m) (hinum : (m.icache k).inum = i) (x : Dinode) :
    Slots sb D (some i) (m.setDin k x) :=
  h.upd rfl id fun _ _ hact => absurd (congrArg some hinum.symm) hact

/-- Change fields of the inode other than its type, size and addresses, then `iupdate`. -/
theorem wp_setFields (hsb : sb.Wf) (hR : Rep sb t v) (hk : v.Held k) (hroom : v.Room sb g 1)
    {F : Dinode → Dinode}
    (hf : ∀ ip, (f ip).inum = ip.inum ∧ (f ip).ref = ip.ref ∧ (f ip).valid = ip.valid ∧
      (f ip).din = F ip.din)
    (hF : ∀ x, (F x).type = x.type ∧ (F x).size = x.size ∧ (F x).addrs = x.addrs)
    (hFok : ∀ x, x.Ok → (F x).Ok) :
    (modify k f >>= fun _ => iupdate sb k).wp (spec sb g) (fun _ t' => Rep sb t' { v with
        ino := update v.ino (v.inum k) (F (v.ino (v.inum k)))
        mem := v.mem.upd k f
        lh := v.lh + 1 } ∧ t'.lh = addBlock t.lh (sb.iblock (v.inum k))) t := by
  obtain ⟨hdin, htype, hi⟩ := hk.ino hR.ok
  obtain ⟨hf1, hf2, hf3, hf4⟩ := hf (v.slot k)
  obtain ⟨hF1, hF2, hF3⟩ := hF (v.ino (v.inum k))
  have hself : (v.mem.upd k f).icache k = f (v.slot k) := upd_self ..
  -- the table says what the cached copy will say
  obtain ⟨hfs, href⟩ := Fs.refit (D := v.ino) (i := v.inum k) (x := v.ino (v.inum k)) (t := t)
    (by rw [update_eq_self]; exact hR.fs.activate _) (hFok _ (hR.ok.ino _ hi)) hF3 hF1
  simp only [update_eq_self] at href
  have hfs1 := hfs.withMem (m := v.mem.upd k f) ((hR.mem ▸ hfs.slots).upd hf1
    (fun h1 => hk.ref) fun _ _ ha => absurd rfl ha)
  have hinum : ((v.mem.upd k f).icache k).inum = v.inum k := by rw [hself]; exact hf1
  have hlh := hR.lh
  refine wp_modify ?_
  rw [hR.mem]
  refine wp_mono (wp_iupdate hsb hi hinum (hR.fs.meta_clean ?_) hR.held fun ht => ?_) ?_
  · have := hsb.iblock hi
    have := hsb.inode_lt
    omega
  · obtain ⟨h1, h2⟩ := hroom ht
    exact ⟨show 1 ≤ t.out by rw [hR.out]; exact h1, show t.lh.length + 1 < _ by omega⟩
  · rintro ⟨⟩ t' rfl
    refine ⟨?_, rfl⟩
    have hfs2 := hfs1.settled hsb hi hk.lt (show 1 ≤ ((v.mem.upd k f).icache k).ref by
      rw [hself, hf2]; exact hk.ref) hinum
      (show ((v.mem.upd k f).icache k).din = _ by
        rw [hself, hf4, hdin, update_self])
      (fun _ => by rw [update_self, hF1]; exact htype)
    have hb : ∀ c, sb.data ≤ c → ((t.withMem (v.mem.upd k f)).put (sb.iblock (v.inum k))
        (put (t.blk (sb.iblock (v.inum k))) (v.inum k % IPB)
          ((v.mem.upd k f).icache k).din)).blk c = t.blk c := fun c hc => by
      have := hsb.iblock hi
      have := hsb.inode_lt
      exact update_of_ne (by omega) ..
    have hself' := hR.keeps (fun c hc _ => hb c hc) hi htype hF3
    have hnew := hR.change (a := v.addr (v.inum k)) (f := v.byte (v.inum k)) (T := v.torn (v.inum k))
      (n := v.free) hfs2 (fun j p c _ hr => hb c (hR.fs.refers_data hr).1) (fun j p c _ _ hT => hT.1)
      (fun hT => by rw [hF1]; exact hR.ok.torn _ hT) (fun _ => ?_) hR.held
      (le_trans (length_addBlock ..) (Nat.add_le_add_right hR.lh 1)) ?_
    · simp only [update_eq_self] at hnew
      rw [← hR.out]
      exact hnew
    · rw [hF2]
      refine ⟨hR.ok.size _ hi htype, hR.ok.full _ hi htype, hself'.1, hself'.2, fun p b hr hT => ?_⟩
      have hr' : Refers sb v.ino t.blk (v.inum k, p) b := by
        refine (href _ _).mp ((refers_congr (fun j c hc => hb c ?_) _ _).mp hr)
        exact (hR.fs.refers_data ((href _ _).mp hc)).1
      exact hR.torn _ p b hr' hT.1
    · exact le_trans hR.free (freeBlocks_update (.inl (hsb.iblock hi).2) _)

theorem updNlink_served (hsb : sb.Wf) (k n : Nat) : Served sb g (.updNlink k n) := by
  rintro t v hR ⟨hk, hn, hroom⟩
  refine wp_mono (wp_setFields hsb hR hk hroom (F := fun d => { d with nlink := n })
    (fun _ => ⟨rfl, rfl, rfl, rfl⟩) (fun _ => ⟨rfl, rfl, rfl⟩) fun x hx => ?_)
    fun _ t' hR' => ⟨_, rfl, hR'.1⟩
  exact { hx with nlink := hn }

/-- New permissions, and what is in the log then. -/
theorem wp_updPerm (hsb : sb.Wf) (hR : Rep sb t v) (hsafe : Vol.Safe sb g (.updPerm k n) v) :
    (Icall.code sb (.updPerm k n)).wp (spec sb g) (fun r t' =>
      (∃ v', Vol.Effect sb g (.updPerm k n) v r v' ∧ Rep sb t' v') ∧
      t'.lh = addBlock t.lh (sb.iblock (v.inum k))) t := by
  obtain ⟨hk, hn, hroom⟩ := hsafe
  refine wp_mono (wp_setFields hsb hR hk hroom (F := fun d => { d with perm := n })
    (fun _ => ⟨rfl, rfl, rfl, rfl⟩) (fun _ => ⟨rfl, rfl, rfl⟩) fun x hx => ?_)
    fun _ t' hR' => ⟨⟨_, rfl, hR'.1⟩, hR'.2⟩
  exact { hx with perm := hn }

theorem updPerm_served (hsb : sb.Wf) (k n : Nat) : Served sb g (.updPerm k n) :=
  fun _ _ hR hsafe => wp_mono (wp_updPerm hsb hR hsafe) fun _ _ h => h.1

theorem updNew_served (hsb : sb.Wf) (k major minor : Nat) : Served sb g (.updNew k major minor) := by
  rintro t v hR ⟨hk, hroom⟩
  refine wp_mono (wp_setFields hsb hR hk hroom (F := fun d => { d with nlink := 1 })
    (fun _ => ⟨rfl, rfl, rfl, rfl⟩) (fun _ => ⟨rfl, rfl, rfl⟩) fun x hx => ?_)
    fun _ t' hR' => ⟨_, rfl, ?_⟩
  · exact { hx with nlink := show 1 < 65536 by decide }
  · unfold Vol.setIno Vol.upd
    rw [upd_upd]
    exact hR'.1

/-- Giving a free inode a type. -/
theorem Rep.claim (hR : Rep sb t v) (hsb : sb.Wf) (hi : i < sb.ninodes) (h0 : (v.ino i).type = 0)
    {type : Nat} (htype : type < 65536) :
    Rep sb (t.put (sb.iblock i) (put (t.blk (sb.iblock i)) (i % IPB) (newInode type)))
      (v.drop i (newInode type) (v.lh + 1)) := by
  have hib := hsb.iblock hi
  have hlt := hsb.inode_lt
  have hreset : ∀ ip c, Refers sb (update v.ino i (newInode type)) t.blk ip c ↔
      Refers sb v.ino t.blk ip c ∧ ip.1 ≠ i := refers_reset fun _ => rfl
  -- a free inode refers to nothing
  have href : ∀ ip c, Refers sb (update v.ino i (newInode type)) t.blk ip c ↔
      Refers sb v.ino t.blk ip c := fun ip c => by
    rw [hreset]
    refine and_iff_left_of_imp fun hr he => hr.alloc ?_
    rw [he]
    exact h0
  have hok : (newInode type).Ok :=
    ⟨htype, show 0 < 65536 by decide, show 0 < 4294967296 by decide,
      fun _ => show 0 < 4294967296 by decide, fun _ _ => rfl, show M_ALL < 65536 by decide,
      show M_READ ||| M_WRITE < 65536 by decide⟩
  have hfs : Fs sb (update v.ino i (newInode type)) (some i) (fun _ => False) t := by
    refine (hR.fs.activate i).redo (fun j hj => update_of_ne hj ..) ?_
      (hR.fs.owned.congr (fun _ => Iff.rfl) href fun _ => Iff.rfl) fun b hb j p hr => ?_
    · rw [update_self]
      exact hok
    · have hj : j ≠ i := ((hreset _ _).mp hr).2
      rw [update_of_ne hj]
      exact (hR.fs.taint b hb).2 j p ((href (j, p) b).mp hr)
  have hfs' : Fs sb (update v.ino i (newInode type)) none (fun _ => False)
      (t.put (sb.iblock i) (put (t.blk (sb.iblock i)) (i % IPB) (newInode type))) := by
    refine (hfs.put_inode hsb hi _).settle ?_ fun k hk h1 hv hki => ?_
    · rw [put_blk, update_self, update_self]
      exact get_put _ _ hok
    · -- no cached copy of it is valid
      rw [put_mem, hR.mem] at h1 hv hki
      have := (hR.ok.slots.valid k hk h1 hv (by simp)).2
      rw [hki] at this
      exact absurd h0 this
  have hnew := hR.drop (l := v.lh + 1) rfl (fun _ => rfl) hfs'
    (fun c hc => update_of_ne (by omega) ..) (fun c hT => hT.1) hR.held rfl
    (le_trans (length_addBlock ..) (Nat.add_le_add_right hR.lh 1))
    (freeBlocks_update (.inl hib.2) _)
  rw [put_mem, hR.mem] at hnew
  exact hnew

theorem ialloc_served (hsb : sb.Wf) (type : Nat) : Served sb g (.ialloc type) := by
  rintro t v hR ⟨hpos, htype, hroom, hbuf, hfree, hcache⟩
  have hlt := hsb.inode_lt
  have hlh := hR.lh
  suffices h : ∀ is : List Nat, (∀ i ∈ is, 1 ≤ i ∧ i < sb.ninodes) →
      (g.bad (.panic "ialloc: no inodes") → ∃ i ∈ is, (v.ino i).type = 0) →
      (iallocFrom sb type is).wp (spec sb g) (fun r t' =>
        ∃ v', Vol.Effect sb g (.ialloc type) v r v' ∧ Rep sb t' v') t by
    refine h _ (fun i hi => ?_) fun hbad => ?_
    · have := mem_range'_1.mp hi
      omega
    · obtain ⟨i, h1, h2, h3⟩ := hfree hbad
      exact ⟨i, mem_range'_1.mpr (by omega), h3⟩
  intro is
  induction is with
  | nil =>
    intro _ hex
    refine wp_panic fun hbad => ?_
    obtain ⟨i, hi, -⟩ := hex hbad
    exact absurd hi not_mem_nil
  | cons i is ih =>
    intro his hex
    obtain ⟨h1, hi⟩ := his i (mem_cons_self ..)
    have hib := hsb.iblock hi
    refine wp_bread_clean (not_inLog hsb hib.1) (hR.fs.meta_clean (by omega)) (fun ht => ?_) fun _ => ?_
    · rw [hR.held]
      have := hbuf ht
      exact ⟨not_mem_nil, show 0 + t.lh.length < NBUF by omega⟩
    refine wp_data (mem_cons_self ..) ?_
    rw [hold_blk, hR.fs.table i hi (by simp)]
    split
    · next h0 =>
      refine wp_put (mem_cons_self ..) (by have := hsb.fits; have := hsb.small; omega)
        hsb.logsize (fun ht => ?_) ?_
      · obtain ⟨ho, hl⟩ := hroom ht
        exact ⟨show 1 ≤ t.out by rw [hR.out]; exact ho, show t.lh.length + 1 < _ by omega⟩
      refine wp_brelse_hold (t := t.put _ _) ?_
      have hR' := hR.claim hsb hi h0 htype
      refine wp_mono (wp_iget fun hbad => ?_) ?_
      · rw [hR'.mem]
        exact hcache hbad i
      · rintro k t' ⟨m, hm, rfl⟩
        rw [hR'.mem] at hm
        exact ⟨_, ⟨i, m, h1, hi, h0, hm, rfl⟩, hR'.withMem (hR'.ok.slots.iget hi hm)⟩
    · next h0 =>
      refine wp_brelse_hold (ih (fun j hj => his j (mem_cons_of_mem _ hj)) fun hbad => ?_)
      obtain ⟨j, hj, hj0⟩ := hex hbad
      rcases mem_cons.mp hj with rfl | hj
      · exact absurd hj0 h0
      · exact ⟨j, hj, hj0⟩

end Fields

end Xv6
