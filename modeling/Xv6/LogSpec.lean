/-
  WHAT THE LOG DOES TO THE MACHINE, said once.

  `Pinned q l` is the cache invariant of `Xv6.BioSpec` with the pins spelled out: every block of `l`
  is cached and its buffer carries `q` references more than its holders.  Three phases of the log
  are the same statement at three values:

  * a transaction        — `q = 1`, `l` the blocks in `log.lh`;
  * `installTrans` after a commit — `q = 1`, `l` the blocks still to be installed;
  * `installTrans` in recovery    — `q = 2 ^ 32 - 1`, `l` the blocks ALREADY installed: nothing had
    pinned them, so the `bunpin` there takes a reference that does not exist.

  From it each log function gets its effect as a list of block writes (`writeLog_run`,
  `writeHead_run`, `install_run`), which is what the redo-log library talks about.
-/
import Xv6.BioSpec
import Xv6.Lib.RedoLog
import Mathlib.Data.Finset.Card

namespace Xv6

open Function List RedoLog

/-! ## The log as a redo log -/

/-- A transaction's block list: no block twice, at most `size - 1` (and less than `LOGSIZE`) of
    them, and each number a C `int`. -/
structure Fits (size : Nat) (l : List Nat) : Prop where
  len : l.length ≤ size - 1
  max : l.length < LOGSIZE
  small : ∀ b ∈ l, b < 4294967296
  nodup : l.Nodup

/-- The log region `[start, start + size)` as a redo log.  A header that would overrun
    `log.lh.block` reads as a list that does not fit. -/
def logLayout (start size : Nat) : RedoLog.Layout Block where
  start := start
  cap := size - 1
  enc := writeHdr
  dec d := (readHdr d).getD (List.replicate LOGSIZE 0)
  Fits := Fits size
  fits_nil := ⟨Nat.zero_le _, by decide, fun _ hb => absurd hb List.not_mem_nil, List.nodup_nil⟩
  fits_len h := h.len
  dec_enc h _ hl := by rw [readHdr_writeHdr h (Nat.le_of_lt hl.max) hl.small]; rfl

namespace Mach

/-! ## Pins by block number -/

/-- `q` extra references on the buffers that hold the blocks of `l`. -/
def pinsOf (s : Mach) (q : Nat) (l : List Nat) (i : Nat) : Nat :=
  if (s.buf i).dev = ROOTDEV ∧ (s.buf i).blockno ∈ l then q else 0

/-- The cache in order, with the blocks of `l` cached and pinned `q` times. -/
structure Pinned (s : Mach) (q : Nat) (l : List Nat) (T : Nat → Prop) (H : List Nat) : Prop where
  pos : 0 < q
  lt : q < 4294967296
  inv : s.Inv T H (s.pinsOf q l)
  cached : ∀ b ∈ l, ∃ i, i < NBUF ∧ (s.buf i).dev = ROOTDEV ∧ (s.buf i).blockno = b

variable {s s' : Mach} {T : Nat → Prop} {H l : List Nat} {P P' : Nat → Nat} {b i q : Nat}

variable {j tail x : Nat} {bs l' : List Nat} {ws : List (Nat × Block)}

/-- Only the pins of real buffers count. -/
theorem Inv.congr_pins (hI : s.Inv T H P) (h : ∀ i, i < NBUF → P' i = P i) : s.Inv T H P' :=
  { hI with
    refs := fun i hi => by rw [h i hi]; exact hI.refs i hi
    pinned := fun i hi hp => hI.pinned i hi (by rw [← h i hi]; exact hp) }

/-- The pins depend on which block each buffer holds, on nothing else. -/
theorem pinsOf_congr (hd : (s'.buf i).dev = (s.buf i).dev)
    (hb : (s'.buf i).blockno = (s.buf i).blockno) : s'.pinsOf q l i = s.pinsOf q l i := by
  simp only [pinsOf, hd, hb]

section

variable (hP : s.Pinned q l T H)
include hP

/-- A buffer nobody holds and nobody pins exists as long as there are fewer of these than buffers. -/
theorem Pinned.free (hlen : H.length + l.length < NBUF) : ∃ i, i < NBUF ∧ (s.buf i).refcnt = 0 := by
  -- the held and the pinned buffers do not fill the cache
  let pin := (Finset.range NBUF).filter fun i => s.pinsOf q l i ≠ 0
  have hpin : pin.card ≤ l.toFinset.card := by
    refine Finset.card_le_card_of_injOn (fun i => (s.buf i).blockno) (fun i hi => ?_) ?_
    · have h := (Finset.mem_filter.mp hi).2
      simp only [pinsOf] at h
      split at h
      · next hc => exact mem_toFinset.mpr hc.2
      · exact absurd rfl h
    · intro i hi j hj hij
      have hi' := Finset.mem_filter.mp hi
      have hj' := Finset.mem_filter.mp hj
      exact hP.inv.keys i j (Finset.mem_range.mp hi'.1) (Finset.mem_range.mp hj'.1)
        (hP.inv.pinned i (Finset.mem_range.mp hi'.1) hi'.2).1
        (hP.inv.pinned j (Finset.mem_range.mp hj'.1) hj'.2).1 hij
  have hcard : (H.toFinset ∪ pin).card < (Finset.range NBUF).card := by grind [toFinset_card_le]
  obtain ⟨i, hi, hn⟩ := Finset.exists_mem_notMem_of_card_lt_card hcard
  have hlt := Finset.mem_range.mp hi
  have hH : i ∉ H := fun h => hn (Finset.mem_union_left _ (mem_toFinset.mpr h))
  have hp : s.pinsOf q l i = 0 := by
    by_contra h
    exact hn (Finset.mem_union_right _ (Finset.mem_filter.mpr ⟨hi, h⟩))
  refine ⟨i, hlt, ?_⟩
  rw [hP.inv.refs i hlt, hp, count_eq_zero_of_not_mem hH]

theorem Pinned.pins_lt (j : Nat) : s.pinsOf q l j < 4294967296 := by
  have := hP.lt
  unfold pinsOf; split <;> omega

/-- A recycled buffer carried no pin. -/
theorem Pinned.not_pinned (hj : j < NBUF) (hH : j ∉ H)
    (href : (s.buf j).refcnt = 0) : s.pinsOf q l j = 0 := by
  have h := hP.inv.refs j hj
  have := hP.pins_lt j
  rw [href, count_eq_zero_of_not_mem hH] at h
  omega

omit hP in
theorem Fetched.pins (hF : Fetched s b i s') (hP : s.Pinned q l T H)
    (hj : j < NBUF) : s'.pinsOf q l j = s.pinsOf q l j := by
  by_cases hji : j = i
  · subst hji
    rcases hF.src with ⟨hd, hb, -⟩ | ⟨href, -, hno⟩
    · exact pinsOf_congr (hF.dev.trans hd.symm) (hF.blockno.trans hb.symm)
    · -- the block the recycled buffer now holds was not cached, hence not pinned
      have hb : b ∉ l := fun hm => by
        obtain ⟨k, hk, hdk, hbk⟩ := hP.cached b hm
        exact hno k hk hdk hbk
      rw [hP.not_pinned hj (hF.not_held hP.inv) href, pinsOf, hF.blockno, if_neg fun h => hb h.2]
  · simp only [pinsOf, hF.others j hji]

omit hP in
theorem Fetched.pinned (hF : Fetched s b i s') (hP : s.Pinned q l T H) : s'.Pinned q l T (i :: H) := by
  refine ⟨hP.pos, hP.lt, (hF.inv hP.inv).congr_pins fun j hj => hF.pins hP hj, fun c hc => ?_⟩
  obtain ⟨k, hk, hdk, hbk⟩ := hP.cached c hc
  by_cases hki : k = i
  · subst hki
    rcases hF.src with ⟨-, hb, -⟩ | ⟨href, -, -⟩
    · exact ⟨k, hk, hF.dev, hF.blockno.trans (hb.symm.trans hbk)⟩
    · -- a pinned buffer is not recycled
      have h0 := hP.not_pinned hk (hF.not_held hP.inv) href
      rw [pinsOf, if_pos ⟨hdk, hbk ▸ hc⟩] at h0
      exact absurd h0 (Nat.ne_of_gt hP.pos)
  · exact ⟨k, hk, by rw [hF.others k hki]; exact hdk, by rw [hF.others k hki]; exact hbk⟩

/-- `bread` under `Pinned`: it comes back if the block is pinned or a buffer is left over.  (A held
    buffer that also carries `2 ^ 32 - 1` pins counts as free.) -/
theorem Pinned.bread (hb : ∀ i ∈ H, (s.buf i).blockno ≠ b) (hroom : b ∈ l ∨ H.length + l.length < NBUF)
    (hH : q < 4294967295 ∨ ∀ i ∈ H, (s.buf i).blockno ∉ l) :
    ∃ i s', s.bread ROOTDEV b = .ok (i, s') ∧ Fetched s b i s' ∧ s'.Pinned q l T (i :: H) := by
  have hex : ∃ i s', s.bread ROOTDEV b = .ok (i, s') := by
    refine bread_exists hP.inv hb ?_ fun i hi => ?_
    · rcases hroom with hm | hlen
      · exact .inl (hP.cached b hm)
      · exact .inr (hP.free hlen)
    · have hone : H.count i = 1 := count_eq_one_of_mem hP.inv.nodup hi
      rw [hP.inv.refs i (hP.inv.held i hi).1, hone, pinsOf]
      rcases hH with hq | hH
      · split <;> omega
      · rw [if_neg fun h => hH i hi h.2]
        decide
  obtain ⟨i, s', h⟩ := hex
  have hF := bread_fetched hP.inv.perm h
  exact ⟨i, s', h, hF, hF.pinned hP⟩

/-- Any change that keeps which block every buffer holds keeps the pins. -/
theorem Pinned.of_inv {H' : List Nat} (hI : s'.Inv T H' (s.pinsOf q l))
    (h : ∀ j, (s'.buf j).dev = (s.buf j).dev ∧ (s'.buf j).blockno = (s.buf j).blockno) :
    s'.Pinned q l T H' := by
  refine ⟨hP.pos, hP.lt, hI.congr_pins fun j _ => pinsOf_congr (h j).1 (h j).2, fun c hc => ?_⟩
  obtain ⟨k, hk, hdk, hbk⟩ := hP.cached c hc
  exact ⟨k, hk, (h k).1.trans hdk, (h k).2.trans hbk⟩

omit hP in
theorem updBuf_key (s : Mach) (i : Nat) {f : Buf → Buf} (hd : ∀ b, (f b).dev = b.dev)
    (hb : ∀ b, (f b).blockno = b.blockno) (j : Nat) :
    ((s.updBuf i f).buf j).dev = (s.buf j).dev ∧ ((s.updBuf i f).buf j).blockno = (s.buf j).blockno := by
  by_cases hji : j = i
  · subst hji; rw [updBuf_self]; exact ⟨hd _, hb _⟩
  · rw [updBuf_ne _ _ hji]; exact ⟨rfl, rfl⟩

omit hP in
theorem setData_blockno (s : Mach) (i j : Nat) (d : Block) :
    ((s.setData i d).buf j).blockno = (s.buf j).blockno :=
  (updBuf_key s i (f := fun b => { b with data := d }) (fun _ => rfl) (fun _ => rfl) j).2

omit hP in
theorem bpin_blockno (s : Mach) (i j : Nat) : ((s.bpin i).buf j).blockno = (s.buf j).blockno :=
  (updBuf_key s i (f := fun b => { b with refcnt := inc32 b.refcnt }) (fun _ => rfl) (fun _ => rfl) j).2

theorem Pinned.setData (hi : i ∈ H) (d : Block) : (s.setData i d).Pinned q l T H :=
  hP.of_inv (setData_inv hP.inv hi d) (updBuf_key s i (fun _ => rfl) fun _ => rfl)

theorem Pinned.diskWrite (hi : i ∈ H) : (s.diskWrite i).Pinned q l T H :=
  hP.of_inv (diskWrite_inv hP.inv hi) fun _ => ⟨rfl, rfl⟩

theorem Pinned.drop (hi : i ∈ H) (hcl : (s.buf i).blockno ∉ l → ¬ T (s.buf i).blockno →
      (s.buf i).data = s.disk (s.buf i).blockno) : (s.drop i).Pinned q l T (H.erase i) := by
  refine hP.of_inv (drop_inv hP.inv hi fun h0 hT => hcl (fun hm => ?_) hT) fun j =>
    ⟨(drop_copy s i j).1, (drop_copy s i j).2.1⟩
  rw [pinsOf, if_pos ⟨(hP.inv.held i hi).2.1, hm⟩] at h0
  have := hP.pos
  have := hP.lt
  omega

/-- Changing the pins of one held buffer, and the list at its block only. -/
theorem Pinned.repin (hi : i ∈ H) {f : Buf → Buf}
    (hd : ∀ b, (f b).dev = b.dev) (hb : ∀ b, (f b).blockno = b.blockno)
    (hI : (s.updBuf i f).Inv T H (update (s.pinsOf q l) i (if (s.buf i).blockno ∈ l' then q else 0)))
    (hmem : ∀ c, c ≠ (s.buf i).blockno → (c ∈ l' ↔ c ∈ l)) : (s.updBuf i f).Pinned q l' T H := by
  obtain ⟨hlt, hdev, -⟩ := hP.inv.held i hi
  have hkey := updBuf_key s i hd hb
  refine ⟨hP.pos, hP.lt, hI.congr_pins fun j hj => ?_, fun c hc => ?_⟩
  · rw [pinsOf_congr (hkey j).1 (hkey j).2]
    by_cases hji : j = i
    · subst hji
      rw [update_self, pinsOf]
      simp [hdev]
    · rw [update_of_ne hji, pinsOf, pinsOf]
      by_cases hdj : (s.buf j).dev = ROOTDEV
      · have hne : (s.buf j).blockno ≠ (s.buf i).blockno := fun h =>
          hji (hP.inv.keys j i hj hlt hdj hdev h)
        simp only [hdj, true_and, hmem _ hne]
      · rw [if_neg fun h => hdj h.1, if_neg fun h => hdj h.1]
  · grind [Pinned]

end

/-- A new pin: the block joins the list. -/
theorem Pinned.bpin (hP : s.Pinned 1 l T H) (hi : i ∈ H) (hb : (s.buf i).blockno ∉ l) :
    (s.bpin i).Pinned 1 (l ++ [(s.buf i).blockno]) T H := by
  have h0 : s.pinsOf 1 l i = 0 := by rw [pinsOf, if_neg fun h => hb h.2]
  refine hP.repin hi (fun _ => rfl) (fun _ => rfl) ?_ fun c hc => by simp [hc]
  have hI := bpin_inv hP.inv hi
  rw [h0] at hI
  rw [if_pos (by simp)]
  exact hI

/-- Dropping a pin that is there: the block leaves the list. -/
theorem Pinned.bunpin (hP : s.Pinned 1 (b :: l) T H) (hi : i ∈ H) (hb : (s.buf i).blockno = b)
    (hn : b ∉ l) : (s.bunpin i).Pinned 1 l T H := by
  have h1 : s.pinsOf 1 (b :: l) i = 1 := by
    rw [pinsOf, if_pos ⟨(hP.inv.held i hi).2.1, hb ▸ mem_cons_self ..⟩]
  refine hP.repin hi (fun _ => rfl) (fun _ => rfl) ?_ fun c hc => by simp [hb ▸ hc]
  rw [hb, if_neg hn]
  exact bunpin_inv hP.inv hi (by rw [h1])

/-- Dropping a pin that is NOT there: the count wraps, and the buffer is stuck with it. -/
theorem Pinned.bunpin_wrap (hP : s.Pinned 4294967295 l T H) (hi : i ∈ H) (hn : (s.buf i).blockno ∉ l) :
    (s.bunpin i).Pinned 4294967295 ((s.buf i).blockno :: l) T H := by
  have h0 : s.pinsOf 4294967295 l i = 0 := by rw [pinsOf, if_neg fun h => hn h.2]
  refine hP.repin hi (fun _ => rfl) (fun _ => rfl) ?_ fun c hc => by simp [hc]
  rw [if_pos (mem_cons_self ..)]
  exact bunpin_inv hP.inv hi (by rw [h0])

/-! ## Dirty blocks and the hooks -/

/-- The machine's own log region. -/
abbrev layout (s : Mach) : RedoLog.Layout Block := logLayout s.log.start s.log.size

theorem inLog_iff {start size b : Nat} :
    (logLayout start size).InLog b ↔ start ≤ b ∧ b ≤ start + (size - 1) := Iff.rfl

/-- The blocks of `l` may differ from the disk, and no hook makes `bread` forget that; the tainted
    blocks are neither among them nor in the log. -/
structure Calm (s : Mach) (l : List Nat) (T : Nat → Prop) : Prop where
  unforced : ∀ b ∈ l, s.forced b = false
  listed : ∀ b ∈ l, ¬ T b
  log : ∀ b, s.layout.InLog b → ¬ T b

/-- Nothing is tainted: what is not held and not pinned agrees with the disk. -/
abbrev None_ : Nat → Prop := fun _ => False

theorem HooksOff.calm (h : s.HooksOff) (l : List Nat) : s.Calm l None_ :=
  ⟨fun b _ => forced_off h b, fun _ _ => id, fun _ _ => id⟩

theorem Calm.mono (h : s.Calm l T) (hl : ∀ b ∈ l', b ∈ l) : s.Calm l' T :=
  ⟨fun b hb => h.unforced b (hl b hb), fun b hb => h.listed b (hl b hb), h.log⟩

theorem forced_congr (hp : s'.forceReadErrorPbn = s.forceReadErrorPbn)
    (hf : s'.forceDiskFailId = s.forceDiskFailId) (b : Nat) : s'.forced b = s.forced b := by
  rw [forced, hp, hf, forced]

/-- A block that is neither held nor pinned nor tainted is what the disk says. -/
theorem Pinned.view_disk (hP : s.Pinned q l T H) (hH : ∀ i ∈ H, (s.buf i).blockno ≠ b)
    (hb : b ∉ l) (hT : ¬ T b) : s.view b = s.disk b := by
  by_cases hc : ∃ i, i < NBUF ∧ s.caches b i = true
  · obtain ⟨i, hi, hci⟩ := hc
    obtain ⟨hd, hbi, hv⟩ := caches_iff.mp hci
    have hiH : i ∉ H := fun hm => hH i hm hbi
    have href : (s.buf i).refcnt = 0 := by
      rw [hP.inv.refs i hi, pinsOf, if_neg fun h => hb (hbi ▸ h.2), count_eq_zero_of_not_mem hiH]
    rw [hP.inv.view_cached hi hd hbi hv, ← hbi]
    exact hP.inv.clean i hi hiH href hd hv (hbi ▸ hT)
  · refine Mach.view_disk fun i hi => ?_
    by_contra h
    exact hc ⟨i, hi, by simpa using h⟩

/-- What `bread` returned was not held before. -/
theorem Fetched.unheld (hF : Fetched s b i s') (hI : s.Inv T H P) : ∀ j ∈ H, (s.buf j).blockno ≠ b := by
  intro j hj
  obtain ⟨hlt, hdev, -⟩ := hI.held j hj
  exact hF.unique hI.keys hlt (fun h => hF.not_held hI (h ▸ hj)) hdev

/-- Reading a calm block again changes nothing. -/
theorem Fetched.forced (hF : Fetched s b i s') (hP : s.Pinned q l T H) (hc : s.Calm l T)
    (hT : ¬ T b) (h : s.forced b = true) : s.view b = s.disk b := by
  refine hP.view_disk (hF.unheld hP.inv) (fun hb => ?_) hT
  rw [hc.unforced b hb] at h
  cases h

/-! ## Effects as write lists -/

/-- `s'` is `s` after the block writes `ws`, each of them visible at once, tainted blocks apart; the
    log's own fields and the hooks are as before. -/
structure Wrote (T : Nat → Prop) (s : Mach) (ws : List (Nat × Block)) (s' : Mach) : Prop where
  me : s'.me = s.me
  log : s'.log = s.log
  pbn : s'.forceReadErrorPbn = s.forceReadErrorPbn
  fail : s'.forceDiskFailId = s.forceDiskFailId
  disk : s'.disk = RedoLog.apply s.disk ws
  writes : s'.writes = s.writes ++ ws
  view : ∀ b, ¬ T b → s'.view b = RedoLog.apply s.view ws b

theorem Wrote.refl (s : Mach) : Wrote T s [] s :=
  ⟨rfl, rfl, rfl, rfl, rfl, (append_nil _).symm, fun _ _ => rfl⟩

theorem Wrote.trans {s1 s2 s3 : Mach} {ws ws' : List (Nat × Block)} (h : Wrote T s1 ws s2)
    (h' : Wrote T s2 ws' s3) : Wrote T s1 (ws ++ ws') s3 :=
  ⟨h'.me.trans h.me, h'.log.trans h.log, h'.pbn.trans h.pbn, h'.fail.trans h.fail,
    by rw [h'.disk, h.disk, apply_append], by rw [h'.writes, h.writes, append_assoc],
    fun b hb => by
      rw [h'.view b hb, apply_append]
      exact apply_congr fun _ => h.view b hb⟩

theorem Wrote.hooksOff (h : Wrote T s ws s') (hs : s.HooksOff) :
    s'.HooksOff := ⟨h.pbn.trans hs.1, h.fail.trans hs.2⟩

theorem Wrote.calm (h : Wrote T s ws s') (hc : s.Calm l T) : s'.Calm l T := by
  refine ⟨fun b hb => ?_, hc.listed, ?_⟩
  · rw [forced_congr h.pbn h.fail]; exact hc.unforced b hb
  · rw [layout, h.log]; exact hc.log

theorem Wrote.view_eq (h : Wrote None_ s ws s') : s'.view = apply s.view ws := funext fun b => h.view b id

/-- A `bread` writes nothing. -/
theorem Fetched.wrote (hF : Fetched s b i s') (hP : s.Pinned q l T H) (hc : s.Calm l T) : Wrote T s [] s' :=
  ⟨hF.frame.me, hF.frame.log, hF.frame.pbn, hF.frame.fail, hF.frame.disk,
    by rw [hF.frame.writes, append_nil], fun c hT =>
      hF.view hP.inv hT fun hcb => hF.forced hP hc (hcb ▸ hT)⟩

theorem drop_wrote (s : Mach) (i : Nat) : Wrote T s [] (s.drop i) :=
  ⟨rfl, rfl, rfl, rfl, rfl, (append_nil _).symm, fun _ _ => congrFun (view_drop s i) _⟩

theorem bunpin_wrote (s : Mach) (i : Nat) : Wrote T s [] (s.bunpin i) :=
  ⟨rfl, rfl, rfl, rfl, rfl, (append_nil _).symm, fun _ _ => congrFun (view_bunpin s i) _⟩

/-- `memmove` into a held buffer and `bwrite`: one write, seen at once. -/
theorem store_wrote (hI : s.Inv T H P) (hi : i ∈ H) (d : Block) :
    Wrote T s [((s.buf i).blockno, d)] ((s.setData i d).diskWrite i) := by
  have hself : (s.setData i d).buf i = { s.buf i with data := d } := updBuf_self ..
  refine ⟨rfl, rfl, rfl, rfl, ?_, ?_, ?_⟩
  · change update s.disk ((s.setData i d).buf i).blockno ((s.setData i d).buf i).data = _
    rw [hself]; rfl
  · change s.writes ++ [(((s.setData i d).buf i).blockno, ((s.setData i d).buf i).data)] = _
    rw [hself]
  · intro c _
    rw [view_diskWrite (setData_inv hI hi d) hi]
    rw [view_setData hI hi, apply_cons, apply_nil, update_apply]

/-- After `memmove` and `bwrite` the buffer agrees with the disk. -/
theorem store_clean (s : Mach) (i : Nat) (d : Block) : (((s.setData i d).diskWrite i).buf i).data =
      ((s.setData i d).diskWrite i).disk (((s.setData i d).diskWrite i).buf i).blockno := by
  change ((s.setData i d).buf i).data =
    update s.disk ((s.setData i d).buf i).blockno ((s.setData i d).buf i).data
      ((s.setData i d).buf i).blockno
  rw [update_self]

theorem store_blockno (s : Mach) (i j : Nat) (d : Block) :
    (((s.setData i d).diskWrite i).buf j).blockno = (s.buf j).blockno := setData_blockno s i j d

theorem store_ne (s : Mach) {i j : Nat} (d : Block) (h : j ≠ i) :
    ((s.setData i d).diskWrite i).buf j = s.buf j :=
  updBuf_ne s (fun b => { b with data := d }) h

/-! ## `writeHead` -/

theorem Calm.start (hc : s.Calm l T) : ¬ T s.log.start :=
  hc.log _ (inLog_iff.mpr ⟨le_rfl, Nat.le_add_right ..⟩)

/-- `write_head` writes the in-memory header to the header block. -/
theorem writeHead_run (hP : s.Pinned q l T []) (hc : s.Calm l T) (hroom : l.length < NBUF) :
    ∃ s', s.writeHead = .ok s' ∧ Wrote T s [(s.log.start, writeHdr (s.view s.log.start) s.log.lh)] s' ∧
      s'.Pinned q l T [] := by
  obtain ⟨i, s1, hb, hF, hP1⟩ := hP.bread (b := s.log.start) (by simp) (.inr (by simpa using hroom))
    (.inr (by simp))
  have hi : i ∈ [i] := mem_singleton_self i
  have hnew : writeHdr (s1.buf i).data s1.log.lh = writeHdr (s.view s.log.start) s.log.lh := by
    rw [hF.data hP.inv (hF.forced hP hc hc.start), hF.frame.log]
  generalize writeHdr (s.view s.log.start) s.log.lh = d at hnew ⊢
  have hP2 := (hP1.setData hi d).diskWrite hi
  have hP3 := hP2.drop hi fun _ _ => store_clean ..
  refine ⟨_, ?_, ?_, by simpa using hP3⟩
  · simp only [writeHead, hb, bind, Except.bind, hnew]
    rw [bwrite_ok (hP1.setData hi d).inv hi]
    exact brelse_ok hP2.inv hi
  · have h := ((hF.wrote hP hc).trans (store_wrote hP1.inv hi d)).trans (drop_wrote _ i)
    rw [hF.blockno] at h
    simpa using h

/-! ## The copying loops -/

/-- Two `bread`s in a row, of two blocks: both are held, both as `view` had them. -/
theorem Pinned.bread2 (hP : s.Pinned q l T []) (hc : s.Calm l T) (hx : x ∉ l)
    (hTx : ¬ T x) (hTb : ¬ T b) (hbx : b ≠ x) (hroom : l.length < NBUF)
    (hb : b ∈ l ∨ 1 + l.length < NBUF) :
    ∃ i j s1 s2, s.bread ROOTDEV x = .ok (i, s1) ∧ s1.bread ROOTDEV b = .ok (j, s2) ∧
      s2.Pinned q l T [j, i] ∧ Wrote T s [] s2 ∧ i ≠ j ∧
      (s2.buf i).blockno = x ∧ (s2.buf j).blockno = b ∧
      (s2.buf i).data = s.view x ∧ (s2.buf j).data = s.view b := by
  obtain ⟨i, s1, h1, hF1, hP1⟩ := hP.bread (b := x) (by simp) (.inr (by simpa using hroom)) (.inr (by simp))
  have hone : ∀ k ∈ [i], (s1.buf k).blockno = x := fun k hk => by
    rw [mem_singleton.mp hk]; exact hF1.blockno
  obtain ⟨j, s2, h2, hF2, hP2⟩ := hP1.bread (b := b)
    (fun k hk => by rw [hone k hk]; exact hbx.symm) (by simpa using hb)
    (.inr fun k hk => by rw [hone k hk]; exact hx)
  have hij : i ≠ j := by
    have := hP2.inv.nodup
    simp only [nodup_cons, mem_singleton] at this
    exact fun h => this.1 h.symm
  have hw1 := hF1.wrote hP hc
  have hw2 := hF2.wrote hP1 (hw1.calm hc)
  have hbuf : s2.buf i = s1.buf i := hF2.others i hij
  refine ⟨i, j, s1, s2, h1, h2, hP2, by simpa using hw1.trans hw2, hij, ?_, hF2.blockno, ?_, ?_⟩
  · rw [hbuf, hF1.blockno]
  · rw [hbuf, hF1.data hP.inv (hF1.forced hP hc hTx)]
  · rw [hF2.data hP1.inv (hF2.forced hP1 (hw1.calm hc) hTb), hw1.view b hTb]; rfl

/-- One round of `write_log`. -/
theorem writeLog_step (hP : s.Pinned 1 l T []) (hc : s.Calm l T) (hb : b ∈ l)
    (hx : s.log.start + tail + 1 ∉ l) (hTx : ¬ T (s.log.start + tail + 1)) (hroom : l.length < NBUF)
    (bs : List Nat) :
    ∃ s', Wrote T s [(s.log.start + tail + 1, s.view b)] s' ∧ s'.Pinned 1 l T [] ∧
      writeLog tail (b :: bs) s = writeLog (tail + 1) bs s' := by
  obtain ⟨i, j, s1, s2, h1, h2, hP2, hw, hij, hbi, hbj, -, hdj⟩ :=
    hP.bread2 hc hx hTx (hc.listed b hb) (fun h => hx (h ▸ hb)) hroom (.inl hb)
  have hi : i ∈ [j, i] := by simp
  have hP3 := (hP2.setData hi (s.view b)).diskWrite hi
  have hbno := store_blockno s2 i j (s.view b)
  have hP4 := hP3.drop (i := j) (by simp) fun hn => absurd (hbno ▸ hbj ▸ hb) hn
  have hP5 := hP4.drop (i := i) (by simp) fun _ _ => by
    rw [drop_ne _ hij]; exact store_clean ..
  refine ⟨_, ?_, by simpa [hij] using hP5, ?_⟩
  · have h := ((hw.trans (store_wrote hP2.inv hi (s.view b))).trans (drop_wrote _ j)).trans (drop_wrote _ i)
    rw [hbi] at h
    simpa using h
  · rw [writeLog]
    simp only [h1, h2, bind, Except.bind, hdj]
    rw [bwrite_ok (hP2.setData hi _).inv hi]
    simp only
    rw [brelse_ok hP3.inv (by simp)]
    simp only
    rw [brelse_ok hP4.inv (by simp)]

/-- The body of `install_trans` up to its `bunpin`. -/
theorem install_core (hP : s.Pinned q l T []) (hc : s.Calm l T) (hx : x ∉ l)
    (hTx : ¬ T x) (hTb : ¬ T b) (hbx : b ≠ x) (hroom : l.length < NBUF)
    (hb : b ∈ l ∨ 1 + l.length < NBUF) :
    ∃ i j s1 s2 s3, s.bread ROOTDEV x = .ok (i, s1) ∧ s1.bread ROOTDEV b = .ok (j, s2) ∧
      (s2.setData j (s2.buf i).data).bwrite j = .ok s3 ∧ i ≠ j ∧
      Wrote T s [(b, s.view x)] s3 ∧ s3.Pinned q l T [j, i] ∧ (s3.buf j).blockno = b ∧
      (∀ k ∈ [j, i], (s3.buf k).data = s3.disk (s3.buf k).blockno) := by
  obtain ⟨i, j, s1, s2, h1, h2, hP2, hw, hij, hbi, hbj, hdi, -⟩ :=
    hP.bread2 hc hx hTx hTb hbx hroom hb
  have hj : j ∈ [j, i] := by simp
  have hstore := store_wrote hP2.inv hj (s.view x)
  refine ⟨i, j, s1, s2, _, h1, h2, by rw [hdi]; exact bwrite_ok (hP2.setData hj _).inv hj, hij, ?_,
    (hP2.setData hj (s.view x)).diskWrite hj, by rw [store_blockno, hbj], fun k hk => ?_⟩
  · have h := hw.trans hstore
    rwa [hbj] at h
  · rcases mem_cons.mp hk with rfl | hk
    · exact store_clean ..
    · obtain rfl := mem_singleton.mp hk
      rw [store_ne _ _ hij, hdi, hbi, hstore.disk, hbj, apply_cons, apply_nil,
        update_of_ne hbx.symm, hP.view_disk (by simp) hx hTx, hw.disk]
      rfl

theorem bunpin_copy (s : Mach) (j k : Nat) : ((s.bunpin j).buf k).data = (s.buf k).data ∧
    ((s.bunpin j).buf k).blockno = (s.buf k).blockno := by
  by_cases hk : k = j
  · subst hk
    rw [bunpin_self]; exact ⟨rfl, rfl⟩
  · rw [bunpin_ne _ hk]; exact ⟨rfl, rfl⟩

/-- The end of the body: `bunpin`, whatever it does to the pins, and the two releases. -/
theorem install_finish {s3 : Mach} (hij : i ≠ j) (hP : (s3.bunpin j).Pinned q l' T [j, i])
    (hcl : ∀ k ∈ [j, i], (s3.buf k).data = s3.disk (s3.buf k).blockno) :
    (do let s ← (s3.bunpin j).brelse i; s.brelse j) = .ok (((s3.bunpin j).drop i).drop j) ∧
      Wrote T s3 [] (((s3.bunpin j).drop i).drop j) ∧
      (((s3.bunpin j).drop i).drop j).Pinned q l' T [] := by
  have hsame := bunpin_copy s3 j
  have hP1 := hP.drop (i := i) (by simp) fun _ _ => by
    rw [(hsame i).1, (hsame i).2]; exact hcl i (by simp)
  have hP2 := hP1.drop (i := j) (by simp [hij.symm]) fun _ _ => by
    rw [drop_ne _ hij.symm, (hsame j).1, (hsame j).2]; exact hcl j (by simp)
  refine ⟨?_, ?_, by simpa [hij.symm] using hP2⟩
  · rw [brelse_ok hP.inv (by simp)]
    exact brelse_ok hP1.inv (by simp [hij.symm])
  · simpa using ((bunpin_wrote s3 j).trans (drop_wrote _ i)).trans (drop_wrote _ j)

/-! ## Whole runs of the loops -/

/-- `write_log` copies the listed blocks, as the cache has them, into the log. -/
theorem writeLog_run (hP : s.Pinned 1 l T []) (hc : s.Calm l T)
    (hsub : ∀ b ∈ bs, b ∈ l) (hhome : ∀ b ∈ l, ¬ s.layout.InLog b)
    (htail : tail + bs.length ≤ s.log.size - 1) (hroom : l.length < NBUF) :
    ∃ s', writeLog tail bs s = .ok s' ∧ Wrote T s (s.layout.logWrites s.view tail bs) s' ∧
      s'.Pinned 1 l T [] := by
  induction bs generalizing s tail with
  | nil => exact ⟨s, rfl, Wrote.refl s, hP⟩
  | cons b bs ih =>
    rw [length_cons] at htail
    have hin : s.layout.InLog (s.log.start + tail + 1) := inLog_iff.mpr ⟨by omega, by omega⟩
    have hx : s.log.start + tail + 1 ∉ l := fun h => hhome _ h hin
    obtain ⟨s1, hw, hP1, hstep⟩ :=
      writeLog_step hP hc (hsub b (mem_cons_self ..)) hx (hc.log _ hin) hroom bs
    have hL : s1.layout = s.layout := by rw [layout, hw.log]
    obtain ⟨s', hrun, hw', hP'⟩ := @ih s1 (tail + 1) hP1 (hw.calm hc)
      (fun c hc => hsub c (mem_cons_of_mem _ hc)) (by rwa [hL]) (by rw [hw.log]; omega)
    refine ⟨s', hstep.trans hrun, ?_, hP'⟩
    -- the log block just written is none of those still to be copied
    have hsame : s1.layout.logWrites s1.view (tail + 1) bs = s.layout.logWrites s.view (tail + 1) bs := by
      grind [Calm, Wrote, Layout.logWrites_congr, apply_of_notMem]
    have h := hw.trans hw'
    rw [hsame, show s.log.start + tail + 1 = s.log.start + 1 + tail by omega] at h
    exact h

/-- One round of `install_trans` copies a log block home and turns `F (b :: bs)` into `F bs`. -/
def InstallRound (T : Nat → Prop) (F : List Nat → Mach → Prop) : Prop :=
  ∀ ⦃b bs s x tail⦄, F (b :: bs) s → x = s.log.start + tail + 1 →
    s.layout.InLog x → (∀ c ∈ b :: bs, ¬ s.layout.InLog c) →
    ∃ s', Wrote T s [(b, s.view x)] s' ∧ F bs s' ∧
      installTrans tail (b :: bs) s = installTrans (tail + 1) bs s'

/-- The loop, for both of its callers. -/
theorem install_run {F : List Nat → Mach → Prop} (hF : InstallRound T F)
    (h : F bs s) (hlog : ∀ b, s.layout.InLog b → ¬ T b)
    (hhome : ∀ b ∈ bs, ¬ s.layout.InLog b) (htail : tail + bs.length ≤ s.log.size - 1) :
    ∃ s', installTrans tail bs s = .ok s' ∧ Wrote T s (s.layout.installs s.view tail bs) s' ∧ F [] s' := by
  induction bs generalizing s tail with
  | nil => exact ⟨s, rfl, Wrote.refl s, h⟩
  | cons b bs ih =>
    rw [length_cons] at htail
    have hx : s.layout.InLog (s.log.start + tail + 1) := inLog_iff.mpr ⟨by omega, by omega⟩
    obtain ⟨s1, hw, h1, hstep⟩ := hF h rfl hx hhome
    have hL : s1.layout = s.layout := by rw [layout, hw.log]
    obtain ⟨s', hrun, hw', h'⟩ := @ih s1 (tail + 1) h1 (by rwa [hL])
      (fun c hc => by rw [hL]; exact hhome c (mem_cons_of_mem _ hc)) (by rw [hw.log]; omega)
    refine ⟨s', hstep.trans hrun, ?_, h'⟩
    have hsame : s1.layout.installs s1.view (tail + 1) bs = s.layout.installs s.view (tail + 1) bs := by
      rw [hL]
      refine RedoLog.Layout.installs_congr fun j hj => ?_
      have hin : s.layout.InLog (s.log.start + 1 + (tail + 1 + j)) :=
        inLog_iff.mpr ⟨by omega, by omega⟩
      show s1.view (s.log.start + 1 + (tail + 1 + j)) = _
      rw [hw.view _ (hlog _ hin), apply_of_notMem]
      · rfl
      intro w hm
      obtain rfl := mem_singleton.mp hm
      rintro (hbj : b = s.log.start + 1 + (tail + 1 + j))
      exact hhome b (mem_cons_self ..) (hbj ▸ hin)
    have h := hw.trans hw'
    rw [hsame, show s.log.start + tail + 1 = s.log.start + 1 + tail by omega] at h
    exact h

/-- One round of `install_trans` with a `bunpin` that turns the pins `l` into `l'`. -/
theorem install_step (hP : s.Pinned q l T []) (hc : s.Calm l T)
    (hx : x ∉ l) (hTx : ¬ T x) (hTb : ¬ T b) (hbx : b ≠ x) (hroom : l.length < NBUF)
    (hb : b ∈ l ∨ 1 + l.length < NBUF) (htail : x = s.log.start + tail + 1)
    (hpin : ∀ {s : Mach} {H : List Nat} {j : Nat}, s.Pinned q l T H → j ∈ H →
      (s.buf j).blockno = b → (s.bunpin j).Pinned q l' T H) (bs : List Nat) :
    ∃ s', Wrote T s [(b, s.view x)] s' ∧ s'.Pinned q l' T [] ∧
      installTrans tail (b :: bs) s = installTrans (tail + 1) bs s' := by
  obtain ⟨i, j, s1, s2, s3, h1, h2, h3, hij, hw, hP3, hbj, hcl⟩ :=
    install_core hP hc hx hTx hTb hbx hroom hb
  obtain ⟨hrel, hw', hP'⟩ := install_finish hij (hpin hP3 (by simp) hbj) hcl
  refine ⟨_, by simpa using hw.trans hw', hP', ?_⟩
  rw [htail] at h1
  rw [installTrans]
  simp only [h1, h2, h3, bind, Except.bind]
  obtain ⟨s4, h4, h5⟩ := bind_ok hrel
  simp only [h4, h5]

/-- `install_trans` in `commit`: every round drops the pin `log_write` took. -/
theorem install_commit (hP : s.Pinned 1 bs T []) (hc : s.Calm bs T)
    (hnd : bs.Nodup) (hhome : ∀ b ∈ bs, ¬ s.layout.InLog b) (hlen : bs.length ≤ s.log.size - 1)
    (hroom : bs.length < NBUF) :
    ∃ s', installTrans 0 bs s = .ok s' ∧ Wrote T s (s.layout.installs s.view 0 bs) s' ∧
      s'.Pinned 1 [] T [] := by
  let F (bs : List Nat) (s : Mach) :=
    s.Pinned 1 bs T [] ∧ s.Calm bs T ∧ bs.Nodup ∧ bs.length < NBUF
  have hround : InstallRound T F := by
    rintro b bs s x tail ⟨hP, hc, hnd, hroom⟩ htail hx hhome
    have hxl : x ∉ b :: bs := fun h => hhome x h hx
    rw [nodup_cons] at hnd
    obtain ⟨s', hw, hP', hstep⟩ := install_step hP hc hxl (hc.log x hx)
      (hc.listed b (mem_cons_self ..)) (fun h => hxl (h ▸ mem_cons_self ..)) hroom
      (.inl (mem_cons_self ..)) htail (fun hP hj hbj => hP.bunpin hj hbj hnd.1) bs
    refine ⟨s', hw, ⟨hP', ?_, hnd.2, by rw [length_cons] at hroom; omega⟩, hstep⟩
    exact hw.calm (hc.mono fun c hm => mem_cons_of_mem _ hm)
  obtain ⟨s', hrun, hw, hF⟩ := install_run hround ⟨hP, hc, hnd, hroom⟩ hc.log hhome
    (show 0 + bs.length ≤ _ by omega)
  exact ⟨s', hrun, hw, hF.1⟩

/-- `install_trans` in recovery: nothing was pinned, and every round leaves one more buffer with
    the count `2 ^ 32 - 1`.  The loop still ends: a log that fits keeps one buffer free. -/
theorem install_recover (hP : s.Pinned 4294967295 [] None_ []) (hoff : s.HooksOff)
    (hnd : bs.Nodup) (hhome : ∀ b ∈ bs, ¬ s.layout.InLog b) (hlen : bs.length ≤ s.log.size - 1)
    (hroom : bs.length < NBUF) :
    ∃ s', installTrans 0 bs s = .ok s' ∧ Wrote None_ s (s.layout.installs s.view 0 bs) s' ∧
      ∃ done, done.length = bs.length ∧ s'.Pinned 4294967295 done None_ [] := by
  let F (todo : List Nat) (s : Mach) := ∃ done, s.Pinned 4294967295 done None_ [] ∧ s.HooksOff ∧
    (todo ++ done).Nodup ∧ (∀ b ∈ done, ¬ s.layout.InLog b) ∧ todo.length + done.length = bs.length
  have hround : InstallRound None_ F := by
    rintro b todo s x tail ⟨done, hP, hoff, hnd, hdone, hcount⟩ htail hx hhome
    rw [cons_append, nodup_cons] at hnd
    have hb : b ∉ done := fun h => hnd.1 (mem_append_right _ h)
    rw [length_cons] at hcount
    have hbx : b ≠ x := fun h => hhome b (mem_cons_self ..) (h ▸ hx)
    obtain ⟨s', hw, hP', hstep⟩ := install_step hP (hoff.calm _) (fun h => hdone x h hx) id id hbx
      (by omega) (.inr (by omega)) htail
      (fun {s H j} hP hj hbj => by
        have h := hP.bunpin_wrap hj (by rw [hbj]; exact hb)
        rwa [hbj] at h) todo
    refine ⟨s', hw, ⟨b :: done, hP', hw.hooksOff hoff, ?_, fun c hc => ?_,
      by rw [length_cons]; omega⟩, hstep⟩
    · exact perm_middle.nodup_iff.mpr (nodup_cons.mpr hnd)
    · grind [Wrote]
  obtain ⟨s', hrun, hw, done, hP', -, -, -, hcount⟩ := install_run hround
    ⟨[], hP, hoff, by simpa using hnd, by simp, by simp⟩ (fun _ _ => id) hhome
    (show 0 + bs.length ≤ _ by omega)
  exact ⟨s', hrun, hw, done, by simpa using hcount, hP'⟩

/-! ## The log's own fields -/

theorem bget_log {dev : Nat} (h : s.bget dev b = .ok (i, s')) : s'.log = s.log := by
  rcases (bget_cases h).2 with ⟨-, rfl⟩ | ⟨-, -, rfl⟩
  · rfl
  · rfl

theorem bread_log {dev : Nat} (h : s.bread dev b = .ok (i, s')) : s'.log = s.log := by
  rw [bread_eq] at h
  obtain ⟨⟨j, s1⟩, h1, h2⟩ := bind_ok h
  obtain ⟨rfl, rfl⟩ := Prod.mk.inj (Except.ok.inj h2)
  exact (fetch_frame s1 j).log.trans (bget_log h1)

theorem bwrite_log (h : s.bwrite i = .ok s') : s'.log = s.log := by
  unfold bwrite at h
  split at h
  · obtain rfl := Except.ok.inj h; rfl
  · cases h

theorem brelse_log (h : s.brelse i = .ok s') : s'.log = s.log := by
  unfold brelse at h
  split at h
  · obtain rfl := Except.ok.inj h; rfl
  · cases h

theorem installTrans_log (h : installTrans tail bs s = .ok s') : s'.log = s.log := by
  induction bs generalizing s tail with
  | nil => obtain rfl := Except.ok.inj h; rfl
  | cons b bs ih =>
    obtain ⟨⟨l, s1⟩, h1, h⟩ := bind_ok h
    obtain ⟨⟨d, s2⟩, h2, h⟩ := bind_ok h
    obtain ⟨s3, h3, h⟩ := bind_ok h
    obtain ⟨s4, h4, h⟩ := bind_ok h
    obtain ⟨s5, h5, h⟩ := bind_ok h
    rw [ih h, brelse_log h5, brelse_log h4]
    exact (bwrite_log h3).trans ((bread_log h2).trans (bread_log h1))

theorem writeHead_log (h : s.writeHead = .ok s') : s'.log = s.log := by
  obtain ⟨⟨i, s1⟩, h1, h⟩ := bind_ok h
  obtain ⟨s2, h2, h⟩ := bind_ok h
  rw [brelse_log h, bwrite_log h2, ← bread_log h1]
  rfl

/-- Whatever recovery found, it leaves an empty list and nobody inside. -/
theorem recoverFromLog_log (h : s.recoverFromLog = .ok s') : s'.log = { s.log with lh := [] } := by
  obtain ⟨s1, h1, h⟩ := bind_ok h
  obtain ⟨s2, h2, h⟩ := bind_ok h
  have hread : ∃ lh, s1.log = { s.log with lh := lh } := by
    obtain ⟨⟨i, s0⟩, h0, h1⟩ := bind_ok h1
    dsimp only at h1
    cases hd : readHdr (s0.buf i).data with
    | none => rw [hd] at h1; cases h1
    | some lh =>
      rw [hd] at h1
      refine ⟨lh, (brelse_log h1).trans ?_⟩
      simp only [setLh, bread_log h0]
  obtain ⟨lh, hlh⟩ := hread
  rw [writeHead_log h]
  simp only [setLh, installTrans_log h2, hlh]

/-! ## `commit` and recovery -/

/-- The invariant does not look at the log's own fields. -/
theorem Pinned.withLog (hP : s.Pinned q l T H) (lg : Log) : ({ s with log := lg } : Mach).Pinned q l T H :=
  hP.of_inv { hP.inv with } fun _ => ⟨rfl, rfl⟩

theorem Pinned.setLh (hP : s.Pinned q l T H) (lh : List Nat) : (s.setLh lh).Pinned q l T H :=
  hP.withLog _

theorem Wrote.setLh (h : Wrote T s ws s') (lh : List Nat) : Wrote T (s.setLh lh) ws (s'.setLh lh) :=
  { h with log := by simp only [Mach.setLh, h.log] }

theorem Pinned.nil (hP : s.Pinned q [] T H) {q' : Nat} (hpos : 0 < q') (hlt : q' < 4294967296) :
    s.Pinned q' [] T H :=
  ⟨hpos, hlt, hP.inv.congr_pins fun i _ => by simp [pinsOf], hP.cached⟩

/-- No log copy lands on the header. -/
theorem start_notMem_logWrites {L : RedoLog.Layout Block} {v : Nat → Block} {k : Nat}
    : ∀ w ∈ L.logWrites v k bs, w.1 ≠ L.start := fun w hw => by
  have := RedoLog.Layout.logWrites_inLog hw
  omega

/-- `commit` writes what the redo log calls a commit, and drops every pin. -/
theorem commit_run (hP : s.Pinned 1 s.log.lh T []) (hc : s.Calm s.log.lh T) (hok : s.layout.Ok s.log.lh) :
    ∃ s', s.commit = .ok s' ∧
      Wrote T (s.setLh []) (s.layout.commitWrites (s.view s.log.start) s.log.lh s.view) s' ∧
      s'.Pinned 1 [] T [] := by
  obtain ⟨hfit, hhome⟩ := hok
  by_cases hnil : s.log.lh = []
  · refine ⟨s, by simp [commit, hnil], ?_, by rwa [hnil] at hP⟩
    rw [RedoLog.Layout.commitWrites, if_pos hnil]
    exact ⟨rfl, by simp [setLh, ← hnil], rfl, rfl, rfl, (append_nil _).symm, fun _ _ => rfl⟩
  have hroom : s.log.lh.length < NBUF := hfit.max
  obtain ⟨s1, h1, hw1, hP1⟩ := writeLog_run hP hc (fun _ hb => hb) hhome
    (show 0 + s.log.lh.length ≤ _ from by rw [zero_add]; exact hfit.len) hroom
  obtain ⟨s2, h2, hw2, hP2⟩ := writeHead_run hP1 (hw1.calm hc) hroom
  rw [hw1.log] at hw2
  have hlog2 : s2.log = s.log := hw2.log.trans hw1.log
  have hc2 := hw2.calm (hw1.calm hc)
  obtain ⟨s3, h3, hw3, hP3⟩ := install_commit hP2 hc2 hfit.nodup
    (by rwa [layout, hlog2]) (by rw [hlog2]; exact hfit.len) hroom
  have hc3 : (s3.setLh []).Calm [] T :=
    ⟨fun _ h => absurd h not_mem_nil, fun _ h => absurd h not_mem_nil, (hw3.calm hc2).log⟩
  obtain ⟨s4, h4, hw4, hP4⟩ := writeHead_run (hP3.setLh []) hc3 (by decide)
  refine ⟨s4, ?_, ?_, hP4⟩
  · rw [commit, if_pos (length_pos_iff.mpr hnil)]
    simp only [h1, h2, hlog2, h3, bind, Except.bind]
    exact h4
  -- the header block: untouched by the copies, then the list, then empty again
  have hhdr1 : s1.view s.log.start = s.view s.log.start := by
    rw [hw1.view _ hc.start, apply_of_notMem]
    exact start_notMem_logWrites
  have hhdr3 : s3.view s.log.start = writeHdr (s.view s.log.start) s.log.lh := by
    rw [hw3.view _ hc.start, apply_of_notMem, hw2.view _ hc.start, apply_cons,
      apply_nil, update_self, hhdr1]
    intro w hw
    exact RedoLog.Layout.not_inLog_start (hhome _ (RedoLog.Layout.installs_home hw))
  -- what installation copies is what `write_log` just put there
  have hinst : s2.layout.installs s2.view 0 s.log.lh = s.log.lh.map fun b => (b, s.view b) := by
    rw [← RedoLog.Layout.installs_after_log s.view s.view 0 s.log.lh, layout, hlog2]
    refine RedoLog.Layout.installs_congr fun j hj => ?_
    have hin : s.layout.InLog (s.log.start + 1 + (0 + j)) := by
      have := hfit.len
      exact inLog_iff.mpr ⟨by omega, by omega⟩
    show s2.view (s.log.start + 1 + (0 + j)) = _
    rw [hw2.view _ (hc.log _ hin), apply_of_notMem, hw1.view _ (hc.log _ hin)]
    · rfl
    intro w hm
    obtain rfl := mem_singleton.mp hm
    rintro (h : s.log.start = s.log.start + 1 + (0 + j))
    omega
  have h := (((hw1.trans hw2).trans hw3).setLh []).trans hw4
  rw [hinst, hhdr1] at h
  rw [RedoLog.Layout.commitWrites, if_neg hnil]
  have hend : writeHdr ((s3.setLh []).view (s3.setLh []).log.start) (s3.setLh []).log.lh =
      writeHdr (writeHdr (s.view s.log.start) s.log.lh) [] := by
    rw [← hhdr3]
    change writeHdr (s3.view s3.log.start) [] = _
    rw [hw3.log, hlog2]
  rw [hend, show (s3.setLh []).log.start = s.log.start by
    change s3.log.start = _; rw [hw3.log, hlog2]] at h
  exact h

/-- `read_head` of a header that fits. -/
theorem readHead_run (hP : s.Pinned q [] None_ []) (hoff : s.HooksOff) (hgood : s.layout.Good s.disk) :
    ∃ s', s.readHead = .ok s' ∧
      Wrote None_ (s.setLh (s.layout.dec (s.disk s.log.start))) [] s' ∧ s'.Pinned q [] None_ [] := by
  obtain ⟨i, s1, hb, hF, hP1⟩ := hP.bread (b := s.log.start) (by simp) (.inr (by decide)) (.inr (by simp))
  have hi : i ∈ [i] := mem_singleton_self i
  have hview : s.view s.log.start = s.disk s.log.start := hP.view_disk (by simp) not_mem_nil id
  have hdata : (s1.buf i).data = s.disk s.log.start := (hF.data hP.inv (hF.forced hP (hoff.calm _) id)).trans hview
  have hlh : readHdr (s.disk s.log.start) = some (s.layout.dec (s.disk s.log.start)) := by
    have hmax : (s.layout.dec (s.disk s.log.start)).length < LOGSIZE := hgood.1.max
    change ((readHdr (s.disk s.log.start)).getD (replicate LOGSIZE 0)).length < LOGSIZE at hmax
    change _ = some ((readHdr (s.disk s.log.start)).getD (replicate LOGSIZE 0))
    cases h : readHdr (s.disk s.log.start) with
    | none => rw [h] at hmax; exact absurd hmax (by decide)
    | some l => rfl
  generalize s.layout.dec (s.disk s.log.start) = lh at hlh ⊢
  have hP2 := (hP1.setLh lh).drop hi fun _ _ => by
    change (s1.buf i).data = s1.disk (s1.buf i).blockno
    rw [hdata, hF.blockno, hF.frame.disk]
  refine ⟨_, ?_, ?_, by simpa using hP2⟩
  · simp only [readHead, hb, bind, Except.bind, hdata, hlh]
    exact brelse_ok (hP1.setLh lh).inv hi
  · simpa using ((hF.wrote hP (hoff.calm _)).setLh lh).trans (drop_wrote _ i)

/-- Recovery writes what the redo log calls a recovery, and leaves one stuck buffer for each block
    it installed. -/
theorem recover_run (hP : s.Pinned q [] None_ []) (hoff : s.HooksOff) (hgood : s.layout.Good s.disk) :
    ∃ s', s.recoverFromLog = .ok s' ∧ Wrote None_ (s.setLh []) (s.layout.recoverWrites s.disk) s' ∧
      ∃ done, done.length = (s.layout.dec (s.disk s.log.start)).length ∧
        s'.Pinned 4294967295 done None_ [] := by
  obtain ⟨s1, h1, hw1, hP1⟩ := readHead_run hP hoff hgood
  have hlog1 : s1.log = { s.log with lh := s.layout.dec (s.disk s.log.start) } := hw1.log
  have hL : s1.layout = s.layout := by rw [layout, hlog1]
  have hoff1 : s1.HooksOff := hw1.hooksOff hoff
  obtain ⟨hfit, hhome⟩ := hgood
  change Fits s.log.size (s.layout.dec (s.disk s.log.start)) at hfit
  change ∀ b ∈ s.layout.dec (s.disk s.log.start), ¬ s.layout.InLog b at hhome
  obtain ⟨s2, h2, hw2, done, hlen, hP2⟩ := @install_recover
    s1 (s.layout.dec (s.disk s.log.start)) (hP1.nil (by decide) (by decide))
    hoff1 hfit.nodup (by rwa [hL]) (by rw [hlog1]; exact hfit.len) hfit.max
  have hroom : done.length < NBUF := hlen ▸ hfit.max
  obtain ⟨s3, h3, hw3, hP3⟩ := writeHead_run (hP2.setLh [])
    ((show (s2.setLh []).HooksOff from hw2.hooksOff hoff1).calm _) hroom
  have hstart : s2.log.start = s.log.start := by rw [hw2.log, hlog1]
  refine ⟨s3, ?_, ?_, done, hlen, hP3⟩
  · simp only [recoverFromLog, h1, bind, Except.bind, hlog1, h2]
    exact h3
  have hview : s1.view = s.disk := by
    rw [hw1.view_eq]
    exact funext fun b => hP.view_disk (by simp) not_mem_nil id
  have hhdr : s2.view s.log.start = s.disk s.log.start := by
    rw [hw2.view_eq, apply_of_notMem, hview]
    intro w hw
    rw [hL] at hw
    exact RedoLog.Layout.not_inLog_start (hhome _ (RedoLog.Layout.installs_home hw))
  have h := ((hw1.trans hw2).setLh []).trans hw3
  rw [hL, hview, nil_append, show (s2.setLh []).log.start = s.log.start from hstart,
    show (s2.setLh []).view s.log.start = s.disk s.log.start from hhdr] at h
  exact h

end Mach

end Xv6
