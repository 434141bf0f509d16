/-
  THE BLOCK STORE: what the buffer cache and the log are for.

  `Store` is what the file-system code may believe the calls of `Bcall` act on: one contents per
  block, the blocks it holds, the blocks listed in the log, and the TAINTED blocks — changed in the
  cache and released without `log_write`, so that a later `bread` may return anything.  There is no
  cache, no log region and no reference count in it.

  `Store.spec` is the specification of the calls on it.  Its `Goal` says which failures the proof
  is to exclude: `bad` lists them, and `total` asks for no failure at all, at the price of showing
  at every call that buffers and log space are left.

  `Backs` relates the machine to the store, and `serve_store` says that the machine of `Xv6.Bio` and
  `Xv6.Log` serves the calls as specified, as long as no hook makes it forget a logged block.
-/
import Xv6.Fs.Kernel
import Xv6.LogSpec

namespace Xv6

open Function Prog List Mach Kern

variable {o : Bcall} {e : Err} {s s' : Kern} {H : List Nat} {m : Mach} {b dev i : Nat} {t : Store}
  {sb : Superblock} {um : UserMem}

/-! ## The store -/

/-- The blocks as the code sees them, those it holds, those that may not be what they seem, and the
    state of the transaction. -/
structure Store where
  blk : Nat → Block
  held : List Nat
  taint : Nat → Prop
  lh : List Nat
  out : Int
  hooks : Int × Int
  mem : Mem

/-- The failures of the buffer cache and the log. -/
def Err.ofMachine : Err → Bool
  | .blocked | .undef => true
  | .panic msg => msg ∈ ["bget: no buffers", "too big a transaction", "log_write outside of trans"]

/-- What a proof about the code is to exclude, and what it may assume: that the hooks stay off, and
    that a copy from user memory that fails has changed nothing. -/
structure Goal where
  bad : Err → Prop
  total : Prop
  quiet : Prop
  whole : Prop
  machine : ∀ e : Err, e.ofMachine = true → bad e → total

/-- The log region. -/
def Superblock.layout (sb : Superblock) : RedoLog.Layout Block := logLayout sb.logstart sb.nlog

namespace Store

variable (sb : Superblock) (g : Goal)

/-- What the code has to see to before a call. -/
def Safe : Bcall → Store → Prop
  | .bread b, t => ¬ sb.layout.InLog b ∧
    (g.total → b ∉ t.held ∧ (b ∈ t.lh ∨ t.held.length + t.lh.length < NBUF))
  | .data b, t | .store b _, t | .brelse b, t => b ∈ t.held
  | .logWrite b, t => b ∈ t.held ∧ b < 4294967296 ∧
    (g.total → t.lh.length < LOGSIZE ∧ t.lh.length + 1 < sb.nlog ∧ 1 ≤ t.out)
  | .beginOp, t => g.total → t.lh.length + (t.out + 1) * MAXOPBLOCKS ≤ LOGSIZE
  | .endOp, t => t.held = []
  | .rawRead .., t => t.held = [] ∧ t.out ≤ 0 ∧ ¬ g.total
  | .rawWrite .., _ => False
  | .forceFail i, t | .forceDiskFail i, t => t.out ≤ 0 ∧ (g.quiet → i = -1)
  | .fail e, _ => ¬ g.bad e
  | .mem, _ | .setMem _, _ | .copyin .., _ => True

/-- What the call does then. -/
def Step : (o : Bcall) → Store → o.Res → Store → Prop
  | .bread b, t, _, t' => b ∉ t.held ∧ ∃ d, (¬ t.taint b → d = t.blk b) ∧
    t' = { t with blk := update t.blk b d, held := b :: t.held }
  | .data b, t, r, t' => r = t.blk b ∧ t' = t
  | .store b d, t, _, t' => t' = { t with
      blk := update t.blk b d
      taint := fun c => t.taint c ∨ c = b ∧ b ∉ t.lh ∧ d ≠ t.blk b }
  | .logWrite b, t, _, t' => t' = { t with
      lh := addBlock t.lh b
      taint := fun c => t.taint c ∧ c ≠ b }
  | .brelse b, t, _, t' => t' = { t with held := t.held.erase b }
  | .beginOp, t, _, t' => t' = { t with out := t.out + 1 }
  | .endOp, t, _, t' => t' = { t with out := t.out - 1, lh := if t.out = 1 then [] else t.lh }
  | .mem, t, r, t' => r = t.mem ∧ t' = t
  | .setMem m, t, _, t' => t' = { t with mem := m }
  | .copyin src tot d off m, t, r, t' => r = src.copy tot d off m ∧ t' = t ∧
    (g.whole → r.2 = false → r.1 = d)
  | .rawRead .., t, _, t' => t' = t
  | .forceFail pbn, t, _, t' => t' = { t with hooks := (pbn, t.hooks.2) }
  | .forceDiskFail id, t, _, t' => t' = { t with hooks := (t.hooks.1, id) }
  | .rawWrite .., _, _, _ | .fail _, _, _, _ => False

def spec : Spec Blocks Store := ⟨Safe sb g, Step g⟩

end Store

/-! ## The machine behind it -/

/-- The machine `s`, in which the buffers `H` are held, backs the store `t`. -/
structure Backs (sb : Superblock) (s : Kern) (H : List Nat) (t : Store) : Prop where
  log : s.mach.log = ⟨sb.logstart, sb.nlog, t.out, false, t.lh⟩
  hooks : (s.mach.forceReadErrorPbn, s.mach.forceDiskFailId) = t.hooks
  mem : s.mem = t.mem
  pinned : s.mach.Pinned 1 t.lh t.taint H
  held : t.held = H.map fun i => (s.mach.buf i).blockno
  calm : s.mach.Calm t.lh t.taint
  home : ∀ b, b ∈ t.lh ∨ b ∈ t.held → ¬ sb.layout.InLog b
  fits : Fits sb.nlog t.lh
  idle : t.out ≤ 0 → t.lh = []
  view : ∀ b, ¬ sb.layout.InLog b → b ∈ t.held ∨ ¬ t.taint b → s.mach.view b = t.blk b
  disk : ∀ b, ¬ sb.layout.InLog b → b ∉ t.lh → ¬ t.taint b → s.mach.disk b = t.blk b
  hdr : sb.layout.dec (s.mach.disk sb.logstart) = []

/-- Some buffers are held and the machine backs the store. -/
def Backed (sb : Superblock) (s : Kern) (t : Store) : Prop := ∃ H, Backs sb s H t

/-- What the proof assumes of the copies from user memory. -/
def Goal.Untorn (g : Goal) (o : Bcall) (s : Kern) : Prop := g.whole → Xv6.Untorn o s

/-- No hook makes `bread` forget a block that is being logged. -/
def Unforced : Bcall → Kern → Prop
  | .logWrite b, s => s.mach.forced b = false
  | _, _ => True

namespace Mach

variable {s s' : Mach} {T T' : Nat → Prop} {l : List Nat} {q : Nat}

theorem bget_error (h : s.bget dev b = .error e) : e.ofMachine = true := by
  unfold bget at h
  split at h
  · obtain rfl := Except.error.inj h
    decide
  · next j bc _ =>
    unfold acquiresleep at h
    split at h
    · cases h
    · obtain rfl := Except.error.inj h
      rfl

theorem bread_error (h : s.bread dev b = .error e) : e.ofMachine = true := by
  rw [bread_eq] at h
  cases hg : s.bget dev b with
  | error e' =>
    rw [hg] at h
    obtain rfl := Except.error.inj h
    exact bget_error hg
  | ok r => rw [hg] at h; cases h

/-- More may be tainted; what is held is not there to be clean. -/
theorem Pinned.retaint (hP : s.Pinned q l T H)
    (h : ∀ b, T b → ¬ T' b → ∃ i ∈ H, (s.buf i).blockno = b) : s.Pinned q l T' H := by
  refine ⟨hP.pos, hP.lt, ?_, hP.cached⟩
  have hI := hP.inv
  refine { hI with clean := ?_ }
  intro j hj hjH href hd hv hT'
  refine hI.clean j hj hjH href hd hv fun hT => ?_
  obtain ⟨i, hi, hb⟩ := h _ hT hT'
  obtain ⟨hlt, hdev, -⟩ := hI.held i hi
  exact hjH (hI.keys i j hlt hj hdev hd hb ▸ hi)

/-- Between transactions, a `bget` whose buffer is released again after a read that leaves `valid`
    as it is. -/
theorem Pinned.rawRead (hP : s.Pinned 1 [] T []) (h : s.bget ROOTDEV b = .ok (i, m)) :
    (m.diskRead i).brelse i = .ok ((m.diskRead i).drop i) ∧
      ((m.diskRead i).drop i).Pinned 1 [] T [] ∧ Frame s ((m.diskRead i).drop i) := by
  have hF : Fetched s b i (m.fetch i) := bread_fetched hP.inv.perm (by rw [bread_eq, h]; rfl)
  have hfb := fetch_buf m i
  have hfr : Frame s m := by
    rcases (bget_cases h).2 with ⟨-, rfl⟩ | ⟨-, -, rfl⟩
    · exact updBuf_frame ..
    · exact updBuf_frame ..
  have hother : ∀ j, j ≠ i → ((m.diskRead i).drop i).buf j = s.buf j := fun j hj => by
    rw [drop_ne _ hj, ← hF.others j hj, fetch_ne m hj]
    exact updBuf_ne m _ hj
  have hidle : ∀ j, j < NBUF → (s.buf j).refcnt = 0 := fun j hj => by
    rw [hP.inv.refs j hj]
    simp [pinsOf]
  -- the buffer as the read leaves it
  have hself : (m.diskRead i).buf i = { m.buf i with data := m.disk (m.buf i).blockno } :=
    updBuf_self ..
  have hlock : (m.buf i).lock = some s.me := by have := hF.lock; rwa [hfb] at this
  have href : (m.buf i).refcnt = 1 := by
    have hr := hF.refcnt
    rw [hidle i hF.lt, hfb] at hr
    exact hr
  refine ⟨?_, ⟨by decide, by decide, ?_, fun _ hm => absurd hm not_mem_nil⟩,
    (hfr.trans (updBuf_frame m i _)).trans (drop_frame _ i)⟩
  · have hl : ((m.diskRead i).buf i).lock = some (m.diskRead i).me := by
      rw [hself]; exact hlock.trans (congrArg some hfr.me.symm)
    simp [brelse, holding, hl]
  have hd := drop_self (m.diskRead i) i
  rw [hself] at hd
  refine ⟨bput_perm ?_ hF.lt, ?_, ?_, ?_, nodup_nil, fun _ hm => absurd hm not_mem_nil, ?_, ?_⟩
  · have hl := hF.lru
    rw [fetch_lru] at hl
    show m.bc.lru.Perm _
    rw [hl]
    exact hP.inv.perm
  · refine (hF.keys hP.inv.keys).congr fun j _ => ?_
    by_cases hji : j = i
    · subst hji
      rw [hd, hfb]
      exact ⟨rfl, rfl⟩
    · rw [hother j hji, hF.others j hji]
      exact ⟨rfl, rfl⟩
  · grind [pinsOf, dec32]
  · intro j hj
    rw [if_neg not_mem_nil]
    by_cases hji : j = i
    · subst hji; rw [hd]
    · rw [hother j hji, hP.inv.locks j hj, if_neg not_mem_nil]
  · intro j _ hp
    exact absurd (by simp [pinsOf]) hp
  · intro j hj hjH href' hdj hv hT
    by_cases hji : j = i
    · subst hji; rw [hd]; rfl
    · rw [hother j hji] at href' hdj hv hT ⊢
      refine (hP.inv.clean j hj hjH href' hdj hv hT).trans ?_
      show _ = m.disk _
      rw [hfr.disk]

/-- The held buffers hold different blocks. -/
theorem Inv.held_inj {P : Nat → Nat} (hI : s.Inv T H P) {j : Nat} (hi : i ∈ H) (hj : j ∈ H)
    (h : (s.buf i).blockno = (s.buf j).blockno) : i = j := by
  obtain ⟨hli, hdi, -⟩ := hI.held i hi
  obtain ⟨hlj, hdj, -⟩ := hI.held j hj
  exact hI.keys i j hli hlj hdi hdj h

end Mach

/-- Erasing commutes with a map that is injective where it matters. -/
theorem map_erase_of_inj {α β : Type} [DecidableEq α] [DecidableEq β] {f : α → β} {l : List α}
    {a : α} (h : ∀ c ∈ l, f c = f a → c = a) : (l.erase a).map f = (l.map f).erase (f a) := by
  induction l with
  | nil => rfl
  | cons c l ih =>
    grind

namespace Backs

section

variable (hR : Backs sb s H t)
include hR

theorem layout : s.mach.layout = sb.layout := by
  rw [Mach.layout, hR.log]; rfl

/-- The held buffer of a held block. -/
theorem heldBuf (hb : b ∈ t.held) : ∃ i, i ∈ H ∧ s.heldBuf b = some i ∧ (s.mach.buf i).blockno = b := by
  have hI := hR.pinned.inv
  rw [hR.held] at hb
  obtain ⟨i, hi, hbi⟩ := mem_map.mp hb
  obtain ⟨hlt, hdev, -⟩ := hI.held i hi
  have hlock : (s.mach.buf i).lock = some s.mach.me := by rw [hI.locks i hlt, if_pos hi]
  cases hf : s.heldBuf b with
  | none =>
    have h := find?_eq_none.mp hf i (mem_range.mpr hlt)
    simp [holding, hlock, hdev, hbi] at h
  | some j =>
    have hj := mem_range.mp (mem_of_find?_eq_some hf)
    have hp := find?_some hf
    simp only [Bool.and_eq_true, beq_iff_eq] at hp
    obtain rfl := hI.keys j i hj hlt hp.1.2 hdev (hp.2.trans hbi.symm)
    exact ⟨j, hi, rfl, hbi⟩

/-- The contents of a held buffer. -/
theorem data (hi : i ∈ H) (hbi : (s.mach.buf i).blockno = b) : (s.mach.buf i).data = t.blk b := by
  have hb : b ∈ t.held := by rw [hR.held]; exact mem_map.mpr ⟨i, hi, hbi⟩
  rw [← hR.view b (hR.home b (.inr hb)) (.inl hb), ← hbi, hR.pinned.inv.view_held hi]

theorem bread (hb : ¬ sb.layout.InLog b) (h : s.mach.bread ROOTDEV b = .ok (i, m)) :
    b ∉ t.held ∧ (¬ t.taint b → (m.buf i).data = t.blk b) ∧ Backs sb { s with mach := m } (i :: H)
      { t with blk := update t.blk b (m.buf i).data, held := b :: t.held } := by
  have hF := bread_fetched hR.pinned.inv.perm h
  have hP := hF.pinned hR.pinned
  have hw := hF.wrote hR.pinned hR.calm
  have hnot := hF.unheld hR.pinned.inv
  have hne : ∀ j ∈ H, j ≠ i := fun j hj h => hF.not_held hR.pinned.inv (h ▸ hj)
  have hbh : b ∉ t.held := by
    rw [hR.held]
    intro hm
    obtain ⟨j, hj, hbj⟩ := mem_map.mp hm
    exact hnot j hj hbj
  have hdata : ¬ t.taint b → (m.buf i).data = t.blk b := fun hT => by
    rw [hF.data hR.pinned.inv (hF.forced hR.pinned hR.calm hT), hR.view b hb (.inr hT)]
  refine ⟨hbh, hdata, ?_⟩
  constructor
  · exact hF.frame.log.trans hR.log
  · rw [← hR.hooks, ← hF.frame.pbn, ← hF.frame.fail]
  · exact hR.mem
  · exact hP
  · grind [Backs, Fetched, map_congr_left]
  · exact hw.calm hR.calm
  · grind [Backs]
  · exact hR.fits
  · exact hR.idle
  · intro c hc hT
    show m.view c = update t.blk b (m.buf i).data c
    by_cases hcb : c = b
    · subst hcb
      rw [update_self]
      exact hP.inv.view_cached hF.lt hF.dev hF.blockno hF.valid
    · rw [update_of_ne hcb]
      rcases hT with hm | hT
      · -- a held block is in the buffer it was in
        have hm := (mem_cons.mp hm).resolve_left hcb
        obtain ⟨j, hj, -, hbj⟩ := hR.heldBuf hm
        have hbuf := hF.others j (hne j hj)
        have hv := hP.inv.view_held (mem_cons_of_mem i hj)
        rw [hbuf, hbj] at hv
        exact hv.trans (hR.data hj hbj)
      · rw [hw.view c hT]
        exact hR.view c hc (.inr hT)
  · intro c hc hl hT
    show m.disk c = update t.blk b (m.buf i).data c
    rw [hF.frame.disk, hR.disk c hc hl hT]
    by_cases hcb : c = b
    · subst hcb
      rw [update_self, hdata hT]
    · rw [update_of_ne hcb]
  · show sb.layout.dec (m.disk sb.logstart) = []
    rw [hF.frame.disk]
    exact hR.hdr

theorem store (hi : i ∈ H) (hbi : (s.mach.buf i).blockno = b) (d : Block) :
    Backs sb { s with mach := s.mach.setData i d } H { t with
        blk := update t.blk b d
        taint := fun c => t.taint c ∨ c = b ∧ b ∉ t.lh ∧ d ≠ t.blk b } := by
  have hb : b ∈ t.held := by rw [hR.held]; exact mem_map.mpr ⟨i, hi, hbi⟩
  have hview : ∀ c, (s.mach.setData i d).view c = if c = b then d else s.mach.view c := by
    intro c
    rw [view_setData hR.pinned.inv hi, hbi]
  constructor
  · exact hR.log
  · exact hR.hooks
  · exact hR.mem
  · exact (hR.pinned.setData hi d).retaint fun c hT hT' => absurd (.inl hT) hT'
  · rw [hR.held]
    exact map_congr_left fun j _ => (setData_blockno s.mach i j d).symm
  · refine ⟨hR.calm.unforced, ?_, ?_⟩
    · rintro c hc (hT | ⟨rfl, hn, -⟩)
      · exact hR.calm.listed c hc hT
      · exact hn hc
    · rintro c hc (hT | ⟨rfl, -⟩)
      · exact hR.calm.log c hc hT
      · exact hR.home c (.inr hb) (hR.layout ▸ hc)
  · exact hR.home
  · exact hR.fits
  · exact hR.idle
  · grind [view]
  · intro c hc hl hT
    show s.mach.disk c = update t.blk b d c
    rw [hR.disk c hc hl fun h => hT (.inl h), update_apply]
    split
    · next hcb =>
      subst hcb
      by_contra hne
      exact hT (.inr ⟨rfl, hl, Ne.symm hne⟩)
    · rfl
  · exact hR.hdr

theorem brelse (hi : i ∈ H) (hbi : (s.mach.buf i).blockno = b) :
    Backs sb { s with mach := s.mach.drop i } (H.erase i) { t with held := t.held.erase b } := by
  have hb : b ∈ t.held := by rw [hR.held]; exact mem_map.mpr ⟨i, hi, hbi⟩
  have hw := drop_wrote (T := t.taint) s.mach i
  constructor
  · exact hR.log
  · exact hR.hooks
  · exact hR.mem
  · refine hR.pinned.drop hi fun hl hT => ?_
    rw [hbi] at hl hT ⊢
    rw [hR.data hi hbi, hR.disk b (hR.home b (.inr hb)) hl hT]
  · show t.held.erase b = (H.erase i).map fun j => ((s.mach.drop i).buf j).blockno
    rw [hR.held, ← hbi, ← map_erase_of_inj]
    · exact map_congr_left fun j _ => (drop_copy s.mach i j).2.1.symm
    · intro j hj h
      exact hR.pinned.inv.held_inj hj hi h
  · exact hw.calm hR.calm
  · exact fun c hc => hR.home c (hc.imp_right mem_of_mem_erase)
  · exact hR.fits
  · exact hR.idle
  · intro c hc hT
    rw [view_drop]
    exact hR.view c hc (hT.imp_left mem_of_mem_erase)
  · exact hR.disk
  · exact hR.hdr

end

theorem logWrite (hsb : sb.nlog ≤ LOGSIZE) (hR : Backs sb s H t) (hi : i ∈ H)
    (hbi : (s.mach.buf i).blockno = b) (hsmall : b < 4294967296) (hf : s.mach.forced b = false)
    (h : s.mach.logWrite i = .ok m) :
    Backs sb { s with mach := m } H
      { t with lh := addBlock t.lh b, taint := fun c => t.taint c ∧ c ≠ b } := by
  have hb : b ∈ t.held := by rw [hR.held]; exact mem_map.mpr ⟨i, hi, hbi⟩
  have hout : 1 ≤ t.out ∧ t.lh.length + 1 < sb.nlog := by
    simp only [Mach.logWrite, hR.log] at h
    split at h
    · cases h
    · split at h
      · cases h
      · omega
  obtain rfl : s.mach.record i = m := by grind [Mach.logWrite]
  have hlh : s.mach.log.lh = t.lh := by rw [hR.log]
  -- the machine is the same, or the block is pinned and listed
  have hrec : s.mach.record i = (if b ∈ t.lh then s.mach else s.mach.bpin i).setLh (addBlock t.lh b) := by
    unfold record addBlock
    rw [hbi, hlh]
    split
    · rw [← hlh]; rfl
    · rfl
  have hview : (s.mach.record i).view = s.mach.view := by
    rw [hrec]
    split
    · rfl
    · exact view_bpin s.mach i
  have hdisk : (s.mach.record i).disk = s.mach.disk := by
    rw [hrec]
    split <;> rfl
  have hpin : (s.mach.record i).Pinned 1 (addBlock t.lh b) t.taint H := by
    rw [hrec]
    refine Mach.Pinned.setLh ?_ _
    unfold addBlock
    split
    · exact hR.pinned
    · next hn =>
      have hp := hR.pinned.bpin hi (by rwa [hbi])
      rwa [hbi] at hp
  constructor
  · rw [hrec]
    split
    · rw [setLh, hR.log]
    · show ({ s.mach.log with lh := _ } : Log) = _
      rw [hR.log]
  · rw [hrec]
    split <;> exact hR.hooks
  · exact hR.mem
  · refine hpin.retaint fun c hT hT' => ⟨i, hi, ?_⟩
    have hcb : c = b := by
      by_contra hne
      exact hT' ⟨hT, hne⟩
    rw [hcb, hrec]
    split
    · exact hbi
    · exact (bpin_blockno s.mach i i).trans hbi
  · show t.held = H.map fun j => ((s.mach.record i).buf j).blockno
    rw [hR.held]
    refine map_congr_left fun j _ => ?_
    rw [hrec]
    split
    · rfl
    · exact (bpin_blockno s.mach i j).symm
  · have hfo : ∀ c, (s.mach.record i).forced c = s.mach.forced c := fun c => by
      rw [hrec]
      split <;> rfl
    have hlay : (s.mach.record i).layout = s.mach.layout := by
      rw [hrec]
      split <;> rfl
    refine ⟨?_, ?_, ?_⟩
    · intro c hc
      rw [hfo]
      rcases mem_addBlock.mp hc with hc | rfl
      · exact hR.calm.unforced c hc
      · exact hf
    · rintro c hc ⟨hT, hne⟩
      rcases mem_addBlock.mp hc with hc | rfl
      · exact hR.calm.listed c hc hT
      · exact hne rfl
    · rintro c hc ⟨hT, -⟩
      rw [hlay] at hc
      exact hR.calm.log c hc hT
  · rintro c (hc | hc)
    · rcases mem_addBlock.mp hc with hc | rfl
      · exact hR.home c (.inl hc)
      · exact hR.home c (.inr hb)
    · exact hR.home c (.inr hc)
  · grind [Backs, Fits, addBlock]
  · intro h0
    exact absurd h0 (by show ¬ t.out ≤ 0; omega)
  · intro c hc hT
    rw [hview]
    refine hR.view c hc ?_
    rcases hT with hm | hT
    · exact .inl hm
    · by_cases hcb : c = b
      · exact .inl (hcb ▸ hb)
      · exact .inr fun h => hT ⟨h, hcb⟩
  · intro c hc hl hT
    rw [hdisk]
    have hcb : c ≠ b := fun h => hl (mem_addBlock.mpr (.inr h))
    exact hR.disk c hc (fun h => hl (mem_addBlock.mpr (.inl h))) fun h => hT ⟨h, hcb⟩
  · show sb.layout.dec ((s.mach.record i).disk sb.logstart) = []
    rw [hdisk]
    exact hR.hdr

/-- The log's counters do not matter to the cache. -/
theorem withOut (hR : Backs sb s H t) {o : Int} (ho : o ≤ 0 → t.lh = []) :
    Backs sb { s with mach := { s.mach with log := { s.mach.log with outstanding := o } } } H
      { t with out := o } := by
  constructor
  · show ({ s.mach.log with outstanding := o } : Log) = _
    rw [hR.log]
  · exact hR.hooks
  · exact hR.mem
  · exact hR.pinned.withLog _
  · exact hR.held
  · exact ⟨hR.calm.unforced, hR.calm.listed, hR.calm.log⟩
  · exact hR.home
  · exact hR.fits
  · exact ho
  · exact hR.view
  · exact hR.disk
  · exact hR.hdr

/-- The commit of the last `end_op`: the listed blocks go home. -/
theorem commit (hR : Backs sb s [] t) (o : Int) :
    ∃ m, commit { s.mach with log := ⟨sb.logstart, sb.nlog, o, true, t.lh⟩ } = .ok m ∧
      Backs sb { s with mach := { m with log := { m.log with committing := false } } } []
        { t with out := o, lh := [] } := by
  have hheld : t.held = [] := hR.held
  have hok : sb.layout.Ok t.lh := ⟨hR.fits, fun b hb => hR.home b (.inl hb)⟩
  have hsl : sb.logstart ∉ t.lh := fun hm =>
    RedoLog.Layout.not_inLog_start (hok.2 _ hm) rfl
  have hTlog : ∀ b, sb.layout.InLog b → ¬ t.taint b := by
    rw [← hR.layout]; exact hR.calm.log
  have hhdr : s.mach.view sb.logstart = s.mach.disk sb.logstart :=
    hR.pinned.view_disk (by simp) hsl (hTlog _ ⟨le_rfl, Nat.le_add_right ..⟩)
  obtain ⟨m, hm, hw, hP⟩ := commit_run (s := { s.mach with log := ⟨sb.logstart, sb.nlog, o, true, t.lh⟩ })
    (hR.pinned.withLog _) ⟨hR.calm.unforced, hR.calm.listed, hTlog⟩ hok
  obtain ⟨hdec, -⟩ := RedoLog.Layout.commit_done (d := s.mach.disk) (v := s.mach.view) hR.hdr hok
  obtain ⟨-, hhome⟩ := RedoLog.Layout.commit_done (d := s.mach.view) (v := s.mach.view)
    (by rw [show sb.layout.start = sb.logstart from rfl, hhdr]; exact hR.hdr) hok
  have hview : ∀ b, ¬ sb.layout.InLog b → ¬ t.taint b → m.view b = t.blk b := fun b hb hT => by
    refine (hw.view b hT).trans ((hhome b hb).trans ?_)
    rw [RedoLog.overlay, ite_self, hR.view b hb (.inr hT)]
  have hlog : m.log = ⟨sb.logstart, sb.nlog, o, true, []⟩ := hw.log
  refine ⟨m, hm, ?_⟩
  constructor
  · show ({ m.log with committing := false } : Log) = _
    rw [hlog]
  · show (m.forceReadErrorPbn, m.forceDiskFailId) = t.hooks
    rw [← hR.hooks, hw.pbn, hw.fail]
    rfl
  · exact hR.mem
  · exact hP.withLog _
  · exact hheld
  · refine ⟨fun _ h => absurd h not_mem_nil, fun _ h => absurd h not_mem_nil, ?_⟩
    rw [hlog]
    exact hTlog
  · exact fun b hb => hR.home b (.inr (hb.resolve_left not_mem_nil))
  · exact sb.layout.fits_nil
  · exact fun _ => rfl
  · intro b hb hT
    exact hview b hb (hT.resolve_left (by rw [hheld]; exact not_mem_nil))
  · intro b hb _ hT
    exact (hP.view_disk (by simp) not_mem_nil hT).symm.trans (hview b hb hT)
  · show sb.layout.dec (m.disk sb.logstart) = []
    rw [hw.disk]
    rw [show sb.layout.start = sb.logstart from rfl, ← hhdr] at hdec
    exact hdec

theorem held_nil (hR : Backs sb s H t) (h : t.held = []) : H = [] := by
  have hmap := hR.held
  rw [h] at hmap
  exact map_eq_nil_iff.mp hmap.symm

/-- `end_op` always comes back, and the last one commits. -/
theorem endOp (hR : Backs sb s H t) (h : t.held = []) :
    ∃ m, s.mach.endOp = .ok m ∧ Backed sb { s with mach := m }
      { t with out := t.out - 1, lh := if t.out = 1 then [] else t.lh } := by
  obtain rfl := hR.held_nil h
  by_cases h1 : t.out = 1
  · obtain ⟨m, hm, hR'⟩ := hR.commit (t.out - 1)
    refine ⟨_, ?_, [], by rw [if_pos h1]; exact hR'⟩
    have hzero : t.out - 1 = 0 := by omega
    simp only [endOp, hR.log, hzero] at hm ⊢
    rw [hm]
    rfl
  · have hzero : t.out - 1 ≠ 0 := by omega
    refine ⟨{ s.mach with log := { s.mach.log with outstanding := t.out - 1 } }, ?_, [], ?_⟩
    · simp only [endOp, hR.log, hzero, if_false, Bool.false_eq_true]
    · rw [if_neg h1]
      exact hR.withOut fun h => hR.idle (by omega)

/-- `sys_raw_read` between transactions. -/
theorem rawRead {addr : Nat} {r : Int} (hR : Backs sb s [] t)
    (hlh : t.lh = []) (h : s.rawRead b um addr = .ok (r, s')) : Backs sb s' [] t := by
  have hP := hR.pinned
  rw [hlh] at hP
  obtain ⟨⟨i, m⟩, hg, h⟩ := bind_ok h
  obtain ⟨hrel, hP', hfr⟩ := hP.rawRead hg
  obtain ⟨m', hm, h⟩ := bind_ok h
  obtain rfl := Except.ok.inj (hrel.symm.trans hm)
  obtain ⟨-, rfl⟩ := Prod.mk.inj (Except.ok.inj h)
  have hview : ∀ b, ¬ t.taint b → ((m.diskRead i).drop i).view b = s.mach.view b := fun b hT => by
    rw [hP'.view_disk (by simp) not_mem_nil hT, hP.view_disk (by simp) not_mem_nil hT, hfr.disk]
  constructor
  · exact hfr.log.trans hR.log
  · rw [← hR.hooks, ← hfr.pbn, ← hfr.fail]
  · exact hR.mem
  · rw [hlh]; exact hP'
  · exact hR.held
  · refine ⟨fun b hb => absurd (hlh ▸ hb) not_mem_nil, hR.calm.listed, ?_⟩
    rw [Mach.layout, hfr.log]
    exact hR.calm.log
  · exact hR.home
  · exact hR.fits
  · exact hR.idle
  · intro b hb hT
    have hT : ¬ t.taint b := hT.resolve_left (by rw [hR.held]; exact not_mem_nil)
    exact (hview b hT).trans (hR.view b hb (.inr hT))
  · intro b hb hl hT
    exact (congrFun hfr.disk b).trans (hR.disk b hb hl hT)
  · show sb.layout.dec (((m.diskRead i).drop i).disk sb.logstart) = []
    rw [hfr.disk]
    exact hR.hdr

theorem rawRead_error {addr : Nat} (hR : Backs sb s [] t)
    (hlh : t.lh = []) (h : s.rawRead b um addr = .error e) : e.ofMachine = true := by
  have hP := hR.pinned
  rw [hlh] at hP
  unfold Kern.rawRead at h
  cases hg : s.mach.bget ROOTDEV b with
  | error e' =>
    rw [hg] at h
    obtain rfl := Except.error.inj h
    exact bget_error hg
  | ok r =>
    obtain ⟨hrel, -, -⟩ := hP.rawRead hg
    simp only [hg, bind, Except.bind, hrel] at h
    cases h

/-- The hooks do not matter while nothing is listed. -/
theorem withHooks (hR : Backs sb s H t) (hlh : t.lh = []) (pbn id : Int) :
    Backs sb { s with mach := { s.mach with forceReadErrorPbn := pbn, forceDiskFailId := id } } H
      { t with hooks := (pbn, id) } := by
  have hI := hR.pinned.inv
  constructor
  · exact hR.log
  · rfl
  · exact hR.mem
  · exact hR.pinned.of_inv { hI with } fun _ => ⟨rfl, rfl⟩
  · exact hR.held
  · exact ⟨fun b hb => absurd (hlh ▸ hb) not_mem_nil, hR.calm.listed, hR.calm.log⟩
  · exact hR.home
  · exact hR.fits
  · exact hR.idle
  · exact hR.view
  · exact hR.disk
  · exact hR.hdr

end Backs

/-! ## The simulation -/

variable {g : Goal}

/-- The calls that come back. -/
theorem serve_store_ok (hsb : sb.nlog ≤ LOGSIZE)
    {r : o.Res} (hR : Backed sb s t) (hG : Unforced o s) (hW : g.Untorn o s)
    (hsafe : Store.Safe sb g o t) (h : serve o s = .ok (r, s')) :
    ∃ t', Store.Step g o t r t' ∧ Backed sb s' t' := by
  obtain ⟨H, hR⟩ := hR
  cases o with
  | bread b =>
    obtain ⟨m, hm, rfl⟩ := lift_ok h
    obtain ⟨⟨i, m'⟩, hm', hm⟩ := bind_ok hm
    obtain rfl := Except.ok.inj hm
    obtain ⟨hn, hd, hR'⟩ := hR.bread hsafe.1 hm'
    exact ⟨_, ⟨hn, _, hd, rfl⟩, _, hR'⟩
  | data b =>
    obtain ⟨i, hi, hh, hbi⟩ := hR.heldBuf hsafe
    obtain ⟨rfl, rfl⟩ := Prod.mk.inj (Except.ok.inj ((onHeld_some hh _).symm.trans h))
    exact ⟨t, ⟨hR.data hi hbi, rfl⟩, H, hR⟩
  | store b d =>
    obtain ⟨i, hi, hh, hbi⟩ := hR.heldBuf hsafe
    obtain ⟨m, hm, rfl⟩ := lift_ok ((onHeld_some hh _).symm.trans h)
    obtain rfl := Except.ok.inj hm
    exact ⟨_, rfl, H, hR.store hi hbi d⟩
  | logWrite b =>
    obtain ⟨i, hi, hh, hbi⟩ := hR.heldBuf hsafe.1
    obtain ⟨m, hm, rfl⟩ := lift_ok ((onHeld_some hh _).symm.trans h)
    exact ⟨_, rfl, H, hR.logWrite hsb hi hbi hsafe.2.1 hG hm⟩
  | brelse b =>
    obtain ⟨i, hi, hh, hbi⟩ := hR.heldBuf hsafe
    obtain ⟨m, hm, rfl⟩ := lift_ok ((onHeld_some hh _).symm.trans h)
    obtain rfl := Except.ok.inj ((brelse_ok hR.pinned.inv hi).symm.trans hm)
    exact ⟨_, rfl, _, hR.brelse hi hbi⟩
  | beginOp =>
    obtain ⟨m, hm, rfl⟩ := lift_ok h
    unfold beginOp at hm
    split at hm
    · obtain rfl := Except.ok.inj hm
      refine ⟨_, rfl, H, ?_⟩
      have hR' := hR.withOut (o := t.out + 1) fun h => hR.idle (by omega)
      rw [show s.mach.log.outstanding = t.out by rw [hR.log]]
      exact hR'
    · cases hm
  | endOp =>
    obtain ⟨m, hm, rfl⟩ := lift_ok h
    obtain ⟨m', hm', hR'⟩ := hR.endOp hsafe
    obtain rfl := Except.ok.inj (hm'.symm.trans hm)
    exact ⟨_, rfl, hR'⟩
  | mem =>
    obtain ⟨rfl, rfl⟩ := Prod.mk.inj (Except.ok.inj h)
    exact ⟨t, ⟨hR.mem, rfl⟩, H, hR⟩
  | setMem m =>
    obtain ⟨-, rfl⟩ := Prod.mk.inj (Except.ok.inj h)
    exact ⟨_, rfl, H, { hR with mem := rfl }⟩
  | copyin src tot d off m =>
    obtain ⟨rfl, rfl⟩ := Prod.mk.inj (Except.ok.inj h)
    refine ⟨t, ⟨rfl, rfl, fun hw hf => ?_⟩, H, hR⟩
    rcases hW hw with htrue | hsame
    · rw [htrue] at hf
      cases hf
    · exact hsame
  | rawRead b um addr =>
    have hH : H = [] := hR.held_nil hsafe.1
    subst hH
    exact ⟨t, rfl, [], hR.rawRead (hR.idle hsafe.2.1) h⟩
  | rawWrite b um addr => exact hsafe.elim
  | forceFail pbn =>
    obtain ⟨-, rfl⟩ := Prod.mk.inj (Except.ok.inj h)
    refine ⟨_, rfl, H, ?_⟩
    rw [← hR.hooks]
    exact hR.withHooks (hR.idle hsafe.1) pbn s.mach.forceDiskFailId
  | forceDiskFail id =>
    obtain ⟨-, rfl⟩ := Prod.mk.inj (Except.ok.inj h)
    refine ⟨_, rfl, H, ?_⟩
    rw [← hR.hooks]
    exact hR.withHooks (hR.idle hsafe.1) s.mach.forceReadErrorPbn id
  | fail e => cases h

/-- The calls that fail: the machine's own failures are bad only where the code promised to avoid
    them. -/
theorem serve_store_error (hR : Backed sb s t)
    (hsafe : Store.Safe sb g o t) (h : serve o s = .error e) : ¬ g.bad e := by
  obtain ⟨H, hR⟩ := hR
  have hfail : e.ofMachine = true → ¬ g.total → ¬ g.bad e := fun he ht hb => ht (g.machine e he hb)
  cases o with
  | bread b =>
    have hm : s.mach.bread ROOTDEV b = .error e := by
      have hx := lift_error h
      cases hb : s.mach.bread ROOTDEV b with
      | error e' => rw [hb] at hx; exact congrArg _ (Except.error.inj hx)
      | ok r => rw [hb] at hx; cases hx
    refine hfail (bread_error hm) fun ht => ?_
    obtain ⟨hn, hroom⟩ := hsafe.2 ht
    have hlen : t.held.length = H.length := by rw [hR.held, length_map]
    obtain ⟨i, m, hok, -⟩ := hR.pinned.bread (b := b)
      (fun i hi hbi => hn (hR.held ▸ mem_map.mpr ⟨i, hi, hbi⟩)) (hlen ▸ hroom)
      (.inl (by decide))
    rw [hm] at hok
    cases hok
  | data b =>
    obtain ⟨i, hi, hh, hbi⟩ := hR.heldBuf hsafe
    cases (onHeld_some hh _).symm.trans h
  | store b d =>
    obtain ⟨i, hi, hh, hbi⟩ := hR.heldBuf hsafe
    cases (onHeld_some hh _).symm.trans h
  | logWrite b =>
    obtain ⟨i, hi, hh, hbi⟩ := hR.heldBuf hsafe.1
    have hm := lift_error ((onHeld_some hh _).symm.trans h)
    simp only [Mach.logWrite, hR.log] at hm
    split at hm
    · obtain rfl := Except.error.inj hm
      exact hfail (by decide) fun ht => by have := hsafe.2.2 ht; omega
    · split at hm
      · obtain rfl := Except.error.inj hm
        exact hfail (by decide) fun ht => by have := hsafe.2.2 ht; omega
      · cases hm
  | brelse b =>
    obtain ⟨i, hi, hh, hbi⟩ := hR.heldBuf hsafe
    have hm := lift_error ((onHeld_some hh _).symm.trans h)
    cases (brelse_ok hR.pinned.inv hi).symm.trans hm
  | beginOp =>
    have hm := lift_error h
    unfold beginOp at hm
    split at hm
    · cases hm
    · next hn =>
      obtain rfl := Except.error.inj hm
      refine hfail rfl fun ht => hn ?_
      rw [admits, hR.log]
      simpa using hsafe ht
  | endOp =>
    obtain ⟨m, hm, -⟩ := hR.endOp hsafe
    cases hm.symm.trans (lift_error h)
  | mem => cases h
  | setMem m => cases h
  | copyin src tot d off m => cases h
  | rawRead b um addr =>
    refine hfail ?_ hsafe.2.2
    have hH : H = [] := hR.held_nil hsafe.1
    subst hH
    exact hR.rawRead_error (hR.idle hsafe.2.1) h
  | rawWrite b um addr => exact hsafe.elim
  | forceFail pbn => cases h
  | forceDiskFail id => cases h
  | fail e' =>
    obtain rfl := Except.error.inj h
    exact hsafe

/-- **The machine serves the block store.** -/
theorem serve_store (hsb : sb.nlog ≤ LOGSIZE) :
    ServesWhen serve (fun o s => Unforced o s ∧ g.Untorn o s) g.bad (Store.spec sb g) (Backed sb) :=
  .of_cases (fun _ _ _ _ _ hR hG hsafe h => serve_store_ok hsb hR hG.1 hG.2 hsafe h)
    fun _ _ _ _ hR _ hsafe h => serve_store_error hR hsafe h

/-- Backed, with the hooks off. -/
def BackedQuiet (sb : Superblock) (s : Kern) (t : Store) : Prop :=
  Backed sb s t ∧ t.hooks = (-1, -1)

/-- With the hooks off no block is ever forgotten. -/
theorem serve_store_quiet (hsb : sb.nlog ≤ LOGSIZE) (hq : g.quiet) :
    ServesWhen serve g.Untorn g.bad (Store.spec sb g) (BackedQuiet sb) := by
  rintro o s t ⟨hR, hoff⟩ hW hsafe
  have hG : Unforced o s := by
    obtain ⟨H, hB⟩ := hR
    have hh := hB.hooks
    rw [hoff] at hh
    obtain ⟨hp, hf⟩ := Prod.mk.inj hh
    cases o with
    | logWrite b => exact forced_off ⟨hp, hf⟩ b
    | _ => trivial
  have hs := serve_store hsb o s t hR ⟨hG, hW⟩ hsafe
  cases hr : serve o s with
  | error e => rw [hr] at hs; exact hs
  | ok r =>
    rw [hr] at hs
    obtain ⟨t', hstep, hR'⟩ := hs
    refine ⟨t', hstep, hR', ?_⟩
    cases o with
    | bread b => obtain ⟨-, d, -, rfl⟩ := hstep; exact hoff
    | data b | mem => obtain ⟨-, rfl⟩ := hstep; exact hoff
    | copyin => obtain ⟨-, rfl, -⟩ := hstep; exact hoff
    | forceFail pbn =>
      obtain rfl := hstep
      rw [hoff, hsafe.2 hq]
    | forceDiskFail id =>
      obtain rfl := hstep
      rw [hoff, hsafe.2 hq]
    | rawWrite => exact hstep.elim
    | fail e => exact hstep.elim
    | _ => obtain rfl := hstep; exact hoff

end Xv6
