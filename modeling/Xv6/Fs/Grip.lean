/-
  THE MACHINE KEEPS THE DESK, whatever is on its disk.

  `Gripped H` says which buffers are locked: one for each block of `H`, and those are the caller's.
  `Tidy L` adds what is in the others: with the hooks off, every valid buffer that nobody holds and
  whose block is not in `L` has the bytes of its disk block.  Each primitive keeps the first with any
  disk, any hooks and torn copies, and fails only for one of the machine's own reasons
  (`Err.ofMachine`).  It keeps the second as long as a held buffer is released only when it agrees with
  the disk or its block is in `L`; `commit` empties `L`.

  `OnDesk` ties both to the desk of `Xv6.Fs.Discipline`: what is on it is held, and on a neat run its
  mark is what the disk has, unless the block is listed.  The discipline then is exactly what a release
  needs: `serve_desk`.
-/
import Xv6.Fs.Discipline
import Xv6.LogCrash

namespace Xv6

open Function Prog List Option

variable {f : Buf → Buf} {b i : Nat} {α : Type} {x : Except Err α} {P : α → Prop}

/-- The computation comes back with `P`, or fails as the buffer cache and the log may fail. -/
def Fares {α : Type} (x : Except Err α) (P : α → Prop) : Prop :=
  match x with
  | .ok a => P a
  | .error e => e.ofMachine = true

theorem Fares.bind {β : Type} {f : α → Except Err β}
    {Q : β → Prop} (hx : Fares x P) (hf : ∀ a, P a → Fares (f a) Q) : Fares (x >>= f) Q := by
  cases x with
  | error e => exact hx
  | ok a => exact hf a hx

theorem Fares.mono {Q : α → Prop} (hx : Fares x P) (h : ∀ a, P a → Q a) : Fares x Q := by
  cases x with
  | error e => exact hx
  | ok a => exact h a hx

namespace Mach

/-! ## Held buffers -/

/-- Buffer `i` is held and has the contents `d` of block `b`. -/
structure Holds (s : Mach) (i b : Nat) (d : Block) : Prop where
  lt : i < NBUF
  dev : (s.buf i).dev = ROOTDEV
  blockno : (s.buf i).blockno = b
  lock : (s.buf i).lock = some s.me
  data : (s.buf i).data = d

/-- The locked buffers are those of the blocks in `H`. -/
structure Gripped (s : Mach) (H : Nat → Prop) : Prop where
  perm : s.bc.lru.Perm (List.range NBUF)
  keys : s.Keys
  mine : ∀ i, i < NBUF → (s.buf i).lock ≠ none →
    (s.buf i).lock = some s.me ∧ (s.buf i).dev = ROOTDEV ∧ H (s.buf i).blockno
  held : ∀ b, H b → ∃ i d, s.Holds i b d

/-- The hooks are off, and a buffer outside of `L` agrees with the disk. -/
structure Tidy (s : Mach) (L : List Nat) : Prop where
  off : s.HooksOff
  dev : ∀ i, i < NBUF → (s.buf i).valid = true → (s.buf i).dev = ROOTDEV
  clean : ∀ i, i < NBUF → (s.buf i).valid = true → (s.buf i).lock = none →
    (s.buf i).blockno ∉ L → (s.buf i).data = s.disk (s.buf i).blockno

variable {s s' : Mach} {H H' : Nat → Prop} {L : List Nat} {j c : Nat} {d d' : Block}

namespace Holds

theorem unlocked_ne (hH : s.Holds j c d) (hfree : (s.buf i).lock = none) : j ≠ i := by
  rintro rfl
  rw [hH.lock] at hfree
  cases hfree

theorem congr (hH : s.Holds j c d) (hbuf : s'.buf j = s.buf j) (hme : s'.me = s.me) : s'.Holds j c d := by
  refine ⟨hH.lt, ?_, ?_, ?_, ?_⟩ <;> rw [hbuf]
  · exact hH.dev
  · exact hH.blockno
  · rw [hme]; exact hH.lock
  · exact hH.data

/-- The buffers that hold two different blocks are different. -/
theorem ne (hi : s.Holds i b d) (hj : s.Holds j c d') (h : c ≠ b) : j ≠ i := by
  rintro rfl
  exact h (hj.blockno.symm.trans hi.blockno)

/-- A held buffer whose contents or references change is held as before. -/
theorem updBuf (hH : s.Holds i b d)
    (hf : ∀ x, (f x).lock = x.lock ∧ (f x).dev = x.dev ∧ (f x).blockno = x.blockno) :
    (s.updBuf i f).Holds i b (f (s.buf i)).data := by
  obtain ⟨hl, hd, hb⟩ := hf (s.buf i)
  refine ⟨hH.lt, ?_, ?_, ?_, ?_⟩ <;> rw [updBuf_self]
  · exact hd.trans hH.dev
  · exact hb.trans hH.blockno
  · exact hl.trans hH.lock

theorem updBuf_ne (hH : s.Holds j c d) (h : j ≠ i) (f : Buf → Buf) : (s.updBuf i f).Holds j c d :=
  hH.congr (Mach.updBuf_ne s f h) rfl

theorem drop_ne (hH : s.Holds j c d) (h : j ≠ i) : (s.drop i).Holds j c d :=
  hH.congr (Mach.drop_ne s h) rfl

theorem diskWrite (hH : s.Holds j c d) (i : Nat) : (s.diskWrite i).Holds j c d := hH.congr rfl rfl

theorem brelse (hH : s.Holds i b d) : s.brelse i = .ok (s.drop i) := by
  simp [Mach.brelse, holding, hH.lock]

theorem bwrite (hH : s.Holds i b d) : s.bwrite i = .ok (s.diskWrite i) := by
  simp [Mach.bwrite, holding, hH.lock]

end Holds

namespace Gripped

section

variable (h : s.Gripped H)
include h

theorem iff (hH : ∀ c, H c ↔ H' c) : s.Gripped H' := by
  obtain rfl : H = H' := funext fun c => propext (hH c)
  exact h

/-- Only the locks and the keys count. -/
theorem congr (hlru : s'.bc.lru = s.bc.lru) (hme : s'.me = s.me)
    (hbuf : ∀ j, (s'.buf j).lock = (s.buf j).lock ∧ (s'.buf j).dev = (s.buf j).dev ∧
      (s'.buf j).blockno = (s.buf j).blockno) : s'.Gripped H := by
  refine ⟨by rw [hlru]; exact h.perm, h.keys.congr fun j _ => (hbuf j).2, ?_, ?_⟩
  · intro j hj hl
    rw [(hbuf j).1] at hl ⊢
    rw [(hbuf j).2.1, (hbuf j).2.2, hme]
    exact h.mine j hj hl
  · intro b hb
    obtain ⟨j, d, hj⟩ := h.held b hb
    refine ⟨j, (s'.buf j).data, hj.lt, ?_, ?_, ?_, rfl⟩
    · rw [(hbuf j).2.1]; exact hj.dev
    · rw [(hbuf j).2.2]; exact hj.blockno
    · rw [(hbuf j).1, hme]; exact hj.lock

/-- A buffer changed without touching its lock or its key. -/
theorem updBuf (i : Nat) (hf : ∀ x, (f x).lock = x.lock ∧ (f x).dev = x.dev ∧ (f x).blockno = x.blockno) :
    (s.updBuf i f).Gripped H := by
  refine h.congr rfl rfl fun j => ?_
  by_cases hji : j = i
  · subst hji
    rw [updBuf_self]
    exact hf _
  · rw [updBuf_ne s f hji]
    exact ⟨rfl, rfl, rfl⟩

theorem withLog (lg : Log) : Gripped { s with log := lg } H :=
  h.congr rfl rfl fun _ => ⟨rfl, rfl, rfl⟩

theorem diskWrite (i : Nat) : (s.diskWrite i).Gripped H :=
  h.congr rfl rfl fun _ => ⟨rfl, rfl, rfl⟩

/-- One more block is held. -/
theorem take (hfree : (s.buf i).lock = none) (hlru : s'.bc.lru = s.bc.lru)
    (hme : s'.me = s.me) (hkeys : s'.Keys) (hother : ∀ j, j ≠ i → s'.buf j = s.buf j)
    (hi : s'.Holds i b d) (hnew : ∀ j d, s.Holds j b d → j = i) :
    ¬ H b ∧ s'.Gripped (fun c => H c ∨ c = b) := by
  refine ⟨fun hb => ?_, by rw [hlru]; exact h.perm, hkeys, ?_, ?_⟩
  · obtain ⟨j, d', hj⟩ := h.held b hb
    exact hj.unlocked_ne hfree (hnew j d' hj)
  · grind [Gripped, Holds]
  · rintro c (hc | rfl)
    · obtain ⟨j, d', hj⟩ := h.held c hc
      exact ⟨j, d', hj.congr (hother j (hj.unlocked_ne hfree)) hme⟩
    · exact ⟨i, d, hi⟩

/-- `brelse`: the block is no longer held. -/
theorem drop (hi : s.Holds i b d) : (s.drop i).Gripped (fun c => H c ∧ c ≠ b) := by
  refine ⟨bput_perm h.perm hi.lt,
    h.keys.congr fun j _ => ⟨(drop_copy s i j).1, (drop_copy s i j).2.1⟩, ?_, ?_⟩
  · intro j hj hl
    have hji : j ≠ i := by
      rintro rfl
      rw [drop_self] at hl
      exact hl rfl
    rw [drop_ne s hji] at hl ⊢
    obtain ⟨hl', hd, hH⟩ := h.mine j hj hl
    exact ⟨hl', hd, hH, fun hb =>
      hji (h.keys j i hj hi.lt hd hi.dev (hb.trans hi.blockno.symm))⟩
  · rintro c ⟨hc, hcb⟩
    obtain ⟨j, d', hj⟩ := h.held c hc
    exact ⟨j, d', hj.drop_ne (hi.ne hj hcb)⟩

end

end Gripped

/-! ## Tidy buffers -/

namespace Tidy

section

variable (hT : s.Tidy L)
include hT

theorem mono {L' : List Nat} (h : ∀ c ∈ L, c ∈ L') : s.Tidy L' :=
  ⟨hT.off, hT.dev, fun i hi hv hl hb => hT.clean i hi hv hl fun hm => hb (h _ hm)⟩

theorem withLog (lg : Log) : Tidy { s with log := lg } L :=
  ⟨hT.off, hT.dev, hT.clean⟩

/-- Anything may have happened to a buffer that is held now. -/
theorem held (hf : Frame s s') (hother : ∀ j, j ≠ i → s'.buf j = s.buf j)
    (hi : s'.Holds i b d) : s'.Tidy L := by
  refine ⟨hf.hooksOff hT.off, fun j hj hv => ?_, fun j hj hv hl hb => ?_⟩
  · by_cases hji : j = i
    · rw [hji]; exact hi.dev
    · rw [hother j hji] at hv ⊢
      exact hT.dev j hj hv
  · grind [Tidy, Frame, Holds]

theorem updBuf (hi : (s.updBuf i f).Holds i b d) : (s.updBuf i f).Tidy L :=
  hT.held (updBuf_frame ..) (fun _ hj => updBuf_ne s f hj) hi

/-- A held buffer may be released when it agrees with the disk, or its block is listed. -/
theorem drop (hH : s.Holds i b d)
    (hd : (s.buf i).valid = true → b ∉ L → d = s.disk b) : (s.drop i).Tidy L := by
  have hcopy := drop_copy s i
  refine ⟨hT.off, fun j hj hv => ?_, fun j hj hv hl hb => ?_⟩
  · rw [(hcopy j).2.2.1] at hv
    rw [(hcopy j).1]
    exact hT.dev j hj hv
  · by_cases hji : j = i
    · subst hji
      rw [(hcopy j).2.1, hH.blockno] at hb ⊢
      rw [(hcopy j).2.2.1] at hv
      rw [(hcopy j).2.2.2, hH.data]
      exact hd hv hb
    · rw [drop_ne _ hji] at hv hl hb ⊢
      exact hT.clean j hj hv hl hb

/-- The one buffer of a held block. -/
theorem blockno_ne (hk : s.Keys) (hH : s.Holds i b d) (hj : j < NBUF)
    (hv : (s.buf j).valid = true) (hl : (s.buf j).lock = none) : (s.buf j).blockno ≠ b := by
  intro hb
  have hij := hk j i hj hH.lt (hT.dev j hj hv) hH.dev (hb.trans hH.blockno.symm)
  exact hH.unlocked_ne hl hij.symm

/-- Writing a held buffer out. -/
theorem diskWrite (hk : s.Keys) (hH : s.Holds i b d) : (s.diskWrite i).Tidy L := by
  refine ⟨hT.off, hT.dev, fun j hj hv hl hb => ?_⟩
  have hne : (s.buf j).blockno ≠ (s.buf i).blockno := by
    rw [hH.blockno]
    exact hT.blockno_ne hk hH hj hv hl
  exact (hT.clean j hj hv hl hb).trans (update_of_ne hne ..).symm

end

/-- The block of a held buffer needs no exemption while it is held. -/
theorem unlist (hT : s.Tidy (b :: L)) (hk : s.Keys) (hH : s.Holds i b d) : s.Tidy L :=
  ⟨hT.off, hT.dev, fun j hj hv hl hb => hT.clean j hj hv hl fun hm =>
    (mem_cons.mp hm).elim (hT.blockno_ne hk hH hj hv hl) hb⟩

end Tidy

theorem Holds.diskWrite_disk (hH : s.Holds i b d) : (s.diskWrite i).disk = update s.disk b d := by
  show update s.disk (s.buf i).blockno (s.buf i).data = _
  rw [hH.blockno, hH.data]

/-! ## Reading and releasing -/

section

variable (h : s.Gripped H)
include h

theorem Gripped.bget (b : Nat) :
    Fares (s.bget ROOTDEV b) fun r => ¬ H b ∧ r.2.Gripped (fun c => H c ∨ c = b) ∧ Frame s r.2 ∧
      r.2.Holds r.1 b (r.2.buf r.1).data ∧
      (∀ j c d, s.Holds j c d → r.2.Holds j c d ∧ j ≠ r.1) ∧ ∀ L, s.Tidy L → r.2.Tidy L ∧
        ((r.2.buf r.1).valid = true → b ∉ L → (r.2.buf r.1).data = s.disk b) := by
  cases hg : s.bget ROOTDEV b with
  | error e => exact bget_error hg
  | ok r =>
    obtain ⟨i, m⟩ := r
    have hF : Fetched s b i (m.fetch i) := bread_fetched h.perm (by rw [bread_eq, hg]; rfl)
    obtain ⟨-, hcases⟩ := bget_cases hg
    have hframe : Frame s m := by
      rcases hcases with ⟨-, rfl⟩ | ⟨-, -, rfl⟩
      · exact updBuf_frame ..
      · exact updBuf_frame ..
    -- what `fetch` leaves alone was so before it
    have hfb := fetch_buf m i
    have hdev := hF.dev
    have hbno := hF.blockno
    have hlock := hF.lock
    rw [hfb] at hdev hbno hlock
    have hi : m.Holds i b (m.buf i).data :=
      ⟨hF.lt, hdev, hbno, hlock.trans (congrArg some hframe.me.symm), rfl⟩
    have hother : ∀ j, j ≠ i → m.buf j = s.buf j := fun j hj => by
      rw [← fetch_ne m hj]
      exact hF.others j hj
    have hkeys : m.Keys := (hF.keys h.keys).congr fun j _ => by grind [fetch_ne]
    have hnew : ∀ j d, s.Holds j b d → j = i := fun j d hj => by
      by_contra hji
      exact hF.unique h.keys hj.lt hji hj.dev hj.blockno
    obtain ⟨hn, hG⟩ := h.take hF.free ((fetch_lru m i).symm.trans hF.lru) hframe.me hkeys hother hi hnew
    refine ⟨hn, hG, hframe, hi, fun j c d hj => ?_, fun L hT => ⟨hT.held hframe hother hi, fun hv hb => ?_⟩⟩
    · have hji := hj.unlocked_ne hF.free
      exact ⟨hj.congr (hother j hji) hframe.me, hji⟩
    rcases hcases with ⟨hl, rfl⟩ | ⟨-, -, rfl⟩
    · grind [Tidy, Fetched, updBuf_self]
    · rw [updBuf_self] at hv
      cases hv

/-- What `bread` returns is held; on a tidy machine, of an unlisted block it is the bytes on disk. -/
theorem Gripped.bread (b : Nat) :
    Fares (s.bread ROOTDEV b) fun r => ¬ H b ∧ r.2.Gripped (fun c => H c ∨ c = b) ∧ Frame s r.2 ∧
      (∃ d, r.2.Holds r.1 b d ∧ ∀ L, s.Tidy L → r.2.Tidy L ∧ (b ∉ L → d = s.disk b)) ∧
      ∀ j c d, s.Holds j c d → r.2.Holds j c d ∧ j ≠ r.1 := by
  rw [bread_eq]
  refine (h.bget b).bind ?_
  rintro ⟨i, m⟩ ⟨hn, hG, hf, hi, hkeep, hT⟩
  have hff := fetch_frame m i
  have hfb := fetch_buf m i
  have hbuf : ∀ j, ((m.fetch i).buf j).lock = (m.buf j).lock ∧
      ((m.fetch i).buf j).dev = (m.buf j).dev ∧ ((m.fetch i).buf j).blockno = (m.buf j).blockno := by
    grind [fetch_ne]
  obtain ⟨hl, hd, hb⟩ := hbuf i
  have hi' : (m.fetch i).Holds i b ((m.fetch i).buf i).data :=
    ⟨hi.lt, hd.trans hi.dev, hb.trans hi.blockno, hl.trans (hi.lock.trans (congrArg some hff.me.symm)), rfl⟩
  refine ⟨hn, hG.congr (fetch_lru m i) hff.me hbuf, hf.trans hff, ⟨_, hi', fun L hTL => ?_⟩,
    fun j c d hj => ?_⟩
  · obtain ⟨hTm, hdata⟩ := hT L hTL
    refine ⟨hTm.held hff (fun j hj => fetch_ne m hj) hi', fun hbL => ?_⟩
    rw [hfb]
    rw [forced_off hTm.off, Bool.or_false, hi.blockno, hf.disk]
    cases hv : (m.buf i).valid with
    | false => rfl
    | true => exact hdata hv hbL
  · obtain ⟨hj', hji⟩ := hkeep j c d hj
    exact ⟨hj'.congr (fetch_ne m hji) hff.me, hji⟩

omit h in
/-- Two held buffers are released, and the code goes on. -/
theorem Gripped.brelse2 {e : Block} {f : Mach → Except Err Mach} {Q : Mach → Prop}
    (h : s.Gripped (fun a => (H a ∨ a = b) ∨ a = c)) (hb : ¬ H b) (hc : ¬ H c) (hcb : c ≠ b)
    (hi : s.Holds i b d) (hj : s.Holds j c e)
    (hf : ∀ s', s'.Gripped H → s'.log = s.log →
      (∀ L, s.Tidy L → (b ∉ L → d = s.disk b) → (c ∉ L → e = s.disk c) → s'.Tidy L) → Fares (f s') Q) :
    Fares (do let s ← s.brelse j; let s ← s.brelse i; f s) Q := by
  have hi' := hi.drop_ne (hi.ne hj hcb).symm
  rw [hj.brelse]
  show Fares (do let s ← (s.drop j).brelse i; f s) Q
  rw [hi'.brelse]
  refine hf _ (((h.drop hj).drop hi').iff fun a => ?_) rfl fun L hT hdb hdc =>
    (hT.drop hj fun _ => hdc).drop hi' fun _ => hdb
  constructor
  · grind
  · intro ha
    exact ⟨⟨.inl (.inl ha), fun he => hc (he ▸ ha)⟩, fun he => hb (he ▸ ha)⟩

omit h in
/-- One held buffer released, and nothing after it. -/
theorem Gripped.brelse (h : s.Gripped (fun a => H a ∨ a = b)) (hb : ¬ H b) (hi : s.Holds i b d) :
    Fares (s.brelse i) fun s' => s'.Gripped H ∧ s'.log = s.log ∧
      ∀ L, s.Tidy L → ((s.buf i).valid = true → b ∉ L → d = s.disk b) → s'.Tidy L := by
  rw [hi.brelse]
  refine ⟨(h.drop hi).iff fun a => ?_, rfl, fun L hT hd => hT.drop hi hd⟩
  constructor
  · rintro ⟨ha | ha, hab⟩
    · exact ha
    · exact absurd ha hab
  · intro ha
    exact ⟨.inl ha, fun he => hb (he ▸ ha)⟩

/-! ## The log -/

/-- The contents of a held buffer are replaced and written out. -/
theorem Gripped.setWrite (hi : s.Holds i b d) (e : Block) :
    ((s.setData i e).diskWrite i).Gripped H ∧ ((s.setData i e).diskWrite i).Holds i b e ∧
      (s.setData i e).bwrite i = .ok ((s.setData i e).diskWrite i) ∧
      ((s.setData i e).diskWrite i).disk = update s.disk b e ∧
      ∀ L, s.Tidy L → ((s.setData i e).diskWrite i).Tidy L := by
  have hG : (s.setData i e).Gripped H := h.updBuf i fun _ => ⟨rfl, rfl, rfl⟩
  have hi' : (s.setData i e).Holds i b e := hi.updBuf fun _ => ⟨rfl, rfl, rfl⟩
  exact ⟨hG.diskWrite i, hi'.diskWrite i, hi'.bwrite, hi'.diskWrite_disk,
    fun L hT => (hT.updBuf hi').diskWrite hG.keys hi'⟩

theorem Gripped.writeLog (tail : Nat) (bs : List Nat) :
    Fares (writeLog tail bs s) fun s' => s'.Gripped H ∧ s'.log = s.log ∧ ∀ L, s.Tidy L → s'.Tidy L := by
  induction bs generalizing s tail with
  | nil => exact ⟨h, rfl, fun _ hT => hT⟩
  | cons c bs ih =>
    refine (h.bread _).bind ?_
    rintro ⟨i, s1⟩ ⟨hx, h1, hf1, ⟨d, hi, hT1⟩, -⟩
    refine (h1.bread c).bind ?_
    rintro ⟨j, s2⟩ ⟨hc, h2, hf2, ⟨e, hj, hT2⟩, hkeep⟩
    rw [not_or] at hc
    obtain ⟨hi2, hij⟩ := hkeep i _ d hi
    -- `to` gets the contents of `from` and is written out
    obtain ⟨h3, hi3, hwrite, hdisk, hT3⟩ := h2.setWrite hi2 (s2.buf j).data
    dsimp only
    rw [hwrite]
    refine h3.brelse2 hx hc.1 hc.2 hi3 ((hj.updBuf_ne hij.symm _).diskWrite i) fun s4 h4 hlog4 hT4 => ?_
    refine (ih h4 (tail + 1)).mono ?_
    rintro s5 ⟨h5, hlog5, hT5⟩
    refine ⟨h5, hlog5.trans (hlog4.trans (hf2.log.trans hf1.log)), fun L hT => hT5 L (hT4 L ?_ ?_ ?_)⟩
    · exact hT3 L (hT2 L (hT1 L hT).1).1
    · intro _
      rw [hdisk, update_self]
    · intro hcL
      rw [hdisk, update_of_ne hc.2, (hT2 L (hT1 L hT).1).2 hcL, hf2.disk]

/-- After `install_trans` nothing is exempt any more. -/
theorem Gripped.installTrans (tail : Nat) (bs : List Nat) :
    Fares (installTrans tail bs s) fun s' => s'.Gripped H ∧ s'.log = s.log ∧ (s.Tidy bs → s'.Tidy []) := by
  induction bs generalizing s tail with
  | nil => exact ⟨h, rfl, fun hT => hT⟩
  | cons c bs ih =>
    refine (h.bread _).bind ?_
    rintro ⟨i, s1⟩ ⟨hx, h1, hf1, ⟨d, hi, hT1⟩, -⟩
    refine (h1.bread c).bind ?_
    rintro ⟨j, s2⟩ ⟨hc, h2, hf2, ⟨e, hj, hT2⟩, hkeep⟩
    rw [not_or] at hc
    obtain ⟨hi2, hij⟩ := hkeep i _ d hi
    -- the home block gets the logged contents and is written out
    obtain ⟨h3, hj3, hwrite, hdisk, hT3⟩ := h2.setWrite hj (s2.buf i).data
    have hpin : ∀ x : Buf, ({ x with refcnt := dec32 x.refcnt } : Buf).lock = x.lock ∧
        x.dev = x.dev ∧ x.blockno = x.blockno := fun _ => ⟨rfl, rfl, rfl⟩
    have hj4 := hj3.updBuf hpin
    dsimp only
    rw [hwrite]
    refine ((h3.updBuf j hpin).iff fun a => or_right_comm).brelse2 hc.1 hx (Ne.symm hc.2) hj4
      (((hi2.updBuf_ne hij _).diskWrite j).updBuf_ne hij _) fun s4 h4 hlog4 hT4 => ?_
    refine (ih h4 (tail + 1)).mono ?_
    rintro s5 ⟨h5, hlog5, hT5⟩
    refine ⟨h5, hlog5.trans (hlog4.trans (hf2.log.trans hf1.log)), fun hT => hT5 (hT4 bs ?_ ?_ ?_)⟩
    · exact (hT3 bs ((hT2 _ (hT1 _ hT).1).1.unlist h2.keys hj)).updBuf hj4
    · intro _
      show _ = ((s2.setData j (s2.buf i).data).diskWrite j).disk c
      rw [hdisk, update_self]
      exact hj3.data
    · intro hxL
      show _ = ((s2.setData j (s2.buf i).data).diskWrite j).disk _
      rw [hdisk, update_of_ne (Ne.symm hc.2), hf2.disk, hf1.disk]
      exact (hT1 _ hT).2 fun hm => (mem_cons.mp hm).elim (Ne.symm hc.2) hxL

theorem Gripped.writeHead :
    Fares s.writeHead fun s' => s'.Gripped H ∧ s'.log = s.log ∧ ∀ L, s.Tidy L → s'.Tidy L := by
  refine (h.bread _).bind ?_
  rintro ⟨i, s1⟩ ⟨hx, h1, hf1, ⟨d, hi, hT1⟩, -⟩
  obtain ⟨h2, hi2, hwrite, hdisk, hT2⟩ := h1.setWrite hi (writeHdr (s1.buf i).data s1.log.lh)
  dsimp only
  rw [hwrite]
  refine (h2.brelse hx hi2).mono ?_
  rintro s' ⟨h', hlog', hT'⟩
  refine ⟨h', hlog'.trans hf1.log, fun L hT => hT' L (hT2 L (hT1 L hT).1) fun _ _ => ?_⟩
  rw [hdisk, update_self]

theorem Gripped.commit : Fares s.commit fun s' => s'.Gripped H ∧ s'.log = { s.log with lh := [] } ∧
      (s.Tidy s.log.lh → s'.Tidy []) := by
  unfold Mach.commit
  split
  · refine (h.writeLog 0 _).bind ?_
    rintro s1 ⟨h1, hlog1, hT1⟩
    refine h1.writeHead.bind ?_
    rintro s2 ⟨h2, hlog2, hT2⟩
    refine (h2.installTrans 0 _).bind ?_
    rintro s3 ⟨h3, hlog3, hT3⟩
    refine (h3.withLog { s3.log with lh := [] }).writeHead.mono ?_
    rintro s4 ⟨h4, hlog4, hT4⟩
    refine ⟨h4, hlog4.trans ?_, fun hT => hT4 _ (Tidy.withLog (hT3 ?_) _)⟩
    · show { s3.log with lh := [] } = _
      rw [hlog3, hlog2, hlog1]
    · rw [hlog2, hlog1]
      exact hT2 _ (hT1 _ hT)
  · next hn =>
    have hnil : s.log.lh = [] := by simpa using hn
    refine ⟨h, ?_, fun hT => ?_⟩
    · rw [← hnil]
    · rwa [hnil] at hT

theorem Gripped.endOp (hc : s.log.committing = false) :
    Fares s.endOp fun s' => s'.Gripped H ∧ s'.log.outstanding = s.log.outstanding - 1 ∧
      s'.log.committing = false ∧ (s.Tidy s.log.lh → s'.Tidy s'.log.lh) := by
  unfold Mach.endOp
  dsimp only
  rw [hc, if_neg Bool.false_ne_true]
  split
  · refine (Gripped.commit (h.withLog _)).bind ?_
    rintro s1 ⟨h1, hlog, hT1⟩
    refine ⟨h1.withLog _, congrArg Log.outstanding hlog, rfl, fun hT => Tidy.withLog ?_ _⟩
    rw [hlog]
    exact hT1 (hT.withLog _)
  · exact ⟨h.withLog _, rfl, rfl, fun hT => hT.withLog _⟩

end

theorem beginOp_fares (s : Mach) : Fares s.beginOp fun s' =>
    s' = { s with log := { s.log with outstanding := s.log.outstanding + 1 } } := by
  unfold Mach.beginOp
  split
  · exact rfl
  · exact (rfl : Err.ofMachine .blocked = true)

theorem logWrite_fares (s : Mach) (i : Nat) : Fares (s.logWrite i) fun s' => s' = s.record i := by
  unfold Mach.logWrite
  split
  · exact (by decide : Err.ofMachine (.panic "too big a transaction") = true)
  split
  · exact (by decide : Err.ofMachine (.panic "log_write outside of trans") = true)
  · exact rfl

/-- A machine that has booted, whatever was on its disk, holds nothing and is tidy. -/
theorem boot_gripped {me start size : Nat} {d : Nat → Block} {m : Mach}
    (h : initlog (bootMach me d) start size = .ok m) :
    m.Gripped (fun _ => False) ∧ m.log.outstanding = 0 ∧ m.log.committing = false ∧ m.Tidy m.log.lh := by
  have hlog : m.log = ⟨start, size, 0, false, []⟩ := recoverFromLog_log h
  have hP := (boot_pinned me d ⟨start, size, 0, false, []⟩).inv
  have hG : Gripped { bootMach me d with log := ⟨start, size, 0, false, []⟩ } (fun _ => False) := by
    refine ⟨hP.perm, hP.keys, fun i hi hl => ?_, fun _ hb => hb.elim⟩
    rw [hP.locks i hi, if_neg not_mem_nil] at hl
    exact absurd rfl hl
  have hT : Tidy { bootMach me d with log := ⟨start, size, 0, false, []⟩ } [] :=
    ⟨⟨rfl, rfl⟩, fun _ _ hv => (by cases hv), fun _ _ hv => (by cases hv)⟩
  have hF : Fares (initlog (bootMach me d) start size) fun m => m.Gripped (fun _ => False) ∧ m.Tidy [] := by
    refine Fares.bind (P := fun s => s.Gripped (fun _ => False) ∧ s.Tidy []) ?_ fun s1 h1 => ?_
    · refine (hG.bread start).bind ?_
      rintro ⟨i, s1⟩ ⟨-, h1, hf1, ⟨e, hi, hT1⟩, -⟩
      dsimp only
      split
      · exact (rfl : Err.ofMachine .undef = true)
      · next lh _ =>
        -- `read_head` fills in the list; no buffer is exempt on its account
        have hi' : (s1.setLh lh).Holds i start e := hi.congr rfl rfl
        refine ((h1.withLog _).brelse id hi').mono ?_
        rintro s' ⟨h', -, hT'⟩
        refine ⟨h', hT' [] ((hT1 [] hT).1.withLog _) fun _ hn => ?_⟩
        exact ((hT1 [] hT).2 hn).trans (congrFun hf1.disk _).symm
    · refine (h1.1.installTrans 0 _).bind fun s2 h2 => ?_
      refine (h2.1.withLog _).writeHead.mono fun s' hs' => ⟨hs'.1, hs'.2.2 [] (Tidy.withLog ?_ _)⟩
      exact h2.2.2 (h1.2.mono fun _ hc => absurd hc not_mem_nil)
  rw [h] at hF
  exact ⟨hF.1, by rw [hlog], by rw [hlog], by rw [hlog]; exact hF.2⟩

/-! ## The raw calls -/

theorem Gripped.rawRead {s : Kern} (h : s.mach.Gripped H) (b : Nat) (um : UserMem) (addr : Nat) :
    Fares (s.rawRead b um addr) fun r => r.2.mem = s.mem ∧ r.2.mach.Gripped H ∧
      r.2.mach.log = s.mach.log ∧ ∀ L, s.mach.Tidy L → r.2.mach.Tidy L := by
  refine (h.bget b).bind ?_
  rintro ⟨i, m⟩ ⟨hn, hG, hf, hi, -, hT⟩
  have hset : ∀ x : Buf, ({ x with data := m.disk x.blockno } : Buf).lock = x.lock ∧ x.dev = x.dev ∧
      x.blockno = x.blockno := fun _ => ⟨rfl, rfl, rfl⟩
  have hi' := hi.updBuf hset
  refine ((hG.updBuf i hset).brelse hn hi').bind ?_
  rintro m' ⟨h', hlog', hT'⟩
  refine ⟨rfl, h', hlog'.trans hf.log, fun L hTL => hT' L ((hT L hTL).1.updBuf hi') fun _ _ => ?_⟩
  exact congrArg m.disk hi.blockno

theorem Gripped.rawWrite {s : Kern} (h : s.mach.Gripped H) (b : Nat) (um : UserMem) (addr : Nat) :
    Fares (s.rawWrite b um addr) fun r => r.2.mem = s.mem ∧ r.2.mach.Gripped H ∧ r.2.mach.log = s.mach.log ∧
      (Untorn (.rawWrite b um addr) s → ∀ L, s.mach.Tidy L → r.2.mach.Tidy L) := by
  refine (h.bget b).bind ?_
  rintro ⟨i, m⟩ ⟨hn, hG, hf, hi, -, hT⟩
  have hset : ∀ x : Buf, ({ x with data := (um.copyin (m.buf i).data 0 addr BSIZE).1 } : Buf).lock =
      x.lock ∧ x.dev = x.dev ∧ x.blockno = x.blockno := fun _ => ⟨rfl, rfl, rfl⟩
  have hG' := hG.updBuf i hset
  have hi' := hi.updBuf hset
  dsimp only
  split
  · have hval : ∀ x : Buf, ({ x with valid := true } : Buf).lock = x.lock ∧ x.dev = x.dev ∧
        x.blockno = x.blockno := fun _ => ⟨rfl, rfl, rfl⟩
    have hi'' := hi'.updBuf hval
    refine (((hG'.updBuf i hval).diskWrite i).brelse hn (hi''.diskWrite i)).bind ?_
    rintro m' ⟨h', hlog', hT'⟩
    refine ⟨rfl, h', hlog'.trans hf.log, fun _ L hTL => hT' L ?_ fun _ _ => ?_⟩
    · exact (((hT L hTL).1.updBuf hi').updBuf hi'').diskWrite (hG'.updBuf i hval).keys hi''
    · rw [hi''.diskWrite_disk, update_self]
  · next hfail =>
    refine (hG'.brelse hn hi').bind ?_
    rintro m' ⟨h', hlog', hT'⟩
    refine ⟨rfl, h', hlog'.trans hf.log, fun hu L hTL => ?_⟩
    obtain ⟨hTm, hdata⟩ := hT L hTL
    -- nothing was copied, so that the buffer is as `bget` found it
    refine hT' L (hTm.updBuf hi') fun hv hb => ?_
    have hsame := (hu (m.buf i).data).resolve_left hfail
    rw [updBuf_self] at hv
    exact (hsame.trans (hdata hv hb)).trans (congrFun hf.disk b).symm

end Mach

/-! ## The machine keeps the desk -/

/-- The desk beside the machine. -/
structure OnDesk (neat : Prop) (s : Kern) (t : Desk) : Prop where
  mem : s.mem = t.mem
  grip : s.mach.Gripped fun b => t.held b ≠ none
  held : ∀ b m c, t.held b = some (m, c) → ∃ i, s.mach.Holds i b c ∧
    (neat → b ∉ s.mach.log.lh → m = s.mach.disk b)
  out : s.mach.log.outstanding = t.out
  idle : s.mach.log.committing = false
  tidy : neat → s.mach.Tidy s.mach.log.lh

namespace OnDesk

variable {neat : Prop} {s : Kern} {t : Desk} {m c : Block}

theorem heldBuf (hR : OnDesk neat s t) (hH : s.mach.Holds i b c) : s.heldBuf b = some i := by
  have hp : (s.mach.holding i && (s.mach.buf i).dev == ROOTDEV && (s.mach.buf i).blockno == b) = true := by
    simp [Mach.holding, hH.lock, hH.dev, hH.blockno]
  cases hf : s.heldBuf b with
  | none => exact absurd hp (find?_eq_none.mp hf i (mem_range.mpr hH.lt))
  | some j =>
    have hj := find?_some hf
    have hlt := mem_range.mp (mem_of_find?_eq_some hf)
    simp only [Bool.and_eq_true, beq_iff_eq] at hj
    rw [hR.grip.keys j i hlt hH.lt hj.1.2 hH.dev (hj.2.trans hH.blockno.symm)]

/-- The step of the machine on the buffer of a block on the desk. -/
theorem onHeld {f : Nat → Except Err α} (hR : OnDesk neat s t) (hb : t.held b = some (m, c))
    (h : ∀ i, s.mach.Holds i b c → (neat → b ∉ s.mach.log.lh → m = s.mach.disk b) → Fares (f i) P) :
    Fares (s.onHeld b f) P := by
  obtain ⟨i, hi, hm⟩ := hR.held b m c hb
  rw [Kern.onHeld_some (hR.heldBuf hi)]
  exact h i hi hm

/-- A machine step on the buffer of `b` that leaves the other held buffers alone. -/
theorem change (hR : OnDesk neat s t) {mach : Mach} {x : Option (Block × Block)}
    (hG : mach.Gripped fun c => update t.held b x c ≠ none)
    (hout : mach.log.outstanding = s.mach.log.outstanding)
    (hidle : mach.log.committing = s.mach.log.committing) (hT : neat → mach.Tidy mach.log.lh)
    (hkeep : ∀ j c' d, c' ≠ b → s.mach.Holds j c' d → mach.Holds j c' d)
    (hdisk : ∀ c', c' ∉ mach.log.lh → c' ∉ s.mach.log.lh ∧ mach.disk c' = s.mach.disk c')
    (hself : ∀ m c, x = some (m, c) → ∃ i, mach.Holds i b c ∧ (neat → b ∉ mach.log.lh → m = mach.disk b)) :
    OnDesk neat { s with mach := mach } { t with held := update t.held b x } := by
  refine ⟨hR.mem, hG, fun c' m d h => ?_, hout.trans hR.out, hidle.trans hR.idle, hT⟩
  by_cases hc : c' = b
  · subst hc
    rw [show (_ : Desk).held c' = x from update_self ..] at h
    exact hself m d h
  · grind [OnDesk]

/-- A machine step made with an empty desk. -/
theorem clear (hR : OnDesk neat s t) (hnone : ∀ b, t.held b = none) {r : Kern}
    (hmem : r.mem = s.mem) (hG : r.mach.Gripped fun b => t.held b ≠ none) {out : Int}
    (hout : r.mach.log.outstanding = out) (hidle : r.mach.log.committing = false)
    (hT : neat → r.mach.Tidy r.mach.log.lh) : OnDesk neat r { t with out := out } :=
  ⟨hmem.trans hR.mem, hG, fun b _ _ hb => absurd ((hnone b).symm.trans hb)
    (some_ne_none _).symm, hout, hidle, hT⟩

/-- Which blocks are on the desk after one is put there. -/
theorem update_some (x : Block × Block) (a : Nat) :
    (t.held a ≠ none ∨ a = b) ↔ update t.held b (some x) a ≠ none := by
  by_cases ha : a = b
  · subst ha; simp
  · simp [ha]

/-- The block was there already. -/
theorem update_same (hb : t.held b ≠ none) (x : Block × Block) (a : Nat) :
    t.held a ≠ none ↔ update t.held b (some x) a ≠ none := by
  rw [← update_some]
  exact ⟨.inl, fun h => h.elim id fun e => e ▸ hb⟩

/-- And after one is taken away. -/
theorem update_none (a : Nat) : (t.held a ≠ none ∧ a ≠ b) ↔ update t.held b none a ≠ none := by
  by_cases ha : a = b
  · subst ha; simp
  · simp [ha]

/-- The calls, one by one. -/
theorem serve (hR : OnDesk neat s t) (o : Bcall) (hG : neat → Untorn o s)
    (hsafe : Desk.Safe neat o t) (ho : ∀ e, o ≠ .fail e) :
    Fares (Kern.serve o s) fun r => ∃ t', Desk.Step neat o t r.1 t' ∧ OnDesk neat r.2 t' := by
  cases o with
  | bread b =>
    have hx : Fares (do pure (← s.mach.bread ROOTDEV b).2) fun m => ∃ t',
        Desk.Step neat (.bread b) t () t' ∧ OnDesk neat { s with mach := m } t' := by
      refine (hR.grip.bread b).bind ?_
      rintro ⟨i, m⟩ ⟨hn, hG, hf, ⟨d, hi, hT⟩, hkeep⟩
      refine ⟨_, ⟨not_not.mp hn, d, rfl⟩, hR.change (hG.iff (update_some (d, d)))
        (by rw [hf.log]) (by rw [hf.log]) ?_ ?_ ?_ ?_⟩
      · intro hn
        rw [hf.log]
        exact (hT _ (hR.tidy hn)).1
      · intro j c' d' _ hj
        exact (hkeep j c' d' hj).1
      · intro c' hl
        rw [hf.log] at hl
        exact ⟨hl, congrFun hf.disk c'⟩
      · intro m' c hx
        obtain ⟨rfl, rfl⟩ := Prod.mk.inj (some.inj hx)
        refine ⟨i, hi, fun hn hl => ?_⟩
        rw [hf.log] at hl
        rw [hf.disk]
        exact (hT _ (hR.tidy hn)).2 hl
    show Fares (s.lift _) _
    generalize (do pure (← s.mach.bread ROOTDEV b).2 : Except Err Mach) = x at hx
    cases x with
    | error e => exact hx
    | ok m => exact hx
  | data b =>
    obtain ⟨⟨m, c⟩, hh⟩ := ne_none_iff_exists'.mp hsafe
    refine hR.onHeld hh fun i hi _ => ⟨t, ⟨m, ?_, rfl⟩, hR⟩
    rw [hi.data]
    exact hh
  | store b d =>
    obtain ⟨⟨m, c⟩, hh⟩ := ne_none_iff_exists'.mp hsafe
    refine hR.onHeld hh fun i hi hm => ⟨_, ⟨m, c, hh, rfl⟩, ?_⟩
    have hset : ∀ x : Buf, ({ x with data := d } : Buf).lock = x.lock ∧ x.dev = x.dev ∧
        x.blockno = x.blockno := fun _ => ⟨rfl, rfl, rfl⟩
    have hi' : (s.mach.setData i d).Holds i b d := hi.updBuf hset
    refine hR.change ((hR.grip.updBuf i hset).iff (update_same hsafe (m, d))) rfl rfl
      (fun hn => (hR.tidy hn).updBuf hi') (fun l c' d' hc hl => hl.updBuf_ne (hi.ne hl hc) _)
      (fun c' hl => ⟨hl, rfl⟩) ?_
    intro m' c' hx
    obtain ⟨rfl, rfl⟩ := Prod.mk.inj (some.inj hx)
    exact ⟨i, hi', hm⟩
  | logWrite b =>
    obtain ⟨⟨m, c⟩, hh⟩ := ne_none_iff_exists'.mp hsafe
    refine hR.onHeld hh fun i hi hm => ?_
    have hx : Fares (s.mach.logWrite i) fun mach => ∃ t',
        Desk.Step neat (.logWrite b) t () t' ∧ OnDesk neat { s with mach := mach } t' := by
      refine (Mach.logWrite_fares s.mach i).mono ?_
      rintro mach rfl
      refine ⟨_, ⟨m, c, hh, rfl⟩, ?_⟩
      have hsame := update_same hsafe (c, c)
      rw [Mach.record, hi.blockno]
      split
      · next hmem =>
        -- absorbed
        refine hR.change (hR.grip.iff hsame) rfl rfl hR.tidy (fun _ _ _ _ h => h) (fun _ hl => ⟨hl, rfl⟩) ?_
        intro m' c' hx
        obtain ⟨rfl, rfl⟩ := Prod.mk.inj (some.inj hx)
        exact ⟨i, hi, fun _ hl => absurd hmem hl⟩
      · have hpin : ∀ x : Buf, ({ x with refcnt := inc32 x.refcnt } : Buf).lock = x.lock ∧
            x.dev = x.dev ∧ x.blockno = x.blockno := fun _ => ⟨rfl, rfl, rfl⟩
        have hi' := hi.updBuf hpin
        refine hR.change (((hR.grip.updBuf i hpin).withLog _).iff hsame) rfl rfl (fun hn => ?_)
          (fun l c' d' hc hl => hl.congr
            (show (s.mach.bpin i).buf l = _ from Mach.updBuf_ne _ _ (hi.ne hl hc)) rfl)
          (fun c' hl => ⟨fun hm => hl (mem_append_left _ hm), rfl⟩) ?_
        · exact (((hR.tidy hn).updBuf hi').mono fun c hc => mem_append_left _ hc).withLog _
        · intro m' c' hx
          obtain ⟨rfl, rfl⟩ := Prod.mk.inj (some.inj hx)
          refine ⟨i, ⟨hi'.lt, hi'.dev, hi'.blockno, hi'.lock, hi'.data.trans hi.data⟩,
            fun _ hl => absurd ?_ hl⟩
          exact mem_append_right _ (mem_singleton_self b)
    generalize s.mach.logWrite i = x at hx
    cases x with
    | error e => exact hx
    | ok m => exact hx
  | brelse b =>
    obtain ⟨m, c, hh, hmc⟩ := hsafe
    refine hR.onHeld hh fun i hi hm => ?_
    rw [hi.brelse]
    refine ⟨_, rfl, hR.change ((hR.grip.drop hi).iff update_none) rfl rfl (fun hn => ?_)
      (fun l c' d' hc hl => hl.drop_ne (hi.ne hl hc)) (fun c' hl => ⟨hl, rfl⟩) fun _ _ hx => by cases hx⟩
    exact (hR.tidy hn).drop hi fun _ hl => (hmc hn) ▸ hm hn hl
  | beginOp =>
    have hx := Mach.beginOp_fares s.mach
    show Fares (s.lift _) _
    generalize s.mach.beginOp = x at hx
    cases x with
    | error e => exact hx
    | ok m =>
      obtain rfl := hx
      refine ⟨_, rfl, hR.mem, hR.grip.withLog _, fun b m c hb => ?_, congrArg (· + 1) hR.out, hR.idle,
        fun hn => (hR.tidy hn).withLog _⟩
      obtain ⟨i, hi, hm⟩ := hR.held b m c hb
      exact ⟨i, hi.congr rfl rfl, hm⟩
  | endOp =>
    have hx := hR.grip.endOp hR.idle
    show Fares (s.lift _) _
    generalize s.mach.endOp = x at hx
    cases x with
    | error e => exact hx
    | ok m =>
      obtain ⟨hG, hout, hidle, hT⟩ := hx
      exact ⟨_, rfl, hR.clear (r := { s with mach := m }) hsafe rfl hG (hout.trans (congrArg (· - 1) hR.out)) hidle
        fun hn => hT (hR.tidy hn)⟩
  | mem => exact ⟨t, ⟨hR.mem, rfl⟩, hR⟩
  | setMem m => exact ⟨_, rfl, rfl, hR.grip, hR.held, hR.out, hR.idle, hR.tidy⟩
  | copyin src tot d off m => exact ⟨t, ⟨hG, rfl⟩, hR⟩
  | rawRead b um addr =>
    refine (hR.grip.rawRead b um addr).mono ?_
    rintro r ⟨hmem, hG, hlog, hT⟩
    refine ⟨t, rfl, hR.clear hsafe hmem hG (by rw [hlog, hR.out]) (by rw [hlog, hR.idle]) fun hn => ?_⟩
    rw [hlog]
    exact hT _ (hR.tidy hn)
  | rawWrite b um addr =>
    refine (hR.grip.rawWrite b um addr).mono ?_
    rintro r ⟨hmem, hgrip, hlog, hT⟩
    refine ⟨t, rfl, hR.clear hsafe hmem hgrip (by rw [hlog, hR.out]) (by rw [hlog, hR.idle]) fun hn => ?_⟩
    rw [hlog]
    exact hT (hG hn) _ (hR.tidy hn)
  | forceFail pbn =>
    exact ⟨t, rfl, hR.mem, hR.grip.congr rfl rfl fun _ => ⟨rfl, rfl, rfl⟩, fun b m c hb => by
        obtain ⟨i, hi, hm⟩ := hR.held b m c hb
        exact ⟨i, hi.congr rfl rfl, hm⟩,
      hR.out, hR.idle, fun hn => ⟨⟨hG hn, (hR.tidy hn).off.2⟩, (hR.tidy hn).dev, (hR.tidy hn).clean⟩⟩
  | forceDiskFail id =>
    exact ⟨t, rfl, hR.mem, hR.grip.congr rfl rfl fun _ => ⟨rfl, rfl, rfl⟩, fun b m c hb => by
        obtain ⟨i, hi, hm⟩ := hR.held b m c hb
        exact ⟨i, hi.congr rfl rfl, hm⟩,
      hR.out, hR.idle, fun hn => ⟨⟨(hR.tidy hn).off.1, hG hn⟩, (hR.tidy hn).dev, (hR.tidy hn).clean⟩⟩
  | fail e => exact absurd rfl (ho e)

end OnDesk

theorem Err.misuse_ofMachine {e : Err} (h : e.misuse = true) : e.ofMachine = false := by
  cases e with
  | panic msg =>
    simp only [misuse, mem_cons, not_mem_nil, or_false, decide_eq_true_eq] at h
    rcases h with rfl | rfl | rfl <;> decide
  | blocked => cases h
  | undef => cases h

/-- **The machine keeps the discipline's promise**, and away from neat runs it does not fail by
    misuse. -/
theorem serve_desk (neat : Prop) : ServesWhen Kern.serve (fun o s => neat → Untorn o s)
    (fun e => ¬ neat ∧ e.misuse = true) (Desk.spec neat) (OnDesk neat) := by
  intro o s t hR hG hsafe
  by_cases ho : ∃ e, o = .fail e
  · obtain ⟨e, rfl⟩ := ho
    rintro ⟨hn, he⟩
    rw [hsafe.resolve_left hn] at he
    cases he
  have hserve := hR.serve o hG hsafe fun e he => ho ⟨e, he⟩
  cases hs : Kern.serve o s with
  | ok r => rw [hs] at hserve; exact hserve
  | error e =>
    rw [hs] at hserve
    rintro ⟨-, he⟩
    exact absurd ((Err.misuse_ofMachine he).symm.trans hserve) Bool.false_ne_true

end Xv6
