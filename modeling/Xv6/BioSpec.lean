/-
  WHAT THE BUFFER CACHE DOES, said once.

  `Inv T H P` is the cache's invariant while one process runs: `H` is the list of buffers it holds,
  `P i` the references to buffer `i` that are pins, and `T` the blocks whose cached copy may differ
  from the disk without anybody holding or pinning it (none, in a healthy run).  Reference counts
  are equal to `H.count i + P i` MODULO `2 ^ 32`, which is what the C code maintains and all it
  maintains.

  `view b` is the contents the next `bread` of `b` returns.  Each primitive gets one lemma: what it
  returns, that the invariant still holds, and what happened to `view` — mostly nothing:

  * `bread_post`    — returns `view b`, changes no `view` (recycling drops CLEAN buffers only);
  * `bwrite_post`   — changes the disk, not the `view`;
  * `brelse_post`   — changes nothing but the reference;
  * `setData_inv`, `view_setData` — change the `view` of one block.
-/
import Xv6.Log
import Mathlib.Data.List.Nodup

namespace Xv6

open Function List Bcache

variable {f : Buf → Buf} {s s' : Mach} {b i p : Nat} {α : Type} {x : Except Err α}

variable {dev j : Nat}

/-- A sequence of fallible steps that succeeds is a success of each of them. -/
theorem bind_ok {β : Type} {f : α → Except Err β} {b : β}
    (h : (x >>= f) = .ok b) : ∃ a, x = .ok a ∧ f a = .ok b := by
  cases x with
  | error e => cases h
  | ok a => exact ⟨a, rfl, h⟩

theorem toOption_eq_some {a : α} (h : x.toOption = some a) : x = .ok a := by
  cases x with
  | error e => cases h
  | ok b => exact congrArg _ (Option.some.inj h)

/-- The call has failed, and this is how. -/
def failsWith {α : Type} (x : Except Err α) (e : Err) : Bool :=
  match x with
  | .ok _ => false
  | .error e' => e' = e

theorem failsWith_eq {e : Err} (h : failsWith x e = true) : x = .error e := by
  cases x with
  | ok a => cases h
  | error e' => rw [show e' = e from of_decide_eq_true h]

namespace Mach

/-! ## The contents of a block, as the next `bread` sees them -/

/-- Does buffer `i` hold a valid copy of block `b`? -/
def caches (s : Mach) (b i : Nat) : Bool :=
  (s.buf i).dev == ROOTDEV && (s.buf i).blockno == b && (s.buf i).valid

/-- The cached contents if there are any, else those on the disk. -/
def view (s : Mach) (b : Nat) : Block :=
  match (List.range NBUF).find? (s.caches b) with
  | some i => (s.buf i).data
  | none => s.disk b

theorem caches_iff : s.caches b i = true ↔
      (s.buf i).dev = ROOTDEV ∧ (s.buf i).blockno = b ∧ (s.buf i).valid = true := by
  simp [caches, and_assoc]

theorem view_disk (h : ∀ i, i < NBUF → s.caches b i = false) : s.view b = s.disk b := by
  have hn : (range NBUF).find? (s.caches b) = none :=
    find?_eq_none.mpr fun i hi => by simp [h i (mem_range.mp hi)]
  rw [view, hn]

/-- `view` reads nothing but the valid copies and the disk. -/
theorem view_congr (hd : s'.disk b = s.disk b) (hc : ∀ i, i < NBUF → s'.caches b i = s.caches b i)
    (hdata : ∀ i, i < NBUF → s.caches b i = true → (s'.buf i).data = (s.buf i).data) :
    s'.view b = s.view b := by
  have hf : (range NBUF).find? (s'.caches b) = (range NBUF).find? (s.caches b) := by
    rw [← head?_filter, ← head?_filter]
    exact congrArg _ (filter_congr fun i hi => hc i (mem_range.mp hi))
  rw [view, view, hf]
  cases hfs : (range NBUF).find? (s.caches b) with
  | none => exact hd
  | some i =>
    have hi := mem_range.mp (mem_of_find?_eq_some hfs)
    exact hdata i hi (find?_some hfs)

/-! ## The invariant -/

/-- Both fault hooks at `-1`. -/
def HooksOff (s : Mach) : Prop := s.forceReadErrorPbn = -1 ∧ s.forceDiskFailId = -1

/-- At most one buffer per block. -/
def Keys (s : Mach) : Prop :=
  ∀ i j, i < NBUF → j < NBUF → (s.buf i).dev = ROOTDEV → (s.buf j).dev = ROOTDEV →
    (s.buf i).blockno = (s.buf j).blockno → i = j

/-- The cache in order: `H` are the held buffers, `P` counts the pins, and `T` are the blocks whose
    copies need not agree with the disk. -/
structure Inv (s : Mach) (T : Nat → Prop) (H : List Nat) (P : Nat → Nat) : Prop where
  /-- The list threads every buffer exactly once. -/
  perm : s.bc.lru.Perm (List.range NBUF)
  keys : s.Keys
  refs : ∀ i, i < NBUF → (s.buf i).refcnt = (H.count i + P i) % 4294967296
  locks : ∀ i, i < NBUF → (s.buf i).lock = if i ∈ H then some s.me else none
  nodup : H.Nodup
  held : ∀ i ∈ H, i < NBUF ∧ (s.buf i).dev = ROOTDEV ∧ (s.buf i).valid = true
  pinned : ∀ i, i < NBUF → P i ≠ 0 → (s.buf i).dev = ROOTDEV ∧ (s.buf i).valid = true
  /-- What may be recycled agrees with the disk. -/
  clean : ∀ i, i < NBUF → i ∉ H → (s.buf i).refcnt = 0 → (s.buf i).dev = ROOTDEV →
    (s.buf i).valid = true → ¬ T (s.buf i).blockno → (s.buf i).data = s.disk (s.buf i).blockno

variable {T : Nat → Prop} {H : List Nat} {P : Nat → Nat}

/-- The list threads every buffer: what the two loops of `bget` find is a buffer. -/
theorem mem_lru (hperm : s.bc.lru.Perm (range NBUF)) : i ∈ s.bc.lru ↔ i < NBUF := by
  rw [hperm.mem_iff, mem_range]

theorem Keys.view_cached (hk : s.Keys) (hi : i < NBUF) (hc : s.caches b i = true) :
    s.view b = (s.buf i).data := by
  obtain ⟨hd, hb, -⟩ := caches_iff.mp hc
  cases hfs : (range NBUF).find? (s.caches b) with
  | none =>
    have := find?_eq_none.mp hfs i (mem_range.mpr hi)
    exact absurd hc this
  | some j =>
    have hj := mem_range.mp (mem_of_find?_eq_some hfs)
    obtain ⟨hdj, hbj, -⟩ := caches_iff.mp (find?_some hfs)
    have : i = j := hk i j hi hj hd hdj (hb.trans hbj.symm)
    subst this
    rw [view, hfs]

theorem Inv.view_cached (hI : s.Inv T H P) (hi : i < NBUF)
    (hd : (s.buf i).dev = ROOTDEV) (hb : (s.buf i).blockno = b) (hv : (s.buf i).valid = true) :
    s.view b = (s.buf i).data :=
  hI.keys.view_cached hi (caches_iff.mpr ⟨hd, hb, hv⟩)

theorem Inv.view_held (hI : s.Inv T H P) (hi : i ∈ H) : s.view (s.buf i).blockno = (s.buf i).data :=
  let h := hI.held i hi
  hI.view_cached h.1 h.2.1 rfl h.2.2

/-- Whether every block has one buffer depends on which block each buffer holds. -/
theorem Keys.congr (hk : s.Keys) (h : ∀ j, j < NBUF → (s'.buf j).dev = (s.buf j).dev ∧
    (s'.buf j).blockno = (s.buf j).blockno) : s'.Keys := by
  intro i j hi hj hdi hdj hij
  rw [(h i hi).1] at hdi
  rw [(h j hj).1] at hdj
  rw [(h i hi).2, (h j hj).2] at hij
  exact hk i j hi hj hdi hdj hij

/-! ## Finding a buffer -/

section

variable (hperm : s.bc.lru.Perm (range NBUF))
include hperm

theorem lookup_some (h : s.bc.lookup dev b = some i) :
    i < NBUF ∧ (s.buf i).dev = dev ∧ (s.buf i).blockno = b := by
  have hm := (mem_lru hperm).mp (mem_of_find?_eq_some h)
  have hp := find?_some h
  simp only [Bool.and_eq_true, beq_iff_eq] at hp
  exact ⟨hm, hp⟩

theorem lookup_none (h : s.bc.lookup dev b = none) :
    ∀ i, i < NBUF → (s.buf i).dev = dev → (s.buf i).blockno ≠ b := by
  intro i hi hd hb
  have := find?_eq_none.mp h i ((mem_lru hperm).mpr hi)
  exact this (by simp [hd, hb])

theorem victim_some (h : s.bc.victim = some i) : i < NBUF ∧ (s.buf i).refcnt = 0 := by
  have hm := (mem_lru hperm).mp (mem_reverse.mp (mem_of_find?_eq_some h))
  have hp := find?_some h
  exact ⟨hm, by simpa using hp⟩

theorem victim_exists (hi : i < NBUF) (h : (s.buf i).refcnt = 0) : ∃ j, s.bc.victim = some j := by
  cases hv : s.bc.victim with
  | some j => exact ⟨j, rfl⟩
  | none =>
    have := find?_eq_none.mp hv i (mem_reverse.mpr ((mem_lru hperm).mpr hi))
    exact absurd h (by simpa using this)

end

/-! ## `bread` -/

/-- The parts of the machine a cache operation leaves alone. -/
structure Frame (s s' : Mach) : Prop where
  me : s'.me = s.me
  disk : s'.disk = s.disk
  writes : s'.writes = s.writes
  log : s'.log = s.log
  pbn : s'.forceReadErrorPbn = s.forceReadErrorPbn
  fail : s'.forceDiskFailId = s.forceDiskFailId

theorem Frame.refl (s : Mach) : Frame s s := ⟨rfl, rfl, rfl, rfl, rfl, rfl⟩

theorem Frame.trans {s1 s2 s3 : Mach} (h : Frame s1 s2) (h' : Frame s2 s3) : Frame s1 s3 :=
  ⟨h'.me.trans h.me, h'.disk.trans h.disk, h'.writes.trans h.writes, h'.log.trans h.log,
    h'.pbn.trans h.pbn, h'.fail.trans h.fail⟩

theorem Frame.hooksOff (h : Frame s s') (hs : s.HooksOff) : s'.HooksOff :=
  ⟨h.pbn.trans hs.1, h.fail.trans hs.2⟩

theorem updBuf_frame (s : Mach) (i : Nat) (f : Buf → Buf) : Frame s (s.updBuf i f) :=
  ⟨rfl, rfl, rfl, rfl, rfl, rfl⟩

@[simp] theorem updBuf_self (s : Mach) (i : Nat) (f : Buf → Buf) :
    (s.updBuf i f).buf i = f (s.buf i) := upd_self ..

theorem updBuf_ne (s : Mach) (f : Buf → Buf) (h : j ≠ i) : (s.updBuf i f).buf j = s.buf j := upd_ne _ f h

@[simp] theorem updBuf_lru (s : Mach) (i : Nat) (f : Buf → Buf) : (s.updBuf i f).bc.lru = s.bc.lru := rfl

theorem bpin_self (s : Mach) (i : Nat) :
    (s.bpin i).buf i = { s.buf i with refcnt := inc32 (s.buf i).refcnt } :=
  updBuf_self s i fun b => { b with refcnt := inc32 b.refcnt }

theorem bpin_ne (s : Mach) (h : j ≠ i) : (s.bpin i).buf j = s.buf j :=
  updBuf_ne s (fun b => { b with refcnt := inc32 b.refcnt }) h

theorem bunpin_self (s : Mach) (i : Nat) :
    (s.bunpin i).buf i = { s.buf i with refcnt := dec32 (s.buf i).refcnt } :=
  updBuf_self s i fun b => { b with refcnt := dec32 b.refcnt }

theorem bunpin_ne (s : Mach) (h : j ≠ i) : (s.bunpin i).buf j = s.buf j :=
  updBuf_ne s (fun b => { b with refcnt := dec32 b.refcnt }) h

theorem forced_off (h : s.HooksOff) (b : Nat) : s.forced b = false := by
  simp [forced, h.1, h.2]

/-- What `bread` leaves behind, the buffer it returns being the only one it touches. -/
structure Fetched (s : Mach) (b i : Nat) (s' : Mach) : Prop where
  frame : Frame s s'
  lt : i < NBUF
  others : ∀ j, j ≠ i → s'.buf j = s.buf j
  lru : s'.bc.lru = s.bc.lru
  dev : (s'.buf i).dev = ROOTDEV
  blockno : (s'.buf i).blockno = b
  valid : (s'.buf i).valid = true
  lock : (s'.buf i).lock = some s.me
  free : (s.buf i).lock = none
  refcnt : (s'.buf i).refcnt = inc32 (s.buf i).refcnt
  /-- Either the buffer already was the block's, or it was recycled and read afresh. -/
  src : ((s.buf i).dev = ROOTDEV ∧ (s.buf i).blockno = b ∧
      ((s'.buf i).data = (s.buf i).data ∧ (s.buf i).valid = true ∨
        (s'.buf i).data = s.disk b ∧ ((s.buf i).valid = false ∨ s.forced b = true))) ∨
    ((s.buf i).refcnt = 0 ∧ (s'.buf i).data = s.disk b ∧
      ∀ j, j < NBUF → (s.buf j).dev = ROOTDEV → (s.buf j).blockno ≠ b)

/-- The last step of `bread`: read the block if there is no valid copy or a hook asks for it. -/
def fetch (s : Mach) (i : Nat) : Mach :=
  if !(s.buf i).valid || s.forced (s.buf i).blockno then
    (s.diskRead i).updBuf i fun b => { b with valid := true }
  else s

theorem bread_eq (s : Mach) (dev b : Nat) :
    s.bread dev b = (do let (i, s) ← s.bget dev b; pure (i, s.fetch i)) := by
  unfold bread fetch
  cases s.bget dev b with
  | error e => rfl
  | ok r => simp only [bind, Except.bind]; split <;> rfl

theorem fetch_frame (s : Mach) (i : Nat) : Frame s (s.fetch i) := by
  unfold fetch
  split
  · exact (updBuf_frame s i _).trans (updBuf_frame _ i _)
  · exact Frame.refl s

theorem fetch_buf (s : Mach) (i : Nat) : (s.fetch i).buf i = { s.buf i with
      valid := true
      data := if !(s.buf i).valid || s.forced (s.buf i).blockno then s.disk (s.buf i).blockno
        else (s.buf i).data } := by
  unfold fetch
  cases hv : (!(s.buf i).valid || s.forced (s.buf i).blockno) with
  | true => simp [diskRead]
  | false =>
    have hval : (s.buf i).valid = true := by
      simp only [Bool.or_eq_false_iff, Bool.not_eq_false'] at hv; exact hv.1
    simp only [Bool.false_eq_true, if_false]
    rw [← hval]

theorem fetch_ne (s : Mach) (h : j ≠ i) : (s.fetch i).buf j = s.buf j := by
  unfold fetch
  split
  · rw [updBuf_ne _ _ h, diskRead, updBuf_ne _ _ h]
  · rfl

theorem fetch_lru (s : Mach) (i : Nat) : (s.fetch i).bc.lru = s.bc.lru := by
  unfold fetch
  split <;> rfl

theorem updBuf_updBuf (s : Mach) (i : Nat) (f g : Buf → Buf) :
    (s.updBuf i f).updBuf i g = s.updBuf i fun b => g (f b) := by
  simp [updBuf, upd]

/-- The lock `bget` ends with. -/
theorem claim_ok {j : Nat} (f : Buf → Buf) (hf : ∀ x, (f x).lock = x.lock)
    (h : ((s.updBuf j f).acquiresleep j >>= fun s1 => pure (j, s1)) = .ok (i, s')) :
    j = i ∧ (s.buf j).lock = none ∧ s' = s.updBuf j fun b => { f b with lock := some s.me } := by
  obtain ⟨s1, ha, hp⟩ := bind_ok h
  cases hp
  unfold acquiresleep at ha
  split at ha
  case isFalse => cases ha
  case isTrue hfree =>
    rw [updBuf_updBuf] at ha
    rw [updBuf_self, hf] at hfree
    exact ⟨rfl, hfree, (Except.ok.inj ha).symm⟩

/-- The two ways `bget` succeeds: a cached block, or a recycled buffer. -/
theorem bget_cases (h : s.bget dev b = .ok (i, s')) : (s.buf i).lock = none ∧ ((s.bc.lookup dev b = some i ∧
        s' = s.updBuf i fun b => { b with refcnt := inc32 b.refcnt, lock := some s.me }) ∨
      (s.bc.lookup dev b = none ∧ s.bc.victim = some i ∧
        s' = s.updBuf i fun b' => ⟨false, dev, b, some s.me, 1, b'.data⟩)) := by
  unfold bget bgetRef at h
  cases hl : s.bc.lookup dev b with
  | some j =>
    rw [hl] at h
    obtain ⟨rfl, hfree, hs⟩ := claim_ok (fun b => { b with refcnt := inc32 b.refcnt }) (fun _ => rfl) h
    exact ⟨hfree, .inl ⟨rfl, hs⟩⟩
  | none =>
    rw [hl] at h
    cases hv : s.bc.victim with
    | none => rw [hv] at h; cases h
    | some j =>
      rw [hv] at h
      obtain ⟨rfl, hfree, hs⟩ := claim_ok (fun b' => ⟨false, dev, b, b'.lock, 1, b'.data⟩) (fun _ => rfl) h
      exact ⟨hfree, .inr ⟨rfl, rfl, hs⟩⟩

theorem bread_fetched (hperm : s.bc.lru.Perm (range NBUF)) (h : s.bread ROOTDEV b = .ok (i, s')) :
    Fetched s b i s' := by
  rw [bread_eq] at h
  obtain ⟨⟨k, s1⟩, hg, hp⟩ := bind_ok h
  obtain ⟨rfl, rfl⟩ : k = i ∧ s1.fetch k = s' := by simpa [pure, Except.pure] using hp
  have hfb := fetch_buf s1 k
  obtain ⟨hfree, ⟨hl, hs1⟩ | ⟨hl, hv, hs1⟩⟩ := bget_cases hg
  · -- cached: a reference more, and a fresh read only if there is no valid copy or a hook is on
    obtain ⟨hk, hdev, hbl⟩ := lookup_some hperm hl
    have hbuf : s1.buf k = { s.buf k with refcnt := inc32 (s.buf k).refcnt, lock := some s.me } := by
      rw [hs1, updBuf_self]
    have hfr : Frame s s1 := by rw [hs1]; exact updBuf_frame ..
    rw [hbuf] at hfb
    refine ⟨hfr.trans (fetch_frame ..), hk, fun j hj => ?_, ?_, ?_, ?_, ?_, ?_, hfree, ?_, ?_⟩
    · rw [fetch_ne _ hj, hs1, updBuf_ne _ _ hj]
    · rw [fetch_lru, hs1, updBuf_lru]
    · rw [hfb]; exact hdev
    · rw [hfb]; exact hbl
    · rw [hfb]
    · rw [hfb]
    · rw [hfb]
    · grind [Frame, forced]
  · -- recycled: the reference count was zero
    obtain ⟨hk, href⟩ := victim_some hperm hv
    have hbuf : s1.buf k = ⟨false, ROOTDEV, b, some s.me, 1, (s.buf k).data⟩ := by
      rw [hs1, updBuf_self]
    have hfr : Frame s s1 := by rw [hs1]; exact updBuf_frame ..
    rw [hbuf] at hfb
    refine ⟨hfr.trans (fetch_frame ..), hk, fun j hj => ?_, ?_, ?_, ?_, ?_, ?_, hfree, ?_, ?_⟩
    · rw [fetch_ne _ hj, hs1, updBuf_ne _ _ hj]
    · rw [fetch_lru, hs1, updBuf_lru]
    · rw [hfb]
    · rw [hfb]
    · rw [hfb]
    · rw [hfb]
    · rw [hfb, href]; rfl
    · refine .inr ⟨href, ?_, lookup_none hperm hl⟩
      rw [hfb, hfr.disk]
      simp

section

variable (hF : Fetched s b i s')
include hF

/-- No other buffer holds the block `bread` was asked for. -/
theorem Fetched.unique (hk : s.Keys) (hj : j < NBUF)
    (hne : j ≠ i) (hd : (s.buf j).dev = ROOTDEV) : (s.buf j).blockno ≠ b := by
  intro hb
  rcases hF.src with ⟨hdi, hbi, -⟩ | ⟨-, -, hno⟩
  · exact hne (hk j i hj hF.lt hd hdi (hb.trans hbi.symm))
  · exact hno j hj hd hb

theorem Fetched.keys (hk : s.Keys) : s'.Keys := by
  have hother : ∀ j, j ≠ i → s'.buf j = s.buf j := hF.others
  intro j l hj hl hdj hdl hjl
  by_cases hji : j = i
  · by_cases hli : l = i
    · rw [hji, hli]
    · subst hji
      rw [hother l hli] at hdl hjl
      exact absurd (hjl.symm.trans hF.blockno) (hF.unique hk hl hli hdl)
  · by_cases hli : l = i
    · subst hli
      rw [hother j hji] at hdj hjl
      exact absurd (hjl.trans hF.blockno) (hF.unique hk hj hji hdj)
    · rw [hother j hji] at hdj hjl
      rw [hother l hli] at hdl hjl
      exact hk j l hj hl hdj hdl hjl

theorem Fetched.not_held (hI : s.Inv T H P) : i ∉ H := by
  intro hm
  have hlock := hI.locks i hF.lt
  rw [if_pos hm, hF.free] at hlock
  cases hlock

/-- The invariant with one more buffer held: a reference more, whichever way it was found. -/
theorem Fetched.inv (hI : s.Inv T H P) : s'.Inv T (i :: H) P := by
  have hnot := hF.not_held hI
  have hother : ∀ j, j ≠ i → s'.buf j = s.buf j := hF.others
  refine ⟨hF.lru ▸ hI.perm, hF.keys hI.keys, fun j hj => ?_, fun j hj => ?_,
    nodup_cons.mpr ⟨hnot, hI.nodup⟩, fun j hj => ?_, fun j hj hp => ?_,
    fun j hj hjH href hd hv hT => ?_⟩
  · grind [Fetched, Inv, inc32]
  · by_cases hji : j = i
    · subst hji
      rw [hF.lock, if_pos (mem_cons_self ..), hF.frame.me]
    · rw [hother j hji, hI.locks j hj, hF.frame.me]
      simp [hji]
  · grind [Fetched, Inv]
  · grind [Fetched, Inv]
  · have hji : j ≠ i := fun h => hjH (h ▸ mem_cons_self ..)
    rw [hother j hji] at href hd hv hT ⊢
    rw [hF.frame.disk]
    exact hI.clean j hj (fun hm => hjH (mem_cons_of_mem _ hm)) href hd hv hT

/-- `bread` returns what `view` says, if what a hook makes it read again agrees with the disk. -/
theorem Fetched.data (hI : s.Inv T H P)
    (hforced : s.forced b = true → s.view b = s.disk b) : (s'.buf i).data = s.view b := by
  rcases hF.src with ⟨hd, hb, ⟨hdata, hv⟩ | ⟨hdata, hv⟩⟩ | ⟨-, hdata, hno⟩
  · rw [hdata, hI.view_cached hF.lt hd hb hv]
  · rcases hv with hv | hv
    · rw [hdata, view_disk fun j hj => ?_]
      by_contra hc
      obtain ⟨hdj, hbj, hvj⟩ := caches_iff.mp (Bool.not_eq_false _ ▸ hc)
      obtain rfl := hI.keys i j hF.lt hj hd hdj (hb.trans hbj.symm)
      rw [hv] at hvj
      cases hvj
    · rw [hdata, hforced hv]
  · rw [hdata, view_disk fun j hj => ?_]
    by_contra hc
    obtain ⟨hdj, hbj, -⟩ := caches_iff.mp (Bool.not_eq_false _ ▸ hc)
    exact hno j hj hdj hbj

/-- `bread` changes no block's contents: what it recycles is clean. -/
theorem Fetched.view (hI : s.Inv T H P) {c : Nat} (hc : ¬ T c)
    (hforced : c = b → s.forced b = true → s.view b = s.disk b) : s'.view c = s.view c := by
  have hI' := hF.inv hI
  by_cases hcb : c = b
  · subst hcb
    rw [hI'.view_cached hF.lt hF.dev hF.blockno hF.valid, hF.data hI (hforced rfl)]
  · -- another block: its copy is elsewhere, or it was the clean one that got recycled
    have hci' : s'.caches c i = false := by
      by_contra h
      obtain ⟨-, h2, -⟩ := caches_iff.mp (Bool.not_eq_false _ ▸ h)
      exact hcb (h2.symm.trans hF.blockno)
    have hsame : ∀ j, j ≠ i → s'.caches c j = s.caches c j := fun j hj => by
      simp only [caches, hF.others j hj]
    by_cases hci : s.caches c i = true
    · obtain ⟨hd, hb, hv⟩ := caches_iff.mp hci
      have href : (s.buf i).refcnt = 0 := by grind [Fetched]
      have hcl := hI.clean i hF.lt (hF.not_held hI) href hd hv (hb ▸ hc)
      rw [hI.view_cached hF.lt hd hb hv, hcl, hb, view_disk fun j hj => ?_, hF.frame.disk]
      by_cases hji : j = i
      · exact hji ▸ hci'
      · rw [hsame j hji]
        by_contra h
        obtain ⟨hdj, hbj, -⟩ := caches_iff.mp (Bool.not_eq_false _ ▸ h)
        exact hji (hI.keys j i hj hF.lt hdj hd (hbj.trans hb.symm))
    · refine view_congr (by rw [hF.frame.disk]) (fun j _ => ?_) fun j _ hj => ?_
      · grind
      · by_cases hji : j = i
        · subst hji; exact absurd hj hci
        · rw [hF.others j hji]

end

theorem acquiresleep_ok (h : (s.buf i).lock = none) :
    s.acquiresleep i = .ok (s.updBuf i fun b => { b with lock := some s.me }) := if_pos h

section

variable (hI : s.Inv T H P)
include hI

/-- `bread` comes back: the block is cached, or some buffer is free, and nobody holds it. -/
theorem bread_exists (hb : ∀ i ∈ H, (s.buf i).blockno ≠ b)
    (hfree : (∃ i, i < NBUF ∧ (s.buf i).dev = ROOTDEV ∧ (s.buf i).blockno = b) ∨
      ∃ i, i < NBUF ∧ (s.buf i).refcnt = 0)
    (hH : ∀ i ∈ H, (s.buf i).refcnt ≠ 0) :
    ∃ i s', s.bread ROOTDEV b = .ok (i, s') := by
  have hlock : ∀ i, i < NBUF → i ∉ H → (s.buf i).lock = none := fun i hi hm => by
    rw [hI.locks i hi, if_neg hm]
  rw [bread_eq]
  suffices h : ∃ r, s.bget ROOTDEV b = .ok r by
    obtain ⟨r, hr⟩ := h
    exact ⟨r.1, r.2.fetch r.1, by rw [hr]; rfl⟩
  unfold bget bgetRef
  cases hl : s.bc.lookup ROOTDEV b with
  | some i =>
    obtain ⟨hi, -, hbi⟩ := lookup_some hI.perm hl
    have hn : (s.buf i).lock = none := hlock i hi fun hm => hb i hm hbi
    have ha := acquiresleep_ok (s := s.updBuf i fun b => { b with refcnt := inc32 b.refcnt })
      (i := i) (by rw [updBuf_self]; exact hn)
    exact ⟨_, congrArg (· >>= fun s => pure (i, s)) ha⟩
  | none =>
    obtain ⟨j, hj⟩ : ∃ j, s.bc.victim = some j := by
      rcases hfree with ⟨i, hi, hd, hbi⟩ | ⟨i, hi, href⟩
      · exact absurd hbi (lookup_none hI.perm hl i hi hd)
      · exact victim_exists hI.perm hi href
    obtain ⟨hjlt, href⟩ := victim_some hI.perm hj
    have hn : (s.buf j).lock = none := hlock j hjlt fun hm => hH j hm href
    rw [hj]
    have ha := acquiresleep_ok (i := j) (s := s.updBuf j fun b' =>
      { b' with dev := ROOTDEV, blockno := b, valid := false, refcnt := 1 })
      (by rw [updBuf_self]; exact hn)
    exact ⟨_, congrArg (· >>= fun s => pure (j, s)) ha⟩

/-! ## Changing a held buffer -/

/-- Changing the data or the pins of a HELD buffer keeps the invariant. -/
theorem Inv.updHeld (hi : i ∈ H)
    (hd : (f (s.buf i)).dev = (s.buf i).dev) (hb : (f (s.buf i)).blockno = (s.buf i).blockno)
    (hv : (f (s.buf i)).valid = (s.buf i).valid) (hl : (f (s.buf i)).lock = (s.buf i).lock)
    (hr : (f (s.buf i)).refcnt = (1 + p) % 4294967296) :
    (s.updBuf i f).Inv T H (update P i p) := by
  have hheld := hI.held i hi
  have hone : H.count i = 1 := count_eq_one_of_mem hI.nodup hi
  have key : ∀ j, ((s.updBuf i f).buf j).dev = (s.buf j).dev ∧
      ((s.updBuf i f).buf j).blockno = (s.buf j).blockno ∧
      ((s.updBuf i f).buf j).valid = (s.buf j).valid ∧
      ((s.updBuf i f).buf j).lock = (s.buf j).lock := fun j => by grind [updBuf_self, updBuf_ne]
  refine ⟨hI.perm, hI.keys.congr fun j _ => ⟨(key j).1, (key j).2.1⟩, fun j hj => ?_,
    fun j hj => ?_, hI.nodup, fun j hj => ?_, fun j hj hp => ?_,
    fun j hj hjH href hdj hvj hT => ?_⟩
  · grind [Inv, updBuf_self, updBuf_ne]
  · rw [(key j).2.2.2]; exact hI.locks j hj
  · rw [(key j).1, (key j).2.2.1]; exact hI.held j hj
  · grind [Inv]
  · have hji : j ≠ i := fun h => hjH (h ▸ hi)
    rw [updBuf_ne _ _ hji] at href hdj hvj hT ⊢
    exact hI.clean j hj hjH href hdj hvj hT

theorem setData_inv (hi : i ∈ H) (d : Block) : (s.setData i d).Inv T H P := by
  have hone : H.count i = 1 := count_eq_one_of_mem hI.nodup hi
  have h := hI.updHeld hi (f := fun b => { b with data := d }) (p := P i) rfl rfl rfl rfl
    (by rw [hI.refs i (hI.held i hi).1, hone])
  rwa [update_eq_self] at h

theorem bpin_inv (hi : i ∈ H) : (s.bpin i).Inv T H (update P i (P i + 1)) := by
  have hone : H.count i = 1 := count_eq_one_of_mem hI.nodup hi
  refine hI.updHeld hi rfl rfl rfl rfl ?_
  simp only [hI.refs i (hI.held i hi).1, hone, inc32]
  omega

/-- Dropping a pin; `p` is what is left of them, counted modulo `2 ^ 32`. -/
theorem bunpin_inv (hi : i ∈ H) (hp : (p + 1) % 4294967296 = P i % 4294967296) :
    (s.bunpin i).Inv T H (update P i p) := by
  have hone : H.count i = 1 := count_eq_one_of_mem hI.nodup hi
  refine hI.updHeld hi rfl rfl rfl rfl ?_
  simp only [hI.refs i (hI.held i hi).1, hone, dec32]
  omega

theorem view_setData (hi : i ∈ H) (d : Block) (c : Nat) :
    (s.setData i d).view c = if c = (s.buf i).blockno then d else s.view c := by
  have hI' := setData_inv hI hi d
  have hself : ((s.setData i d).buf i) = { s.buf i with data := d } := updBuf_self ..
  by_cases hc : c = (s.buf i).blockno
  · rw [if_pos hc, hc]
    have := hI'.view_held hi
    rw [hself] at this
    exact this
  · rw [if_neg hc]
    refine view_congr rfl (fun j _ => ?_) fun j _ hj => ?_
    · by_cases hji : j = i
      · subst hji; simp only [caches, hself]
      · simp only [caches, setData, updBuf_ne _ _ hji]
    · have hji : j ≠ i := fun h => by
        subst h
        exact hc (caches_iff.mp hj).2.1.symm
      rw [setData, updBuf_ne _ _ hji]

omit hI in
/-- Changes that touch no copy and no disk block are invisible. -/
theorem view_of_buf (hdisk : s'.disk = s.disk) (h : ∀ j, j < NBUF → (s'.buf j).dev = (s.buf j).dev ∧
      (s'.buf j).blockno = (s.buf j).blockno ∧ (s'.buf j).valid = (s.buf j).valid ∧
      (s'.buf j).data = (s.buf j).data) : s'.view = s.view := by
  funext c
  refine view_congr (by rw [hdisk]) (fun j hj => ?_) fun j hj _ => (h j hj).2.2.2
  obtain ⟨h1, h2, h3, -⟩ := h j hj
  simp only [caches, h1, h2, h3]

omit hI in
theorem view_updBuf (s : Mach) (i : Nat) (hd : (f (s.buf i)).dev = (s.buf i).dev)
    (hb : (f (s.buf i)).blockno = (s.buf i).blockno) (hv : (f (s.buf i)).valid = (s.buf i).valid)
    (hx : (f (s.buf i)).data = (s.buf i).data) : (s.updBuf i f).view = s.view := by
  refine view_of_buf rfl fun j _ => ?_
  by_cases hji : j = i
  · subst hji; rw [updBuf_self]; exact ⟨hd, hb, hv, hx⟩
  · rw [updBuf_ne _ _ hji]; exact ⟨rfl, rfl, rfl, rfl⟩

omit hI in
theorem view_bpin (s : Mach) (i : Nat) : (s.bpin i).view = s.view := view_updBuf s i rfl rfl rfl rfl

omit hI in
theorem view_bunpin (s : Mach) (i : Nat) : (s.bunpin i).view = s.view :=
  view_updBuf s i rfl rfl rfl rfl

/-! ## `bwrite` -/

theorem bwrite_ok (hi : i ∈ H) : s.bwrite i = .ok (s.diskWrite i) := by
  have hl := hI.locks i (hI.held i hi).1
  rw [if_pos hi] at hl
  simp [bwrite, holding, hl]

theorem diskWrite_inv (hi : i ∈ H) : (s.diskWrite i).Inv T H P := by
  refine { hI with clean := ?_ }
  intro j hj hjH href hd hv hT
  have hne : (s.buf j).blockno ≠ (s.buf i).blockno := fun h => by
    have := hI.keys j i hj (hI.held i hi).1 hd (hI.held i hi).2.1 h
    exact hjH (this ▸ hi)
  change (s.buf j).data = update s.disk (s.buf i).blockno (s.buf i).data (s.buf j).blockno
  rw [update_of_ne hne]
  exact hI.clean j hj hjH href hd hv hT

/-- Writing a held buffer out changes the disk, not what anybody sees. -/
theorem view_diskWrite (hi : i ∈ H) : (s.diskWrite i).view = s.view := by
  funext c
  by_cases hc : c = (s.buf i).blockno
  · rw [hc, hI.view_held hi]
    exact (diskWrite_inv hI hi).view_held hi
  · exact view_congr (update_of_ne hc ..) (fun _ _ => rfl) fun _ _ _ => rfl

end

/-! ## `brelse` -/

theorem bput_buf (bc : Bcache) (i j : Nat) :
    (bc.bput i).buf j = (bc.upd i fun b => { b with refcnt := dec32 b.refcnt }).buf j := by
  unfold bput
  simp only
  split <;> rfl

theorem bput_perm {bc : Bcache} (h : bc.lru.Perm (range NBUF)) (hi : i < NBUF) :
    (bc.bput i).lru.Perm (range NBUF) := by
  unfold bput
  simp only
  split
  · have hm : i ∈ bc.lru := h.mem_iff.mpr (mem_range.mpr hi)
    exact (perm_cons_erase hm).symm.trans h
  · exact h

theorem drop_frame (s : Mach) (i : Nat) : Frame s (s.drop i) := ⟨rfl, rfl, rfl, rfl, rfl, rfl⟩

theorem drop_self (s : Mach) (i : Nat) :
    (s.drop i).buf i = { s.buf i with lock := none, refcnt := dec32 (s.buf i).refcnt } := by
  change ((s.bc.upd i _).bput i).buf i = _
  rw [bput_buf, upd_self, upd_self]

theorem drop_ne (s : Mach) (h : j ≠ i) : (s.drop i).buf j = s.buf j := by
  change ((s.bc.upd i _).bput i).buf j = _
  rw [bput_buf, upd_ne _ _ h, upd_ne _ _ h]

/-- Releasing changes neither which block a buffer holds nor its contents. -/
theorem drop_copy (s : Mach) (i j : Nat) :
    ((s.drop i).buf j).dev = (s.buf j).dev ∧ ((s.drop i).buf j).blockno = (s.buf j).blockno ∧
    ((s.drop i).buf j).valid = (s.buf j).valid ∧ ((s.drop i).buf j).data = (s.buf j).data := by
  by_cases hji : j = i
  · subst hji; rw [drop_self]; exact ⟨rfl, rfl, rfl, rfl⟩
  · rw [drop_ne _ hji]; exact ⟨rfl, rfl, rfl, rfl⟩

theorem view_drop (s : Mach) (i : Nat) : (s.drop i).view = s.view :=
  view_of_buf rfl fun j _ => drop_copy s i j

theorem brelse_ok (hI : s.Inv T H P) (hi : i ∈ H) : s.brelse i = .ok (s.drop i) := by
  have hl := hI.locks i (hI.held i hi).1
  rw [if_pos hi] at hl
  simp [brelse, holding, hl]

/-- `brelse` of a held buffer: the reference goes, and a buffer that can now be recycled must agree
    with the disk. -/
theorem drop_inv (hI : s.Inv T H P) (hi : i ∈ H) (hcl : P i % 4294967296 = 0 → ¬ T (s.buf i).blockno →
      (s.buf i).data = s.disk (s.buf i).blockno) : (s.drop i).Inv T (H.erase i) P := by
  obtain ⟨hlt, hdev, hval⟩ := hI.held i hi
  have hone : H.count i = 1 := count_eq_one_of_mem hI.nodup hi
  have hni : i ∉ H.erase i := fun h => ((List.Nodup.mem_erase_iff hI.nodup).mp h).1 rfl
  have hcopy := drop_copy s i
  have hrefi : ((s.drop i).buf i).refcnt = P i % 4294967296 := by
    rw [drop_self]
    simp only [hI.refs i hlt, hone, dec32]
    omega
  refine ⟨bput_perm hI.perm hlt, hI.keys.congr fun j _ => ⟨(hcopy j).1, (hcopy j).2.1⟩,
    fun j hj => ?_, fun j hj => ?_, hI.nodup.erase i, fun j hj => ?_, fun j hj hp => ?_,
    fun j hj hjH href hdj hvj hT => ?_⟩
  · grind [Inv, drop_ne]
  · by_cases hji : j = i
    · subst hji; rw [drop_self, if_neg hni]
    · rw [drop_ne _ hji, hI.locks j hj]
      simp only [mem_erase_of_ne hji]
      rfl
  · rw [(hcopy j).1, (hcopy j).2.2.1]
    exact hI.held j (mem_of_mem_erase hj)
  · rw [(hcopy j).1, (hcopy j).2.2.1]
    exact hI.pinned j hj hp
  · rw [(hcopy j).2.2.2, (hcopy j).2.1]
    by_cases hji : j = i
    · subst hji
      rw [hrefi] at href
      exact hcl href ((hcopy j).2.1 ▸ hT)
    · rw [drop_ne _ hji] at href hdj hvj hT
      exact hI.clean j hj (fun hm => hjH ((mem_erase_of_ne hji).mpr hm)) href hdj hvj hT

end Mach

end Xv6
