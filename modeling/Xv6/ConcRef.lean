/-
  REFERENCE COUNTS, for any number of processes in any order.

  A buffer's `refcnt` is three things added up: the process that has its lock, the processes that
  are between `bget` and its sleep lock or between `releasesleep` and the end of `brelse`, and one
  pin if its block is in `log.lh` and not yet installed.  `RefInv` says so, together with what makes
  it inductive:

  * a buffer with a reference is not recycled, so what a process KNOWS about the buffers it refers
    to (`Knows`) survives the steps of the others;
  * the `bunpin` of `install_trans` meets a buffer that carries a pin: `Ok` follows the committer
    through its code, with the block each of its variables holds and the number of pins dropped.

  All of it needs the pins to be there when `install_trans` drops them, which is why it starts from
  a boot that had nothing to replay.
-/
import Xv6.ConcLog

namespace Xv6

open Function List Sys Option Mach

variable {k : List Act} {q : Thread} {r : Reg} {b i : Nat} {ρ : Reg → Option Nat} {ops : List (List Nat)}

/-! ## The three kinds of reference -/

/-- Is the process on its way into or out of buffer `i`? -/
def Thread.on (q : Thread) (i : Nat) : Nat :=
  match q.pend with
  | none => 0
  | some (.waiting r) => if q.reg r = i then 1 else 0
  | some (.leaving j) => if j = i then 1 else 0

/-- Who has the sleep lock counts once. -/
def holders (s : Sys) (i : Nat) : Nat := if (s.mach.buf i).lock = none then 0 else 1

/-- Those on their way in or out. -/
def waiters (N : Nat) (s : Sys) (i : Nat) : Nat := ∑ p ∈ Finset.range N, (s.proc p).on i

/-- The blocks of `log.lh` that are still pinned. -/
def pinnedBlocks (s : Sys) : List Nat := s.mach.log.lh.drop s.unpinned

/-- The pin of a logged block. -/
def pins (s : Sys) (i : Nat) : Nat :=
  if (s.mach.buf i).dev = ROOTDEV ∧ (s.mach.buf i).blockno ∈ pinnedBlocks s then 1 else 0

/-! ## What a process knows -/

/-- The code `todo` is right for a process whose variables hold the blocks `ρ`, with `m` entries of
    `lh` unpinned so far; `c` says whether it is the committer. -/
def Ok (c : Bool) : List Nat → Nat → (Reg → Option Nat) → List Act → Prop
  | _, _, _, [] => True
  | lh, m, ρ, .bget r b :: k => Ok c lh m (update ρ r (some b)) k
  | lh, m, ρ, .bgetLh r t :: k =>
    c = true ∧ Ok c lh m (update ρ r (some (lh.getD t 0))) k
  | lh, m, _, .brelse _ :: k => Ok c lh m (fun _ => none) k
  | lh, m, ρ, .bunpin r :: k =>
    c = true ∧ m < lh.length ∧ ρ r = some (lh.getD m 0) ∧ Ok c lh (m + 1) ρ k
  | _, _, ρ, .addLog r :: k => ρ r ≠ none ∧ k = []
  | _, m, _, .commit :: k => c = true ∧ m = 0 ∧ Ok c [] 0 (fun _ => none) k
  | lh, m, _, .writeLog _ :: k => c = true ∧ Ok c lh m (fun _ => none) k
  | lh, m, _, .installTrans t :: k =>
    c = true ∧ t = m ∧ m ≤ lh.length ∧ Ok c lh lh.length (fun _ => none) k
  | lh, m, _, .clearLh :: k => c = true ∧ m = lh.length ∧ Ok c [] 0 (fun _ => none) k
  | _, m, _, .committed :: k => c = true ∧ m = 0 ∧ k = []
  | _, _, _, .beginOp :: k => k = []
  | _, _, _, .endOp :: k => k = []
  | lh, m, ρ, _ :: k => Ok c lh m ρ k

theorem Ok.of_false : ∀ {lh lh' : List Nat} {m m' : Nat} {ρ : Reg → Option Nat},
    Ok false lh m ρ k → Ok false lh' m' ρ k := by
  induction k with
  | nil => intro lh lh' m m' ρ h; trivial
  | cons a k ih =>
    intro lh lh' m m' ρ h
    cases a with
    | bgetLh | bunpin | writeLog | installTrans | clearLh | commit | committed => exact nomatch h.1
    | addLog | beginOp | endOp => exact h
    | _ => exact ih h

/-- Each variable in `ρ` points to a buffer that holds that block, and `p` has a reference to it. -/
def Knows (s : Sys) (p : Nat) (ρ : Reg → Option Nat) : Prop :=
  ∀ r b, ρ r = some b → (s.mach.buf (s.ptr p r)).dev = ROOTDEV ∧ (s.mach.buf (s.ptr p r)).blockno = b ∧
    ((s.mach.buf (s.ptr p r)).lock = some p ∨ (s.proc p).pend = some (.waiting r))

/-- What the process knows is enough for the rest of its code. -/
def Local (c : Bool) (s : Sys) (p : Nat) : Prop :=
  ∃ ρ, Knows s p ρ ∧ Ok c s.mach.log.lh s.unpinned ρ (s.proc p).todo

/-- **The reference counts add up**: holder, waiters and pins; nothing else keeps a buffer. -/
structure RefInv (N : Nat) (com : Option Nat) (s : Sys) : Prop where
  few : N + 3 < 4294967296
  log : LogInv N com s
  perm : s.mach.bc.lru.Perm (List.range NBUF)
  keys : ∀ i j, i < NBUF → j < NBUF → (s.mach.buf i).dev = ROOTDEV → (s.mach.buf j).dev = ROOTDEV →
    (s.mach.buf i).blockno = (s.mach.buf j).blockno → i = j
  refs : ∀ i, i < NBUF → (s.mach.buf i).refcnt = holders s i + waiters N s i + pins s i
  locked : ∀ i, i < NBUF → ∀ p, (s.mach.buf i).lock = some p → p < N ∧ (s.mach.buf i).dev = ROOTDEV
  regs : ∀ p, p < N → ∀ r, s.ptr p r < NBUF
  pend : ∀ p, p < N → ∀ i, (s.proc p).on i ≠ 0 → i < NBUF ∧ (s.mach.buf i).dev = ROOTDEV
  cached : ∀ b ∈ pinnedBlocks s, ∃ i, i < NBUF ∧ (s.mach.buf i).dev = ROOTDEV ∧ (s.mach.buf i).blockno = b
  /-- No pin is missing between commits. -/
  whole : com = none → s.unpinned = 0
  code : ∀ p, p < N → Local (com == some p) s p

variable {N p : Nat} {com com' : Option Nat} {s s' : Sys} {t : Thread}

/-! ## References keep a buffer -/

theorem on_waiting (h : q.pend = some (.waiting r)) (j : Nat) : q.on j = if q.reg r = j then 1 else 0 := by
  rw [Thread.on, h]

theorem on_leaving (h : q.pend = some (.leaving i)) (j : Nat) : q.on j = if i = j then 1 else 0 := by
  rw [Thread.on, h]

theorem on_none (h : q.pend = none) (j : Nat) : q.on j = 0 := by
  rw [Thread.on, h]

theorem on_le_waiters (hp : p < N) (i : Nat) : (s.proc p).on i ≤ waiters N s i :=
  Finset.single_le_sum (f := fun p => (s.proc p).on i) (fun _ _ => Nat.zero_le _) (Finset.mem_range.mpr hp)

theorem on_le_one (q : Thread) (i : Nat) : q.on i ≤ 1 := by
  unfold Thread.on
  split
  · exact Nat.zero_le _
  · split <;> decide
  · split <;> decide

theorem waiters_le (N : Nat) (s : Sys) (i : Nat) : waiters N s i ≤ N := by
  have h := Finset.sum_le_card_nsmul (Finset.range N) (fun p => (s.proc p).on i) 1 fun p _ => on_le_one _ i
  simpa [waiters] using h

theorem holders_le (s : Sys) (i : Nat) : holders s i ≤ 1 := by
  unfold holders; split <;> decide

theorem pins_le (s : Sys) (i : Nat) : pins s i ≤ 1 := by
  unfold pins; split <;> decide

section

variable (hI : RefInv N com s)
include hI

/-- No count comes near the top of its 32 bits. -/
theorem RefInv.refcnt_lt (hi : i < NBUF) : (s.mach.buf i).refcnt + 1 < 4294967296 := by
  have h1 := holders_le s i
  have h2 := waiters_le N s i
  have h3 := pins_le s i
  have h4 := hI.few
  rw [hI.refs i hi]
  omega

/-- A buffer some process refers to has a count. -/
theorem RefInv.refcnt_pos (hp : p < N)
    (h : (s.mach.buf (s.ptr p r)).lock = some p ∨ (s.proc p).pend = some (.waiting r)) :
    (s.mach.buf (s.ptr p r)).refcnt ≠ 0 := by
  rw [hI.refs _ (hI.regs p hp r)]
  rcases h with h | h
  · have : holders s (s.ptr p r) = 1 := by rw [holders, h]; rfl
    omega
  · have hle := @on_le_waiters N p s hp (s.ptr p r)
    rw [on_waiting h, if_pos (show (s.proc p).reg r = s.ptr p r from rfl)] at hle
    omega

omit hI in
/-- What a process knows about one of its variables outlives a step that keeps the key of the buffer and
    the reference. -/
theorem Knows.at (hk : Knows s p ρ) (hr : ρ r = some b) (hptr : s'.ptr p r = s.ptr p r)
    (hkey : (s'.mach.buf (s.ptr p r)).dev = (s.mach.buf (s.ptr p r)).dev ∧
      (s'.mach.buf (s.ptr p r)).blockno = (s.mach.buf (s.ptr p r)).blockno)
    (href : (s.mach.buf (s.ptr p r)).lock = some p ∨ (s.proc p).pend = some (.waiting r) →
      (s'.mach.buf (s.ptr p r)).lock = some p ∨ (s'.proc p).pend = some (.waiting r)) :
    (s'.mach.buf (s'.ptr p r)).dev = ROOTDEV ∧ (s'.mach.buf (s'.ptr p r)).blockno = b ∧
      ((s'.mach.buf (s'.ptr p r)).lock = some p ∨ (s'.proc p).pend = some (.waiting r)) := by
  obtain ⟨hd, hb, hl⟩ := hk r b hr
  rw [hptr]
  exact ⟨hkey.1.trans hd, hkey.2.trans hb, href hl⟩

omit hI in
/-- What the committer knows is nothing, if it needs nothing. -/
theorem Knows.nothing (s : Sys) (p : Nat) : Knows s p fun _ => none := by
  intro r b h
  cases h

/-- A step of `p` after which every other process still knows what it knew. -/
theorem RefInv.others (hproc : s'.proc = update s.proc p t)
    (hcom : ∀ q, q ≠ p → (com' == some q) = (com == some q))
    (hkey : ∀ j, j < NBUF → (s.mach.buf j).refcnt ≠ 0 →
      (s'.mach.buf j).dev = (s.mach.buf j).dev ∧ (s'.mach.buf j).blockno = (s.mach.buf j).blockno)
    (hlock : ∀ j, j < NBUF → ∀ q, q ≠ p → (s.mach.buf j).lock = some q → (s'.mach.buf j).lock = some q)
    (hlog : ∀ q, q ≠ p → com = some q → s'.mach.log.lh = s.mach.log.lh ∧ s'.unpinned = s.unpinned) :
    ∀ q, q < N → q ≠ p → Local (com' == some q) s' q := by
  intro q hq hqp
  have hne : s'.proc q = s.proc q := by rw [hproc, update_of_ne hqp]
  obtain ⟨ρ, hk, hok⟩ := hI.code q hq
  rw [hcom q hqp]
  refine ⟨ρ, fun r b hr => hk.at hr (by rw [ptr, hne]; rfl) ?_ ?_, ?_⟩
  · exact hkey _ (hI.regs q hq r) (hI.refcnt_pos hq (hk r b hr).2.2)
  · rw [hne]
    exact Or.imp_left (hlock _ (hI.regs q hq r) q hqp)
  · rw [hne]
    cases hc : com == some q with
    | true =>
      obtain ⟨hlh, hun⟩ := hlog q hqp (committer_eq hc)
      rw [hlh, hun, ← hc]
      exact hok
    | false =>
      rw [hc] at hok
      exact hok.of_false

/-- A step that leaves every buffer with the block it holds. -/
theorem RefInv.keep (hL : LogInv N com' s')
    (hproc : s'.proc = update s.proc p t) (hperm : s'.mach.bc.lru.Perm (range NBUF))
    (hkey : ∀ j, (s'.mach.buf j).dev = (s.mach.buf j).dev ∧
      (s'.mach.buf j).blockno = (s.mach.buf j).blockno)
    (hlock : ∀ j, j < NBUF → ∀ q, q ≠ p → (s.mach.buf j).lock = some q → (s'.mach.buf j).lock = some q)
    (hlock' : ∀ j, j < NBUF → ∀ q, (s'.mach.buf j).lock = some q →
      (s.mach.buf j).lock = some q ∨ (q < N ∧ (s.mach.buf j).dev = ROOTDEV))
    (hrefs : ∀ j, j < NBUF → (s'.mach.buf j).refcnt = holders s' j + waiters N s' j + pins s' j)
    (hregs : ∀ r, t.reg r < NBUF)
    (hpend : ∀ j, t.on j ≠ 0 → j < NBUF ∧ (s.mach.buf j).dev = ROOTDEV)
    (hcached : ∀ b ∈ pinnedBlocks s', b ∈ pinnedBlocks s ∨ ∃ i, i < NBUF ∧
      (s.mach.buf i).dev = ROOTDEV ∧ (s.mach.buf i).blockno = b)
    (hwhole : com' = none → s'.unpinned = 0)
    (hcom : ∀ q, q ≠ p → (com' == some q) = (com == some q))
    (hlog : ∀ q, q ≠ p → com = some q → s'.mach.log.lh = s.mach.log.lh ∧ s'.unpinned = s.unpinned)
    (hlocal : Local (com' == some p) s' p) : RefInv N com' s' := by
  refine ⟨hI.few, hL, hperm, ?_, hrefs, ?_, ?_, ?_, ?_, hwhole, ?_⟩
  · grind [RefInv]
  · intro j hj q hl
    rw [(hkey j).1]
    exact (hlock' j hj q hl).elim (hI.locked j hj q) id
  · intro q hq r
    rw [ptr, hproc]
    by_cases hqp : q = p
    · subst hqp; rw [update_self]; exact hregs r
    · rw [update_of_ne hqp]; exact hI.regs q hq r
  · intro q hq j hon
    rw [(hkey j).1]
    rw [hproc] at hon
    by_cases hqp : q = p
    · subst hqp; rw [update_self] at hon; exact hpend j hon
    · rw [update_of_ne hqp] at hon; exact hI.pend q hq j hon
  · grind [RefInv]
  · intro q hq
    by_cases hqp : q = p
    · subst hqp; exact hlocal
    · exact hI.others hproc hcom (fun j _ _ => hkey j) hlock hlog q hq hqp

omit hI in
/-- Changing process `p` changes who waits for `j` by its own share. -/
theorem waiters_step (hp : p < N) (hproc : s'.proc = update s.proc p t) (j : Nat) :
    waiters N s' j + (s.proc p).on j = waiters N s j + t.on j :=
  sum_proc (fun q => q.on j) hp hproc

omit hI in
theorem holders_congr {j : Nat} (h : (s'.mach.buf j).lock = (s.mach.buf j).lock) :
    holders s' j = holders s j := by
  rw [holders, holders, h]

omit hI in
theorem pins_congr {j : Nat} (hd : (s'.mach.buf j).dev = (s.mach.buf j).dev)
    (hb : (s'.mach.buf j).blockno = (s.mach.buf j).blockno)
    (hl : pinnedBlocks s' = pinnedBlocks s) : pins s' j = pins s j := by
  rw [pins, pins, hd, hb, hl]

/-! ## The steps -/

/-- A step that touches no reference: only code, data, the disk or the log's counters.  The list may be
    cleared, if nothing of it is pinned. -/
theorem RefInv.same (hp : p < N) (hL : LogInv N com' s')
    (hrefs : SameRefs s.mach s'.mach) (hpins : pinnedBlocks s' = pinnedBlocks s)
    (hproc : s'.proc = update s.proc p ⟨(s.proc p).reg, (s.proc p).pend, k, ops⟩)
    (hwhole : com' = none → s'.unpinned = 0)
    (hcom : ∀ q, q ≠ p → (com' == some q) = (com == some q))
    (hlog : ∀ q, q ≠ p → com = some q → s'.mach.log.lh = s.mach.log.lh ∧ s'.unpinned = s.unpinned)
    (hok : ∃ ρ, Knows s p ρ ∧ Ok (com' == some p) s'.mach.log.lh s'.unpinned ρ k) :
    RefInv N com' s' := by
  obtain ⟨hlru, hbuf⟩ := hrefs
  have hself : s'.proc p = _ := congrFun hproc p |>.trans (update_self ..)
  refine hI.keep hL hproc (by rw [hlru]; exact hI.perm) (fun j => ⟨(hbuf j).1, (hbuf j).2.1⟩)
    (fun j _ q _ h => (hbuf j).2.2.1.trans h) (fun j _ q h => .inl ((hbuf j).2.2.1.symm.trans h))
    ?_ (hI.regs p hp) (hI.pend p hp) (fun b hb => .inl (hpins ▸ hb)) hwhole hcom hlog ?_
  · intro j hj
    have hw : waiters N s' j + (s.proc p).on j = waiters N s j + (s.proc p).on j := waiters_step hp hproc j
    rw [(hbuf j).2.2.2, hI.refs j hj, holders_congr (hbuf j).2.2.1,
      pins_congr (hbuf j).1 (hbuf j).2.1 hpins]
    omega
  · obtain ⟨ρ, hk, hok⟩ := hok
    refine ⟨ρ, fun r b hr => hk.at hr ?_ ⟨(hbuf _).1, (hbuf _).2.1⟩ ?_, by rw [hself]; exact hok⟩
    · rw [ptr, hself]
      rfl
    · rw [(hbuf _).2.2.1, hself]
      exact id

theorem RefInv.still (hp : p < N) (hL : LogInv N com' s')
    (hs : Still p s s' k ops) (hwhole : com' = none → s.unpinned = 0)
    (hcom : ∀ q, q ≠ p → (com' == some q) = (com == some q))
    (hok : ∃ ρ, Knows s p ρ ∧ Ok (com' == some p) s.mach.log.lh s.unpinned ρ k) :
    RefInv N com' s' :=
  hI.same hp hL hs.refs (by rw [pinnedBlocks, hs.lh, hs.unpinned]; rfl) hs.proc
    (fun h => hs.unpinned.trans (hwhole h)) hcom (fun _ _ _ => ⟨hs.lh, hs.unpinned⟩)
    (by rw [hs.lh, hs.unpinned]; exact hok)

/-- `p` has `x` references to buffer `i` on its way in or out, and none to another one. -/
def OnlyOn (t : Thread) (i x : Nat) : Prop := ∀ j, t.on j = if i = j then x else 0

omit hI in
theorem onlyOn_none {t : Thread} (h : t.pend = none) (i : Nat) : OnlyOn t i 0 := fun j => by
  rw [on_none h]
  exact (ite_self _).symm

/-- One buffer changes its count and its lock, and `p` its way in or out. -/
theorem RefInv.count (hp : p < N) (hL : LogInv N com s')
    (hproc : s'.proc = update s.proc p t) (hperm : s'.mach.bc.lru.Perm (range NBUF))
    {i x x' : Nat} (hi : i < NBUF) (hdev : (s.mach.buf i).dev = ROOTDEV)
    (hrest : ∀ j, j ≠ i → s'.mach.buf j = s.mach.buf j)
    (hkey : ∀ j, (s'.mach.buf j).dev = (s.mach.buf j).dev ∧
      (s'.mach.buf j).blockno = (s.mach.buf j).blockno)
    (hlock : ∀ q, q ≠ p → ((s'.mach.buf i).lock = some q ↔ (s.mach.buf i).lock = some q))
    (hlh : s'.mach.log.lh = s.mach.log.lh) (hun : s'.unpinned = s.unpinned)
    (hx : OnlyOn (s.proc p) i x) (hx' : OnlyOn t i x')
    (hcount : (s'.mach.buf i).refcnt + holders s i + x = (s.mach.buf i).refcnt + holders s' i + x')
    (hregs : ∀ r, t.reg r < NBUF) (hlocal : Local (com == some p) s' p) : RefInv N com s' := by
  have hpins : pinnedBlocks s' = pinnedBlocks s := by rw [pinnedBlocks, hlh, hun]; rfl
  refine hI.keep hL hproc hperm hkey (fun j _ q hq h => ?_) (fun j hj q h => ?_) ?_ hregs
    (fun j h => ?_) (fun b hb => .inl (by rwa [← hpins])) (fun h => by rw [hun]; exact hI.whole h)
    (fun _ _ => rfl) (fun _ _ _ => ⟨hlh, hun⟩) hlocal
  · by_cases hj : j = i
    · subst hj; exact (hlock q hq).mpr h
    · rw [hrest j hj]; exact h
  · grind
  · intro j hj
    have hw := waiters_step hp hproc j
    have href := hI.refs j hj
    rw [hx j, hx' j] at hw
    rw [pins_congr (hkey j).1 (hkey j).2 hpins]
    by_cases hji : j = i
    · subst hji
      rw [if_pos rfl, if_pos rfl] at hw
      omega
    · grind [holders_congr]
  · rw [hx' j] at h
    split at h
    · next hij => exact hij ▸ ⟨hi, hdev⟩
    · exact absurd rfl h

omit hI in
/-- A buffer keeps its block when something else about it changes. -/
theorem key_upd (m : Mach) (i : Nat) {f : Buf → Buf} (hf : ∀ b, (f b).dev = b.dev ∧ (f b).blockno = b.blockno)
    (j : Nat) : ((m.updBuf i f).buf j).dev = (m.buf j).dev ∧
      ((m.updBuf i f).buf j).blockno = (m.buf j).blockno := by
  by_cases hj : j = i
  · subst hj; rw [updBuf_self]; exact hf _
  · rw [updBuf_ne _ _ hj]; exact ⟨rfl, rfl⟩

/-- Taking the sleep lock: a waiter becomes the holder. -/
theorem RefInv.lock (hp : p < N)
    (hpend : (s.proc p).pend = some (.waiting r)) (hfree : (s.mach.buf (s.ptr p r)).lock = none) :
    RefInv N com ((s.withMach (s.mach.updBuf (s.ptr p r) fun b => { b with lock := some p })).updProc p
      fun q => { q with pend := none }) := by
  have hbuf := updBuf_self s.mach (s.ptr p r) fun b => { b with lock := some p }
  have hkey := key_upd s.mach (s.ptr p r) (f := fun b => { b with lock := some p }) fun _ => ⟨rfl, rfl⟩
  have hrest : ∀ j, j ≠ s.ptr p r → (s.mach.updBuf (s.ptr p r) fun b => { b with lock := some p }).buf j =
    s.mach.buf j := fun j => updBuf_ne s.mach _
  have hon : OnlyOn (s.proc p) (s.ptr p r) 1 := on_waiting hpend
  have hdev := (hI.pend p hp (s.ptr p r) (by rw [hon, if_pos rfl]; decide)).2
  refine hI.count hp (hI.log.quiet hp rfl rfl rfl rfl (hI.log.ctl p hp)) rfl hI.perm (hI.regs p hp r) hdev
    hrest hkey ?_ rfl rfl hon (onlyOn_none rfl _) ?_ (hI.regs p hp) ?_
  · intro q hq
    show ((s.mach.updBuf _ _).buf _).lock = _ ↔ _
    rw [hbuf, hfree]
    exact iff_of_false (fun h => hq (some.inj h).symm) nofun
  · show ((s.mach.updBuf _ _).buf _).refcnt + _ + _ = _ + (if ((s.mach.updBuf _ _).buf _).lock = none then _ else _) + _
    rw [holders, hfree, hbuf]
    simp
  · obtain ⟨ρ, hk, hok⟩ := hI.code p hp
    refine ⟨ρ, fun r' b hr => hk.at hr ?_ (hkey _) fun href => .inl ?_, ?_⟩
    · rw [ptr, updProc_self]
      rfl
    · show ((s.mach.updBuf _ _).buf _).lock = _
      by_cases hj : s.ptr p r' = s.ptr p r
      · rw [hj, hbuf]
      · grind
    · rw [updProc_self]
      exact hok

/-- `releasesleep`: the holder is on its way out. -/
theorem RefInv.unlock (hp : p < N)
    (hpend : (s.proc p).pend = none) (hcode : (s.proc p).todo = .brelse r :: k)
    (h : s.brelse p k r = .ok s') (hL : LogInv N com s') : RefInv N com s' := by
  obtain ⟨hheld, rfl⟩ := brelse_ok h
  have hi := hI.regs p hp r
  have hbuf := updBuf_self s.mach (s.ptr p r) fun b => { b with lock := none }
  refine hI.count hp hL rfl hI.perm hi (hI.locked _ hi p hheld).2 (fun j => updBuf_ne s.mach _)
    (key_upd s.mach (s.ptr p r) fun _ => ⟨rfl, rfl⟩) ?_ rfl rfl (onlyOn_none hpend _) (on_leaving rfl) ?_
    (hI.regs p hp) ?_
  · intro q hq
    show ((s.mach.updBuf _ _).buf _).lock = _ ↔ _
    rw [hbuf, hheld]
    exact iff_of_false nofun fun h => hq (some.inj h).symm
  · show ((s.mach.updBuf _ _).buf _).refcnt + _ + _ = _ + (if ((s.mach.updBuf _ _).buf _).lock = none then _ else _) + _
    rw [holders, hheld, hbuf]
    simp
  · -- the process keeps nothing it knew
    obtain ⟨ρ, -, hok⟩ := hI.code p hp
    rw [hcode] at hok
    refine ⟨_, Knows.nothing _ p, ?_⟩
    rw [updProc_self]
    exact hok

/-- The end of `brelse`: the reference is gone. -/
theorem RefInv.put (hp : p < N) (hpend : (s.proc p).pend = some (.leaving i)) :
    RefInv N com ((s.withMach { s.mach with bc := s.mach.bc.bput i }).updProc p fun q =>
      { q with pend := none }) := by
  have hon : OnlyOn (s.proc p) i 1 := on_leaving hpend
  have hone : (s.proc p).on i ≠ 0 := by rw [hon, if_pos rfl]; decide
  obtain ⟨hi, hdev⟩ := hI.pend p hp i hone
  have hpos : ∃ x, (s.mach.buf i).refcnt = x + 1 := by
    have hle := @on_le_waiters N p s hp i
    have href := hI.refs i hi
    exact ⟨(s.mach.buf i).refcnt - 1, by omega⟩
  have hlt := hI.refcnt_lt hi
  obtain ⟨x, hx⟩ := hpos
  have hput : ∀ j, (s.mach.bc.bput i).buf j = _ := bput_buf s.mach.bc i
  have hbuf : (s.mach.bc.bput i).buf i = { s.mach.buf i with refcnt := x } := by
    rw [hput, Bcache.upd_self, show (s.mach.bc.buf i).refcnt = x + 1 from hx, dec32_succ (by omega)]
  have hrest : ∀ j, j ≠ i → (s.mach.bc.bput i).buf j = s.mach.buf j := fun j hj => by
    rw [hput, Bcache.upd_ne _ _ hj]
  have hkey : ∀ j, ((s.mach.bc.bput i).buf j).dev = (s.mach.buf j).dev ∧
      ((s.mach.bc.bput i).buf j).blockno = (s.mach.buf j).blockno := fun j => by grind
  have hlock : ∀ j, ((s.mach.bc.bput i).buf j).lock = (s.mach.buf j).lock := fun j => by
    by_cases hj : j = i
    · subst hj; rw [hbuf]
    · rw [hrest j hj]
  refine hI.count hp (hI.log.quiet hp rfl rfl rfl rfl (hI.log.ctl p hp)) rfl (bput_perm hI.perm hi) hi
    hdev hrest hkey (fun q _ => ?_) rfl rfl hon (onlyOn_none rfl _) ?_ (hI.regs p hp) ?_
  · show ((s.mach.bc.bput i).buf i).lock = _ ↔ _
    rw [hlock]
  · have hh := @holders_congr s ((s.withMach { s.mach with bc := s.mach.bc.bput i }).updProc p fun q =>
      { q with pend := none }) i (hlock i)
    rw [hh, hx, show (mach _).buf i = _ from hbuf]
    dsimp only
    omega
  · obtain ⟨ρ, hk, hok⟩ := hI.code p hp
    refine ⟨ρ, fun r' b hr => hk.at hr ?_ (hkey _) fun href => .inl ?_, ?_⟩
    · rw [ptr, updProc_self]
      rfl
    · exact (hlock _).trans (href.resolve_right (by rw [hpend]; exact nofun))
    · rw [updProc_self]
      exact hok

/-! ## `bget` -/

theorem RefInv.mem_lru : i ∈ s.mach.bc.lru ↔ i < NBUF := by
  rw [hI.perm.mem_iff, mem_range]

/-- `p` on its way into buffer `i`, with `r` pointing to it. -/
def Thread.into (q : Thread) (r : Reg) (i : Nat) (k : List Act) : Thread :=
  ⟨update q.reg r i, some (.waiting r), k, q.ops⟩

omit hI in
theorem onlyOn_into (q : Thread) (r : Reg) (i : Nat) (k : List Act) : OnlyOn (q.into r i k) i 1 := by
  intro j
  rw [@on_waiting (q.into r i k) r rfl, show (q.into r i k).reg r = i from update_self ..]

theorem RefInv.regs_into (hp : p < N) (hi : i < NBUF) (r : Reg) (k : List Act)
    (r' : Reg) : ((s.proc p).into r i k).reg r' < NBUF := by
  by_cases hr : r' = r
  · subst hr
    rw [show ((s.proc p).into r' i k).reg r' = i from update_self ..]
    exact hi
  · rw [show ((s.proc p).into r i k).reg r' = s.ptr p r' from update_of_ne hr ..]
    exact hI.regs p hp r'

omit hI in
/-- What `p` knows in `bget`: the block of the new buffer, and what it knew of those it has locked. -/
theorem Local.into {c : Bool} (hk : Knows s p ρ) (hpend : (s.proc p).pend = none)
    (hself : s'.proc p = (s.proc p).into r i k)
    (hb : (s'.mach.buf i).dev = ROOTDEV ∧ (s'.mach.buf i).blockno = b)
    (hlocked : ∀ j, (s.mach.buf j).lock = some p → (s'.mach.buf j).dev = (s.mach.buf j).dev ∧
      (s'.mach.buf j).blockno = (s.mach.buf j).blockno ∧ (s'.mach.buf j).lock = some p)
    (hok : Ok c s'.mach.log.lh s'.unpinned (update ρ r (some b)) k) : Local c s' p := by
  refine ⟨_, fun r' b' hr' => ?_, by rw [hself]; exact hok⟩
  by_cases hr : r' = r
  · subst hr
    rw [update_self] at hr'
    obtain rfl := some.inj hr'
    have hptr : s'.ptr p r' = i := by rw [ptr, hself]; exact update_self ..
    rw [hptr, hself]
    exact ⟨hb.1, hb.2, .inr rfl⟩
  · rw [update_of_ne hr] at hr'
    obtain ⟨hd, hbn, hl⟩ := hlocked _ ((hk r' b' hr').2.2.resolve_right (by rw [hpend]; exact nofun))
    refine hk.at hr' ?_ ⟨hd, hbn⟩ fun _ => .inl hl
    rw [ptr, hself]
    exact update_of_ne hr ..

/-- The block is cached: one more reference to its buffer. -/
theorem RefInv.hit (hp : p < N) (hL : LogInv N com s') (hpend : (s.proc p).pend = none) (hi : i < NBUF)
    (hdev : (s.mach.buf i).dev = ROOTDEV) (hb : (s.mach.buf i).blockno = b)
    (hs : s' = (s.withMach (s.mach.bpin i)).updProc p fun q => q.into r i k)
    (hok : ∃ ρ, Knows s p ρ ∧ Ok (com == some p) s.mach.log.lh s.unpinned (update ρ r (some b)) k) :
    RefInv N com s' := by
  subst hs
  obtain ⟨ρ, hk, hok⟩ := hok
  have hbuf := bpin_self s.mach i
  have hkey := key_upd s.mach i (f := fun b => { b with refcnt := inc32 b.refcnt }) fun _ => ⟨rfl, rfl⟩
  have hlock : ∀ j, ((s.mach.bpin i).buf j).lock = (s.mach.buf j).lock := fun j => by
    by_cases hj : j = i
    · subst hj; rw [hbuf]
    · rw [bpin_ne _ hj]
  rw [inc32_of_lt (hI.refcnt_lt hi)] at hbuf
  refine hI.count hp hL rfl hI.perm hi hdev (fun j => bpin_ne s.mach) hkey (fun q _ => ?_) rfl rfl
    (onlyOn_none hpend _) (onlyOn_into (s.proc p) r i k) ?_ (hI.regs_into hp hi r k)
    (.into hk hpend (updProc_self _) ?_ (fun j hj => ?_) hok)
  · show ((s.mach.bpin i).buf i).lock = _ ↔ _
    rw [hlock]
  · have hh := @holders_congr s ((s.withMach (s.mach.bpin i)).updProc p fun q => q.into r i k) i (hlock i)
    rw [hh, show (mach _).buf i = _ from hbuf]
    dsimp only
    omega
  · exact ⟨(hkey i).1.trans hdev, (hkey i).2.trans hb⟩
  · exact ⟨(hkey j).1, (hkey j).2, (hlock j).trans hj⟩

/-- A buffer with no count has no lock, no waiter and no pin. -/
theorem RefInv.unused (hi : i < NBUF)
    (h : (s.mach.buf i).refcnt = 0) : (s.mach.buf i).lock = none ∧ waiters N s i = 0 ∧ pins s i = 0 := by
  have href := hI.refs i hi
  rw [h] at href
  refine ⟨?_, by omega, by omega⟩
  by_contra hl
  have : holders s i = 1 := if_neg hl
  omega

/-- The block is not cached: an unused buffer is given to it. -/
theorem RefInv.recycle (hp : p < N) (hL : LogInv N com s')
    (hpend : (s.proc p).pend = none) (hi : i < NBUF) (hfree : (s.mach.buf i).refcnt = 0)
    (hmiss : ∀ j, j < NBUF → (s.mach.buf j).dev = ROOTDEV → (s.mach.buf j).blockno ≠ b)
    (hlru : s'.mach.bc.lru = s.mach.bc.lru)
    (hbuf : s'.mach.buf i = { s.mach.buf i with dev := ROOTDEV, blockno := b, valid := false, refcnt := 1 })
    (hrest : ∀ j, j ≠ i → s'.mach.buf j = s.mach.buf j)
    (hlh : s'.mach.log.lh = s.mach.log.lh) (hun : s'.unpinned = s.unpinned)
    (hproc : s'.proc = update s.proc p ((s.proc p).into r i k))
    (hok : ∃ ρ, Knows s p ρ ∧ Ok (com == some p) s.mach.log.lh s.unpinned (update ρ r (some b)) k) :
    RefInv N com s' := by
  obtain ⟨hnolock, hnowait, hnopin⟩ := hI.unused hi hfree
  obtain ⟨ρ, hk, hok⟩ := hok
  have hpins : pinnedBlocks s' = pinnedBlocks s := by rw [pinnedBlocks, hlh, hun]; rfl
  -- the new block is not pinned: a pinned block is cached
  have hb : b ∉ pinnedBlocks s := by
    intro h
    obtain ⟨j, hj, hd, hbj⟩ := hI.cached b h
    exact hmiss j hj hd hbj
  have hheld : ∀ {j q}, (s.mach.buf j).lock = some q → j ≠ i := by
    rintro j q h rfl
    exact absurd (hnolock.symm.trans h) nofun
  refine ⟨hI.few, hL, hlru ▸ hI.perm, ?_, ?_, ?_, ?_, ?_, ?_, fun h => by rw [hun]; exact hI.whole h,
    ?_⟩
  · intro j l hj hl hdj hdl hbb
    by_cases hji : j = i
    · grind
    · grind [RefInv]
  · intro j hj
    have hw := waiters_step hp hproc j
    rw [on_none hpend, onlyOn_into] at hw
    by_cases hji : j = i
    · grind [holders, pins]
    · grind [RefInv, holders_congr, pins_congr]
  · grind [RefInv]
  · intro q hq r'
    rw [ptr, hproc]
    by_cases hqp : q = p
    · subst hqp; rw [update_self]; exact hI.regs_into hq hi r k r'
    · rw [update_of_ne hqp]; exact hI.regs q hq r'
  · intro q hq j hj
    by_cases hji : j = i
    · subst hji; rw [hbuf]; exact ⟨hi, rfl⟩
    · rw [hrest j hji]
      rw [hproc] at hj
      by_cases hqp : q = p
      · subst hqp
        rw [update_self, onlyOn_into, if_neg fun h => hji h.symm] at hj
        exact absurd rfl hj
      · rw [update_of_ne hqp] at hj; exact hI.pend q hq j hj
  · intro c hc
    rw [hpins] at hc
    obtain ⟨j, hj, hd, hbj⟩ := hI.cached c hc
    have hji : j ≠ i := by
      rintro rfl
      rw [pins, if_pos ⟨hd, hbj ▸ hc⟩] at hnopin
      cases hnopin
    exact ⟨j, hj, by rw [hrest j hji]; exact hd, by rw [hrest j hji]; exact hbj⟩
  · intro q hq
    by_cases hqp : q = p
    · subst hqp
      refine .into hk hpend (congrFun hproc q |>.trans (update_self ..))
        (by rw [hbuf]; exact ⟨rfl, rfl⟩) (fun j hj => ?_) (by rw [hlh, hun]; exact hok)
      rw [hrest j (hheld hj)]
      exact ⟨rfl, rfl, hj⟩
    · refine hI.others hproc (fun _ _ => rfl) (fun j _ h => ?_) (fun j _ q _ h => ?_)
        (fun _ _ _ => ⟨hlh, hun⟩) q hq hqp
      · have hji : j ≠ i := by rintro rfl; exact h hfree
        rw [hrest j hji]; exact ⟨rfl, rfl⟩
      · rw [hrest j (hheld h)]; exact h

/-! ## Pins -/

/-- One buffer's pin changes, and with it its count and the list. -/
theorem RefInv.repin (hp : p < N) (hL : LogInv N com s') (hlru : s'.mach.bc.lru = s.mach.bc.lru)
    (hi : i < NBUF) (hdev : (s.mach.buf i).dev = ROOTDEV)
    (hrest : ∀ j, j ≠ i → s'.mach.buf j = s.mach.buf j)
    (hsame : (s'.mach.buf i).dev = (s.mach.buf i).dev ∧ (s'.mach.buf i).blockno = (s.mach.buf i).blockno ∧
      (s'.mach.buf i).lock = (s.mach.buf i).lock)
    (hcount : (s'.mach.buf i).refcnt + pins s i = (s.mach.buf i).refcnt + pins s' i)
    (hlist : ∀ c, c ≠ (s.mach.buf i).blockno → (c ∈ pinnedBlocks s' ↔ c ∈ pinnedBlocks s))
    (hproc : s'.proc = update s.proc p ⟨(s.proc p).reg, (s.proc p).pend, k, ops⟩)
    (hwhole : com = none → s'.unpinned = 0)
    (hlog : ∀ q, q ≠ p → com = some q → s'.mach.log.lh = s.mach.log.lh ∧ s'.unpinned = s.unpinned)
    (hok : ∃ ρ, Knows s p ρ ∧ Ok (com == some p) s'.mach.log.lh s'.unpinned ρ k) :
    RefInv N com s' := by
  have hself : s'.proc p = _ := congrFun hproc p |>.trans (update_self ..)
  have hbuf : ∀ j, (s'.mach.buf j).dev = (s.mach.buf j).dev ∧
      (s'.mach.buf j).blockno = (s.mach.buf j).blockno ∧
      (s'.mach.buf j).lock = (s.mach.buf j).lock := by grind
  refine hI.keep hL hproc (hlru ▸ hI.perm) (fun j => ⟨(hbuf j).1, (hbuf j).2.1⟩)
    (fun j _ q _ h => (hbuf j).2.2.trans h) (fun j _ q h => .inl ((hbuf j).2.2.symm.trans h)) ?_
    (hI.regs p hp) (hI.pend p hp) ?_ hwhole (fun _ _ => rfl) hlog ?_
  · intro j hj
    have hw : waiters N s' j + (s.proc p).on j = waiters N s j + (s.proc p).on j := waiters_step hp hproc j
    have href := hI.refs j hj
    have hh : holders s' j = holders s j := holders_congr (hbuf j).2.2
    by_cases hji : j = i
    · subst hji; omega
    · -- no other buffer holds the block whose pin changes
      have hpin : pins s' j = pins s j := by grind [RefInv, pins]
      rw [hrest j hji]
      omega
  · grind
  · obtain ⟨ρ, hk, hok⟩ := hok
    refine ⟨ρ, fun r b hr => hk.at hr ?_ ⟨(hbuf _).1, (hbuf _).2.1⟩ ?_, by rw [hself]; exact hok⟩
    · rw [ptr, hself]
      rfl
    · rw [(hbuf _).2.2, hself]
      exact id

omit hI in
/-- `log_write` of a block that is not in the list yet. -/
theorem RefInv.record (hI : RefInv N none s) (hp : p < N) (hL : LogInv N none s')
    (hi : i < NBUF) (hdev : (s.mach.buf i).dev = ROOTDEV) (hb : (s.mach.buf i).blockno = b)
    (hnew : b ∉ s.mach.log.lh) (hmach : s'.mach = (s.mach.bpin i).setLh (s.mach.log.lh ++ [b]))
    (hun : s'.unpinned = s.unpinned)
    (hproc : s'.proc = update s.proc p ⟨(s.proc p).reg, (s.proc p).pend, [], ops⟩) :
    RefInv N none s' := by
  have hzero := hI.whole rfl
  have hpins : pinnedBlocks s = s.mach.log.lh := by rw [pinnedBlocks, hzero]; rfl
  have hpins' : pinnedBlocks s' = s.mach.log.lh ++ [b] := by rw [pinnedBlocks, hun, hzero, hmach]; rfl
  have hbuf : s'.mach.buf i = { s.mach.buf i with refcnt := inc32 (s.mach.buf i).refcnt } := by
    rw [hmach]; exact bpin_self s.mach i
  rw [inc32_of_lt (hI.refcnt_lt hi)] at hbuf
  refine hI.repin hp hL (by rw [hmach]; rfl) hi hdev (fun j hj => by rw [hmach]; exact bpin_ne s.mach hj)
    (by rw [hbuf]; exact ⟨rfl, rfl, rfl⟩) ?_ ?_ hproc
    (fun _ => hun.trans hzero) (fun _ _ h => nomatch h) ⟨fun _ => none, nofun, trivial⟩
  · grind [pins]
  · grind

omit hI in
/-- `log_write`. -/
theorem RefInv.addLog (hI : RefInv N none s) (hp : p < N)
    (hd : (s.mach.buf (s.ptr p r)).dev = ROOTDEV) (hb : (s.mach.buf (s.ptr p r)).blockno = b)
    (hL : LogInv N none (s.addLog p [] r)) : RefInv N none (s.addLog p [] r) := by
  by_cases hmem : b ∈ s.mach.log.lh
  · have hrec : (s.addLog p [] r).mach = s.mach := if_pos (by rw [hb]; exact hmem)
    refine hI.same hp hL (by rw [hrec]; exact ⟨rfl, fun _ => ⟨rfl, rfl, rfl, rfl⟩⟩)
      (by rw [pinnedBlocks, hrec]; rfl) rfl hI.whole (fun _ _ => rfl) (fun _ _ h => nomatch h)
      ⟨_, Knows.nothing s p, trivial⟩
  · have hmach : (s.addLog p [] r).mach = (s.mach.bpin (s.ptr p r)).setLh (s.mach.log.lh ++ [b]) := by
      show s.mach.record (s.ptr p r) = _
      rw [Mach.record, hb, if_neg hmem]
    exact hI.record hp hL (hI.regs p hp r) hd hb hmem hmach rfl rfl

omit hI in
/-- `bunpin` in `install_trans`: the next pin of the list goes. -/
theorem RefInv.bunpin (hI : RefInv N (some p) s) (hp : p < N) (hcode : (s.proc p).todo = .bunpin r :: k)
    (hs : s' = ({ s with mach := s.mach.bunpin (s.ptr p r), unpinned := s.unpinned + 1 } : Sys).goto p k)
    (hL : LogInv N (some p) s') : RefInv N (some p) s' := by
  obtain ⟨ρ, hk, hok⟩ := hI.code p hp
  rw [hcode] at hok
  obtain ⟨-, hlt, hρ, hok⟩ := hok
  obtain ⟨hdev, hb, -⟩ := hk r _ hρ
  have hi := hI.regs p hp r
  have hbuf : s'.mach.buf (s.ptr p r) =
      { s.mach.buf (s.ptr p r) with refcnt := dec32 (s.mach.buf (s.ptr p r)).refcnt } := by
    rw [hs]; exact bunpin_self s.mach (s.ptr p r)
  have hrest : ∀ j, j ≠ s.ptr p r → s'.mach.buf j = s.mach.buf j := fun j hj => by
    rw [hs]; exact bunpin_ne s.mach hj
  have hlru : s'.mach.bc.lru = s.mach.bc.lru := by rw [hs]; rfl
  have hlh : s'.mach.log.lh = s.mach.log.lh := by rw [hs]; rfl
  have hun : s'.unpinned = s.unpinned + 1 := by rw [hs]; rfl
  have hproc : s'.proc = update s.proc p { s.proc p with todo := k } := by rw [hs]; rfl
  clear hs
  generalize s.ptr p r = i at *
  -- the list from the entry at hand on, and after it
  have hget : s.mach.log.lh.getD s.unpinned 0 = s.mach.log.lh[s.unpinned] := by
    rw [getD_eq_getElem?_getD, getElem?_eq_getElem hlt]; rfl
  rw [hget] at hb
  have hdrop : pinnedBlocks s = s.mach.log.lh[s.unpinned] :: pinnedBlocks s' := by
    rw [pinnedBlocks, pinnedBlocks, hlh, hun, drop_eq_getElem_cons hlt]
  have hnd : (pinnedBlocks s).Nodup := (drop_sublist _ _).nodup hI.log.nodup
  rw [hdrop, nodup_cons, ← hb] at hnd
  have h1 : pins s i = 1 := by
    rw [pins, hdrop, ← hb]
    exact if_pos ⟨hdev, mem_cons_self ..⟩
  have hpos : ∃ x, (s.mach.buf i).refcnt = x + 1 :=
    ⟨(s.mach.buf i).refcnt - 1, by have := hI.refs i hi; omega⟩
  have hmax := hI.refcnt_lt hi
  obtain ⟨x, hx⟩ := hpos
  rw [hx, dec32_succ (by omega)] at hbuf
  refine hI.repin hp hL hlru hi hdev hrest (by rw [hbuf]; exact ⟨rfl, rfl, rfl⟩) ?_ ?_ hproc
    nofun ?_ ⟨ρ, hk, by rw [hlh, hun]; exact hok⟩
  · have h0 : pins s' i = 0 := by rw [pins, hbuf]; exact if_neg fun h => hnd.1 h.2
    rw [h0, h1, hbuf, hx]
  · intro c hc
    rw [hdrop, mem_cons, ← hb]
    exact ⟨.inr, fun h => h.resolve_left hc⟩
  · intro q hq h
    exact absurd (some.inj h).symm hq

/-! ## Every step -/

omit hI in
theorem bgetRef_cases {bc bc' : Bcache} {dev b i : Nat} (h : bc.bgetRef dev b = some (i, bc')) :
    (bc.lookup dev b = some i ∧ bc' = bc.upd i fun c => { c with refcnt := inc32 c.refcnt }) ∨
    (bc.lookup dev b = none ∧ bc.victim = some i ∧ bc' = bc.upd i fun c =>
      { c with dev := dev, blockno := b, valid := false, refcnt := 1 }) := by
  unfold Bcache.bgetRef at h
  cases hl : bc.lookup dev b with
  | some j =>
    rw [hl] at h
    obtain ⟨rfl, rfl⟩ := Prod.mk.inj (some.inj h)
    exact .inl ⟨rfl, rfl⟩
  | none =>
    grind

theorem RefInv.bget (hp : p < N)
    (hpend : (s.proc p).pend = none) (h : s.bget p k r b = .ok s') (hL : LogInv N com s')
    (hok : ∃ ρ, Knows s p ρ ∧ Ok (com == some p) s.mach.log.lh s.unpinned (update ρ r (some b)) k) :
    RefInv N com s' := by
  obtain ⟨i, bc, hb, rfl⟩ := bget_ok h
  rcases bgetRef_cases hb with ⟨hl, rfl⟩ | ⟨hl, hv, rfl⟩
  · have hi := hI.mem_lru.mp (mem_of_find?_eq_some hl)
    have hkey := find?_some hl
    simp only [Bool.and_eq_true, beq_iff_eq] at hkey
    exact hI.hit hp hL hpend hi hkey.1 hkey.2 rfl hok
  · have hi := hI.mem_lru.mp (mem_reverse.mp (mem_of_find?_eq_some hv))
    have hfree := find?_some hv
    rw [beq_iff_eq] at hfree
    let f : Buf → Buf := fun c =>
      { c with dev := ROOTDEV, blockno := b, valid := false, refcnt := 1 }
    refine hI.recycle hp hL hpend hi hfree ?_ rfl (Bcache.upd_self s.mach.bc i f)
      (fun j hj => Bcache.upd_ne s.mach.bc f hj) rfl rfl rfl hok
    intro j hj hd hbj
    have hmiss := find?_eq_none.mp hl j (hI.mem_lru.mpr hj)
    simp only [Bool.and_eq_true, beq_iff_eq] at hmiss
    exact hmiss ⟨hd, hbj⟩

omit hI in
/-- The code after a plain act is right, with what is left of the knowledge: `commit` and the loops unfold
    to code that needs none. -/
theorem Ok.after {c : Bool} {a : Act} (ha : a.Plain) (hk : Knows s p ρ)
    (h : Ok c s.mach.log.lh s.unpinned ρ (a :: k)) :
    ∃ ρ', Knows s p ρ' ∧ Ok c s.mach.log.lh s.unpinned ρ' (s.after k a) := by
  cases a with
  | fetch | store | copy | putHead | bwrite | checkLog => exact ⟨ρ, hk, h⟩
  | commit =>
    obtain ⟨rfl, hm, h⟩ := h
    refine ⟨_, Knows.nothing s p, ?_⟩
    simp only [Sys.after]
    rw [hm]
    split
    · exact ⟨rfl, rfl, rfl, Nat.zero_le _, rfl, rfl, h⟩
    · next hn =>
      rw [length_eq_zero_iff.mp (Nat.eq_zero_of_not_pos hn)]
      exact h
  | writeLog tail =>
    obtain ⟨rfl, h⟩ := h
    refine ⟨_, Knows.nothing s p, ?_⟩
    simp only [Sys.after]
    split
    · exact ⟨rfl, rfl, h⟩
    · exact h
  | installTrans tail =>
    obtain ⟨rfl, rfl, hm, h⟩ := h
    refine ⟨_, Knows.nothing s p, ?_⟩
    simp only [Sys.after]
    split
    · next hlt => exact ⟨rfl, rfl, hlt, rfl, rfl, rfl, hlt, h⟩
    · next hn =>
      rw [le_antisymm hm (not_lt.mp hn)]
      exact h
  | _ => exact ha.elim

theorem RefInv.exec (hp : p < N) {a : Act}
    (hpend : (s.proc p).pend = none) (htodo : (s.proc p).todo = a :: k)
    (h : s.exec p k a = .ok s') : RefInv N (nextCom s p com a) s' := by
  have hL := hI.log.exec hp htodo h
  have hctl := hI.log.ctl p hp
  rw [htodo] at hctl
  obtain ⟨ρ, hk, hok⟩ := hI.code p hp
  rw [htodo] at hok
  cases exec_did h with
  | bget h => exact hI.bget hp hpend h hL ⟨ρ, hk, hok⟩
  | bgetLh h => exact hI.bget hp hpend h hL ⟨ρ, hk, hok.2⟩
  | brelse h => exact hI.unlock hp hpend htodo h hL
  | bunpin hs =>
    obtain rfl := committer_eq hctl.1
    exact hI.bunpin hp htodo hs hL
  | @addLog r hs =>
    subst hs
    obtain ⟨-, hops, rfl⟩ := hctl
    obtain rfl := hI.log.no_committer hp hops
    obtain ⟨b, hb⟩ := ne_none_iff_exists'.mp hok.1
    obtain ⟨hd, hbno, -⟩ := hk r b hb
    exact hI.addLog hp hd hbno hL
  | clearLh hs =>
    subst hs
    obtain rfl := committer_eq hctl.1
    obtain ⟨-, hm, hok⟩ := hok
    refine hI.same hp hL ⟨rfl, fun _ => ⟨rfl, rfl, rfl, rfl⟩⟩ ?_ rfl (fun h => by cases h) (fun _ _ => rfl) ?_
      ⟨_, Knows.nothing s p, hok⟩
    · -- every pin is gone by now
      rw [pinnedBlocks, pinnedBlocks, hm, drop_length]
      rfl
    · intro q hq h
      exact absurd (some.inj h).symm hq
  | beginOp hadm hlog hs =>
    exact hI.still hp hL hs hI.whole (fun _ _ => rfl) ⟨ρ, hk, by rw [hctl.2]; trivial⟩
  | leave hc hout hlog hs =>
    obtain ⟨-, hops, rfl⟩ := hctl
    rw [nextCom, if_neg hout] at hL ⊢
    exact hI.still hp hL hs hI.whole (fun _ _ => rfl) ⟨_, Knows.nothing s p, trivial⟩
  | lastOut hc hout hlog hs =>
    obtain ⟨-, hops, rfl⟩ := hctl
    obtain rfl := hI.log.com_none hc
    rw [nextCom, if_pos hout] at hL ⊢
    refine hI.still hp hL hs (by simp) (fun q hq => not_committer rfl hq) ⟨_, Knows.nothing s p, ?_⟩
    rw [beq_self_eq_true]
    exact ⟨rfl, hI.whole rfl, rfl, rfl, rfl⟩
  | committed hlog hs =>
    obtain ⟨hc, -, rfl⟩ := hctl
    obtain rfl := committer_eq hc
    exact hI.still hp hL hs (fun _ => hok.2.1) (fun q hq => (not_committer rfl hq).symm)
      ⟨_, Knows.nothing s p, trivial⟩
  | plain ha hlog hs =>
    rw [nextCom_plain ha] at hL ⊢
    exact hI.still hp hL hs hI.whole (fun _ _ => rfl) (hok.after ha hk)

/-- The code of a legal call, with what its caller knows. -/
theorem RefInv.call (hp : p < N) {c : Call} (hl : s.Legal p c) :
    ∃ ρ, Knows s p ρ ∧ Ok (com == some p) s.mach.log.lh s.unpinned ρ c.code := by
  cases c with
  | logWrite r =>
    obtain ⟨hheld, -⟩ := hl
    have hdev := (hI.locked _ (hI.regs p hp (.user r)) p hheld).2
    refine ⟨fun r' => if r' = .user r then some (s.mach.buf (s.ptr p (.user r))).blockno else none,
      fun r' b hr => ?_, ?_, rfl⟩
    · grind
    · simp
  | beginOp | endOp => exact ⟨_, Knows.nothing s p, rfl⟩
  | _ => exact ⟨_, Knows.nothing s p, trivial⟩

theorem RefInv.step {c : Call} (hp : p < N) (hl : s.Legal p c)
    (h : s.step p c = .ok s') : ∃ com', RefInv N com' s' := by
  rcases step_cases h with ⟨r, hpend, hfree, rfl⟩ | ⟨i, hpend, rfl⟩ | ⟨hpend, hnil, rfl⟩ |
    ⟨a, k, hpend, htodo, h⟩
  · exact ⟨com, hI.lock hp hpend hfree⟩
  · exact ⟨com, hI.put hp hpend⟩
  · exact ⟨com, hI.still hp (hI.log.call hp hl hnil) (.of_bc rfl rfl rfl rfl rfl) hI.whole (fun _ _ => rfl)
      (hI.call hp hl)⟩
  · exact ⟨_, hI.exec hp hpend htodo h⟩

end

/-! ## From boot -/

variable {G : Sys → Prop} {m : Mach} {start size me : Nat} {d : Nat → Block}

/-- A machine on which nothing is logged, pinned or held. -/
theorem RefInv.boot {T : Nat → Prop} (hP : m.Pinned 1 [] T [])
    (hlog : m.log = ⟨start, size, 0, false, []⟩) (hN : N + 3 < 4294967296) :
    RefInv N none (Sys.boot m) := by
  have hinv := hP.inv
  have hlh : m.log.lh = [] := congrArg Log.lh hlog
  have hpins : pinnedBlocks (Sys.boot m) = [] := by
    change m.log.lh.drop 0 = []
    rw [hlh]; rfl
  have hnolock : ∀ i, i < NBUF → (m.buf i).lock = none := fun i hi => by
    rw [hinv.locks i hi, if_neg not_mem_nil]
  refine ⟨hN, LogInv.boot hlog N, hinv.perm, hinv.keys, ?_, ?_, fun _ _ _ => Nat.zero_lt_succ _,
    fun _ _ _ hon => absurd rfl hon, ?_, fun _ => rfl, fun p _ => ⟨_, Knows.nothing _ p, trivial⟩⟩
  · intro i hi
    have hw : waiters N (Sys.boot m) i = 0 := Finset.sum_eq_zero fun _ _ => rfl
    have hh : holders (Sys.boot m) i = 0 := if_pos (hnolock i hi)
    have hp : pins (Sys.boot m) i = 0 := by rw [pins, hpins]; exact if_neg (by simp)
    rw [hw, hh, hp]
    change (m.buf i).refcnt = 0
    rw [hinv.refs i hi]
    simp [pinsOf]
  · intro i hi p hl
    rw [show (Sys.boot m).mach.buf i = m.buf i from rfl, hnolock i hi] at hl
    cases hl
  · intro b hb
    rw [hpins] at hb
    exact absurd hb not_mem_nil

theorem Reach.refInv {T : Nat → Prop} (hP : m.Pinned 1 [] T [])
    (hlog : m.log = ⟨start, size, 0, false, []⟩) (hN : N + 3 < 4294967296)
    (hr : Reach N G (Sys.boot m) s) : ∃ com, RefInv N com s :=
  (hr.invariant (I := fun s => ∃ com, RefInv N com s) (fun _ => ⟨none, RefInv.boot hP hlog hN⟩)
    fun hp hl hs _ _ ⟨_, hI⟩ => hI.step hp hl hs).1

/-- The accounting of one state: every count is its references; the decrements at hand find one;
    what is in use is not recycled, and what is not can be. -/
structure Accounted (N : Nat) (s : Sys) : Prop where
  refcnt : ∀ i, i < NBUF → (s.mach.buf i).refcnt = holders s i + waiters N s i + pins s i
  brelse : ∀ p, p < N → ∀ i, (s.proc p).pend = some (.leaving i) → 0 < (s.mach.buf i).refcnt
  bunpin : ∀ p, p < N → ∀ r k, (s.proc p).pend = none → (s.proc p).todo = .bunpin r :: k →
    0 < (s.mach.buf (s.ptr p r)).refcnt
  victim : ∀ i, s.mach.bc.victim = some i → (s.mach.buf i).lock = none ∧ waiters N s i = 0 ∧ pins s i = 0
  recyclable : ∀ i, i < NBUF → (s.mach.buf i).lock = none → waiters N s i = 0 → pins s i = 0 →
    (s.mach.buf i).refcnt = 0 ∧ s.mach.bc.victim ≠ none

theorem RefInv.accounted (hI : RefInv N com s) : Accounted N s := by
  refine ⟨hI.refs, ?_, ?_, ?_, ?_⟩
  · intro p hp i hpend
    have hon : (s.proc p).on i = 1 := by rw [on_leaving hpend, if_pos rfl]
    have hi := (hI.pend p hp i (by rw [hon]; decide)).1
    have hle := @on_le_waiters N p s hp i
    have href := hI.refs i hi
    omega
  · intro p hp r k _ hcode
    obtain ⟨ρ, hk, hok⟩ := hI.code p hp
    rw [hcode] at hok
    obtain ⟨-, -, hρ, -⟩ := hok
    exact Nat.pos_of_ne_zero (hI.refcnt_pos hp (hk r _ hρ).2.2)
  · intro i hv
    have hi := hI.mem_lru.mp (mem_reverse.mp (mem_of_find?_eq_some hv))
    have hfree := find?_some hv
    rw [beq_iff_eq] at hfree
    exact hI.unused hi hfree
  · intro i hi hl hw hp
    have hh : holders s i = 0 := if_pos hl
    have hzero : (s.mach.buf i).refcnt = 0 := by rw [hI.refs i hi, hh, hw, hp]
    refine ⟨hzero, fun hv => ?_⟩
    have hnot := find?_eq_none.mp hv i (mem_reverse.mpr (hI.mem_lru.mpr hi))
    exact hnot (by rw [hzero]; rfl)

/-- **Reference counts add up.**  Boot on a disk whose log is empty and let any processes call
    `bget`, `bread`, `brelse`, `log_write`, `begin_op` and `end_op` in any order, commits included:
    in every state reached the accounting is exact. -/
theorem refcnt_accounted (hempty : readHdr (d start) = some [])
    (hboot : initlog (bootMach me d) start size = .ok m) (hN : N ≤ NPROC)
    (hr : Reach N (fun _ => True) (Sys.boot m) s) : Accounted N s := by
  obtain ⟨m', hboot', hQ, -⟩ := boot_quiet start size me hempty
  obtain rfl := Except.ok.inj (hboot.symm.trans hboot')
  have hfew : N + 3 < 4294967296 := by
    have h : N ≤ 64 := hN
    omega
  obtain ⟨com, hI⟩ := hr.refInv hQ.pinned hQ.log hfew
  exact hI.accounted

/-- One operation logs a block while a second process waits for the same buffer. -/
def contention : List (Nat × Call) :=
  List.replicate 2 (0, .beginOp) ++ List.replicate 4 (0, .bread 0 100) ++
    List.replicate 2 (1, .bread 0 100) ++ List.replicate 3 (0, .logWrite 0)

theorem contention_runs : ((initlog (bootMach 1 fun _ _ => 0) 2 LOGSIZE).toOption.bind fun m =>
    schedule 2 (fun _ => True) contention (Sys.boot m)).isSome = true := by decide +kernel

theorem refcnt_accounted_contention : ∃ m s, readHdr ((fun _ _ => 0 : Nat → Block) 2) = some [] ∧
    initlog (bootMach 1 fun _ _ => 0) 2 LOGSIZE = .ok m ∧ 2 ≤ NPROC ∧
    schedule 2 (fun _ => True) contention (Sys.boot m) = some s ∧
    Reach 2 (fun _ => True) (Sys.boot m) s ∧ Accounted 2 s := by
  obtain ⟨s, h⟩ := isSome_iff_exists.mp contention_runs
  obtain ⟨m, hm, hs⟩ := bind_eq_some_iff.mp h
  have hempty : readHdr ((fun _ _ => 0 : Nat → Block) 2) = some [] := by decide
  have hboot := toOption_eq_some hm
  have hr : Reach 2 (fun _ => True) (Sys.boot m) s := schedule_reach (.start trivial) hs
  exact ⟨m, s, hempty, hboot, by decide, hs, hr, refcnt_accounted hempty hboot (by decide) hr⟩

/-- The third buffer after a boot that replays one block: its count, and who has it locked. -/
def replayCount : Option (Nat × Option Nat) :=
  (initlog (bootMach 1 replayDisk) 2 LOGSIZE).toOption.map fun m =>
    ((m.buf 2).refcnt, (m.buf 2).lock)

theorem replayCount_eq : replayCount = some (4294967295, none) := by decide +kernel

/-- A boot that replays a committed block ends with a count of `2 ^ 32 - 1` on a buffer that nobody
    holds, waits for or has pinned: `install_trans` dropped a pin that `recover_from_log` never
    took. -/
theorem replay_wraps_refcnt : ∃ m s, initlog (bootMach 1 replayDisk) 2 LOGSIZE = .ok m ∧
    Reach NPROC (fun _ => True) (Sys.boot m) s ∧ (s.mach.buf 2).refcnt = 4294967295 ∧
    holders s 2 = 0 ∧ waiters NPROC s 2 = 0 ∧ pins s 2 = 0 := by
  obtain ⟨m, hm, h⟩ := map_eq_some_iff.mp replayCount_eq
  obtain ⟨href, hlock⟩ := Prod.mk.inj h
  have hboot := toOption_eq_some hm
  refine ⟨m, Sys.boot m, hboot, .start trivial, href, if_pos hlock, Finset.sum_eq_zero fun _ _ => rfl, ?_⟩
  have hlh : m.log.lh = [] := congrArg Log.lh (initlog_log hboot)
  have hpins : pinnedBlocks (Sys.boot m) = [] := by
    change m.log.lh.drop 0 = []
    rw [hlh]; rfl
  rw [pins, hpins]
  exact if_neg (by simp)

end Xv6
