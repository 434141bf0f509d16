/-
  CRASH ATOMICITY of the log, for the machine of `Xv6.Bio` and `Xv6.Log`.

  A transaction is a list of block accesses between `beginOp` and `endOp`: read a block, or modify
  it in the cache and hand it to `logWrite`.  What it MEANS is said without a cache or a log:
  `stores` rewrites the blocks one after the other.

  1. `access_run`, `runAll_run` — the accesses change the cache as `stores` says, pin exactly the
     blocks they log, and write nothing to the disk.
  2. `txn_run` — the whole transaction writes what the redo log calls a commit of those blocks.
  3. `txns_run` — so a sequence of transactions writes a sequence of commits, and
     `RedoLog.Layout.crash_commits` says what any prefix of them is worth.

  Every machine boots through `initlog`.  All this is for a machine that found an EMPTY log when it
  booted: one that replayed a log has the buffers of the replayed blocks with a reference count of
  `2 ^ 32 - 1` (`Mach.recover_run`), and `replayed_boot_loses_update` shows what that costs.
-/
import Xv6.LogSpec

namespace Xv6

open Function Bytes List RedoLog Mach

variable {a : Access} {as : List Access} {l : List Nat} {b c i : Nat} {d d' v : Nat → Block}

/-! ## Transactions -/

/-- One block access of a file-system operation. -/
inductive Access
  | read (b : Nat)
  | write (b : Nat) (f : Block → Block)

namespace Access

/-- `bread`, the change and `log_write`, `brelse`. -/
def run : Access → Mach → Except Err Mach
  | read b, s => do
    let (i, s) ← s.bread ROOTDEV b
    s.brelse i
  | write b f, s => do
    let (i, s) ← s.bread ROOTDEV b
    let s := s.setData i (f (s.buf i).data)
    let s ← s.logWrite i
    s.brelse i

def block : Access → Nat
  | read b => b
  | write b _ => b

/-- What the access does to the blocks. -/
def store : Access → (Nat → Block) → Nat → Block
  | read _, v => v
  | write b f, v => update v b (f (v b))

/-- What it does to the list of logged blocks. -/
def logged : Access → List Nat → List Nat
  | read _, l => l
  | write b _, l => addBlock l b

/-- `log_write`'s size check, for a log of `size` blocks that already lists `l`. -/
def fits (size : Nat) (l : List Nat) : Access → Bool
  | read _ => true
  | write _ _ => l.length + 1 < size

end Access

def runAll : List Access → Mach → Except Err Mach
  | [], s => .ok s
  | a :: as, s => do runAll as (← a.run s)

/-- `begin_op`, the accesses, `end_op`. -/
def runTxn (as : List Access) (s : Mach) : Except Err Mach := do
  let s ← s.beginOp
  let s ← runAll as s
  s.endOp

def runTxns : List (List Access) → Mach → Except Err Mach
  | [], s => .ok s
  | t :: ts, s => do runTxns ts (← runTxn t s)

/-- What the accesses do to the blocks, one after the other. -/
def stores (as : List Access) (v : Nat → Block) : Nat → Block := as.foldl (fun v a => a.store v) v

/-- The blocks they log. -/
def loggedBy (as : List Access) (l : List Nat) : List Nat := as.foldl (fun l a => a.logged l) l

/-- Every `log_write` of the list passes its size check. -/
def roomFor (size : Nat) : List Access → List Nat → Bool
  | [], _ => true
  | a :: as, l => a.fits size l && roomFor size as (a.logged l)

/-- A transaction the log can take: none of its blocks is inside the log, every block number is a C
    `int`, and no `log_write` finds the log full. -/
structure Txn (start size : Nat) where
  acts : List Access
  home : ∀ a ∈ acts, ¬ (logLayout start size).InLog a.block
  small : ∀ a ∈ acts, a.block < 4294967296
  room : roomFor size acts [] = true

/-! ## The accesses -/

/-- `s'` is `s` with cached contents `v` and the blocks `l` logged and pinned; nothing has reached
    the disk. -/
structure Ran (s : Mach) (v : Nat → Block) (l : List Nat) (s' : Mach) : Prop where
  me : s'.me = s.me
  disk : s'.disk = s.disk
  writes : s'.writes = s.writes
  pbn : s'.forceReadErrorPbn = s.forceReadErrorPbn
  fail : s'.forceDiskFailId = s.forceDiskFailId
  log : s'.log = { s.log with lh := l }
  view : s'.view = v
  pinned : s'.Pinned 1 l Mach.None_ []

variable {s s' : Mach} {start size : Nat}

theorem Ran.hooksOff (h : Ran s v l s') (hoff : s.HooksOff) :
    s'.HooksOff := ⟨h.pbn.trans hoff.1, h.fail.trans hoff.2⟩

theorem Ran.trans {s1 s2 s3 : Mach} {v' : Nat → Block} {l' : List Nat} (h : Ran s1 v l s2)
    (h' : Ran s2 v' l' s3) : Ran s1 v' l' s3 :=
  ⟨h'.me.trans h.me, h'.disk.trans h.disk, h'.writes.trans h.writes, h'.pbn.trans h.pbn,
    h'.fail.trans h.fail, by rw [h'.log, h.log], h'.view, h'.pinned⟩

theorem logWrite_absorb (hsize : s.log.lh.length + 1 < s.log.size)
    (hmax : s.log.lh.length < LOGSIZE) (hout : 1 ≤ s.log.outstanding)
    (hmem : (s.buf i).blockno ∈ s.log.lh) : s.logWrite i = .ok s := by
  rw [logWrite, if_neg (by omega), if_neg (by omega), record, if_pos hmem]

theorem logWrite_new (hsize : s.log.lh.length + 1 < s.log.size)
    (hmax : s.log.lh.length < LOGSIZE) (hout : 1 ≤ s.log.outstanding)
    (hmem : (s.buf i).blockno ∉ s.log.lh) :
    s.logWrite i = .ok ((s.bpin i).setLh (s.log.lh ++ [(s.buf i).blockno])) := by
  rw [logWrite, if_neg (by omega), if_neg (by omega), record, if_neg hmem]

theorem access_read (hP : s.Pinned 1 s.log.lh Mach.None_ []) (hoff : s.HooksOff)
    (hlen : s.log.lh.length < NBUF) :
    ∃ s', (Access.read b).run s = .ok s' ∧ Ran s s.view s.log.lh s' := by
  obtain ⟨i, s1, hb, hF, hP1⟩ := hP.bread (b := b) (by simp) (.inr (by simpa using hlen)) (by simp)
  have hi : i ∈ [i] := mem_singleton_self i
  have hw := (hF.wrote hP (hoff.calm _)).trans (drop_wrote s1 i)
  have hP2 := hP1.drop hi fun hn _ => by
    rw [hF.blockno] at hn ⊢
    rw [hF.data hP.inv (hF.forced hP (hoff.calm _) id), hP.view_disk (by simp) hn id, hF.frame.disk]
  refine ⟨s1.drop i, ?_, hw.me, hw.disk, by simpa using hw.writes, hw.pbn, hw.fail, hw.log, hw.view_eq,
    by simpa using hP2⟩
  simp only [Access.run, hb, bind, Except.bind]
  exact brelse_ok hP1.inv hi

/-- Modify, log, release: the block is in the list afterwards, pinned once. -/
theorem access_write {f : Block → Block} (hP : s.Pinned 1 s.log.lh Mach.None_ [])
    (hoff : s.HooksOff) (hout : 1 ≤ s.log.outstanding) (hsize : s.log.size ≤ LOGSIZE)
    (hroom : s.log.lh.length + 1 < s.log.size) :
    ∃ s', (Access.write b f).run s = .ok s' ∧
      Ran s ((Access.write b f).store s.view) ((Access.write b f).logged s.log.lh) s' := by
  have hlen : s.log.lh.length < NBUF := lt_of_lt_of_le (Nat.lt_of_succ_lt hroom) hsize
  obtain ⟨i, s1, hb, hF, hP1⟩ := hP.bread (b := b) (by simp) (.inr (by simpa using hlen)) (by simp)
  have hi : i ∈ [i] := mem_singleton_self i
  have hw1 := hF.wrote hP (hoff.calm _)
  have hdata : (s1.buf i).data = s.view b := hF.data hP.inv (hF.forced hP (hoff.calm _) id)
  -- the state after the store into the buffer
  obtain ⟨s2, hs2⟩ : ∃ s2, s2 = s1.setData i (f (s.view b)) := ⟨_, rfl⟩
  have hP2 : s2.Pinned 1 s.log.lh Mach.None_ [i] := hs2 ▸ hP1.setData hi _
  have hlog2 : s2.log = s.log := by rw [hs2]; exact hw1.log
  have hbno : (s2.buf i).blockno = b := by
    rw [hs2, setData_blockno, hF.blockno]
  have hview2 : s2.view = update s.view b (f (s.view b)) := by
    funext c
    rw [hs2, view_setData hP1.inv hi, hF.blockno, hw1.view_eq, update_apply]
    rfl
  have hframe : s2.me = s.me ∧ s2.disk = s.disk ∧ s2.writes = s.writes ∧
      s2.forceReadErrorPbn = s.forceReadErrorPbn ∧ s2.forceDiskFailId = s.forceDiskFailId := by
    rw [hs2]
    exact ⟨hw1.me, hw1.disk, hw1.writes.trans (append_nil _), hw1.pbn, hw1.fail⟩
  have hbody : (Access.write b f).run s = (do let s ← s2.logWrite i; s.brelse i) := by
    simp only [Access.run, hb, bind, Except.bind, hdata, ← hs2]
  have hmax : s2.log.lh.length < LOGSIZE := by rw [hlog2]; exact hlen
  rw [hbody]
  obtain ⟨hme, hdisk, hwrites, hpbn, hfail⟩ := hframe
  by_cases hmem : b ∈ s.log.lh
  · have hP3 := hP2.drop hi fun hn => absurd (by rwa [hbno]) hn
    rw [logWrite_absorb (by rwa [hlog2]) hmax (by rwa [hlog2]) (by rwa [hbno, hlog2])]
    refine ⟨s2.drop i, brelse_ok hP2.inv hi, hme, hdisk, hwrites, hpbn, hfail, ?_, ?_, ?_⟩
    · rw [Access.logged, addBlock, if_pos hmem]; exact hlog2
    · rw [view_drop]; exact hview2
    · rw [Access.logged, addBlock, if_pos hmem]; simpa using hP3
  · have hpin := (hP2.bpin hi (by rwa [hbno])).setLh (s.log.lh ++ [b])
    rw [hbno] at hpin
    have hP3 := hpin.drop hi fun hn => absurd (by
      change ((s2.bpin i).buf i).blockno ∈ _
      rw [bpin_blockno, hbno]
      simp) hn
    rw [logWrite_new (by rwa [hlog2]) hmax (by rwa [hlog2]) (by rwa [hbno, hlog2]), hbno, hlog2]
    refine ⟨_, brelse_ok hpin.inv hi, hme, hdisk, hwrites, hpbn, hfail, ?_, ?_, ?_⟩
    · rw [Access.logged, addBlock, if_neg hmem, ← hlog2]; rfl
    · rw [view_drop]
      exact (view_bpin s2 i).trans hview2
    · rw [Access.logged, addBlock, if_neg hmem]; simpa using hP3

theorem access_run (hP : s.Pinned 1 s.log.lh Mach.None_ []) (hoff : s.HooksOff)
    (hout : 1 ≤ s.log.outstanding) (hsize : s.log.size ≤ LOGSIZE) (hlen : s.log.lh.length < NBUF)
    (hfits : a.fits s.log.size s.log.lh = true) :
    ∃ s', a.run s = .ok s' ∧ Ran s (a.store s.view) (a.logged s.log.lh) s' := by
  cases a with
  | read b => exact access_read hP hoff hlen
  | write b f => exact access_write hP hoff hout hsize (by simpa [Access.fits] using hfits)

/-- A logged list keeps within the log and within the buffers. -/
theorem logged_length (hsize : size ≤ LOGSIZE) (hlen : l.length < NBUF)
    (hfits : a.fits size l = true) : (a.logged l).length < NBUF := by
  cases a with
  | read b => exact hlen
  | write b f =>
    have hroom : l.length + 1 < size := by simpa [Access.fits] using hfits
    rw [Access.logged, addBlock]
    split
    · exact hlen
    · rw [length_append, length_singleton]
      exact lt_of_lt_of_le hroom hsize

theorem runAll_run (as : List Access) (hP : s.Pinned 1 s.log.lh Mach.None_ []) (hoff : s.HooksOff)
    (hout : 1 ≤ s.log.outstanding) (hsize : s.log.size ≤ LOGSIZE) (hlen : s.log.lh.length < NBUF)
    (hroom : roomFor s.log.size as s.log.lh = true) :
    ∃ s', runAll as s = .ok s' ∧ Ran s (stores as s.view) (loggedBy as s.log.lh) s' := by
  induction as generalizing s with
  | nil => exact ⟨s, rfl, rfl, rfl, rfl, rfl, rfl, rfl, rfl, hP⟩
  | cons a as ih =>
    obtain ⟨hfits, hroom⟩ := (Bool.and_eq_true_iff ..).mp hroom
    obtain ⟨s1, h1, hR⟩ := access_run hP hoff hout hsize hlen hfits
    have hlen1 := logged_length hsize hlen hfits
    have hlh : s1.log.lh = a.logged s.log.lh := by rw [hR.log]
    obtain ⟨s', h', hR'⟩ := @ih s1 (by rw [hlh]; exact hR.pinned) (hR.hooksOff hoff)
      (by rw [hR.log]; exact hout) (by rw [hR.log]; exact hsize) (by rw [hlh]; exact hlen1)
      (by rw [hR.log]; exact hroom)
    refine ⟨s', by simp only [runAll, h1, bind, Except.bind, h'], ?_⟩
    rw [hR.view, hlh] at hR'
    exact hR.trans hR'

/-! ## What a transaction logs -/

theorem Access.logged_nodup (h : l.Nodup) : (a.logged l).Nodup := by
  cases a with
  | read b => exact h
  | write b f => exact addBlock_nodup h

theorem Access.mem_logged (h : c ∈ a.logged l) : c ∈ l ∨ c = a.block := by
  cases a with
  | read b => exact .inl h
  | write b f => exact mem_addBlock.mp h

theorem Access.subset_logged (h : c ∈ l) : c ∈ a.logged l := by
  cases a with
  | read b => exact h
  | write b f => exact mem_addBlock.mpr (.inl h)

/-- Only logged blocks change. -/
theorem Access.store_notMem (h : c ∉ a.logged l) : a.store v c = v c := by
  cases a with
  | read b => rfl
  | write b f =>
    exact update_of_ne (fun hc => h (mem_addBlock.mpr (.inr hc))) ..

theorem mem_loggedBy (h : c ∈ loggedBy as l) : c ∈ l ∨ ∃ a ∈ as, c = a.block := by
  induction as generalizing l with
  | nil => exact .inl h
  | cons a as ih =>
    rcases ih h with h | ⟨a', ha', hc⟩
    · exact (Access.mem_logged h).imp_right fun hc => ⟨a, mem_cons_self .., hc⟩
    · exact .inr ⟨a', mem_cons_of_mem _ ha', hc⟩

theorem subset_loggedBy (as : List Access) (h : c ∈ l) : c ∈ loggedBy as l := by
  induction as generalizing l with
  | nil => exact h
  | cons a as ih => exact ih (Access.subset_logged h)

theorem loggedBy_nodup (h : l.Nodup) : (loggedBy as l).Nodup := by
  induction as generalizing l with
  | nil => exact h
  | cons a as ih => exact ih (Access.logged_nodup h)

theorem stores_notMem (h : c ∉ loggedBy as l) : stores as v c = v c := by
  induction as generalizing l v with
  | nil => rfl
  | cons a as ih =>
    exact (ih h).trans (Access.store_notMem fun hc => h (subset_loggedBy as hc))

theorem loggedBy_length (hlen : l.length ≤ size - 1)
    (hroom : roomFor size as l = true) : (loggedBy as l).length ≤ size - 1 := by
  induction as generalizing l with
  | nil => exact hlen
  | cons a as ih =>
    obtain ⟨hfits, hroom⟩ := (Bool.and_eq_true_iff ..).mp hroom
    refine ih ?_ hroom
    cases a with
    | read b => exact hlen
    | write b f =>
      have hlt : l.length + 1 < size := by simpa [Access.fits] using hfits
      change (addBlock l b).length ≤ size - 1
      rw [addBlock]
      split
      · exact hlen
      · rw [length_append, length_singleton]; omega

/-- Every transaction logs a list that the redo log takes. -/
theorem Txn.ok (t : Txn start size) (hsize : size ≤ LOGSIZE) :
    (logLayout start size).Ok (loggedBy t.acts []) := by
  have hmem : ∀ c ∈ loggedBy t.acts [], ∃ a ∈ t.acts, c = a.block := fun c hc =>
    (mem_loggedBy hc).resolve_left not_mem_nil
  have hlen := loggedBy_length (Nat.zero_le _) t.room
  refine ⟨⟨hlen, ?_, fun c hc => ?_, loggedBy_nodup nodup_nil⟩, fun c hc => ?_⟩
  · have : 0 < LOGSIZE := by decide
    omega
  · obtain ⟨a, ha, rfl⟩ := hmem c hc; exact t.small a ha
  · obtain ⟨a, ha, rfl⟩ := hmem c hc; exact t.home a ha

/-- The meaning of a transaction looks at home blocks only. -/
theorem Txn.stores_congr (t : Txn start size) (h : (logLayout start size).SameHome d d') :
    (logLayout start size).SameHome (stores t.acts d) (stores t.acts d') := by
  have key : ∀ as : List Access, (∀ a ∈ as, ¬ (logLayout start size).InLog a.block) →
      ∀ {d d' : Nat → Block}, (logLayout start size).SameHome d d' →
        (logLayout start size).SameHome (stores as d) (stores as d') := by
    intro as has
    induction as with
    | nil => exact fun h => h
    | cons a as ih =>
      intro d d' h
      refine ih (fun a' ha' => has a' (mem_cons_of_mem _ ha')) fun c hc => ?_
      cases a with
      | read b => exact h c hc
      | write b f =>
        simp only [Access.store, update_apply]
        rw [h b (has _ (mem_cons_self ..)), h c hc]
  exact key t.acts t.home h

/-! ## Whole transactions -/

/-- Between transactions: nothing logged, nothing pinned, no operation open. -/
structure Quiet (start size : Nat) (s : Mach) : Prop where
  pinned : s.Pinned 1 [] Mach.None_ []
  off : s.HooksOff
  log : s.log = ⟨start, size, 0, false, []⟩

theorem Quiet.view (h : Quiet start size s) : s.view = s.disk :=
  funext fun _ => h.pinned.view_disk (by simp) not_mem_nil id

/-- The writes of the transaction `t` on the disk `d`. -/
def Txn.writes (t : Txn start size) (d : Nat → Block) : List (Nat × Block) :=
  (logLayout start size).commitWrites (d start) (loggedBy t.acts []) (stores t.acts d)

/-- A transaction that the log can take completes, and writes one commit. -/
theorem txn_run (hQ : Quiet start size s) (hsize : size ≤ LOGSIZE) (t : Txn start size) :
    ∃ s', runTxn t.acts s = .ok s' ∧ Quiet start size s' ∧
      s'.writes = s.writes ++ t.writes s.disk ∧ s'.disk = apply s.disk (t.writes s.disk) := by
  -- begin_op: with nothing logged and nobody inside, one more operation is always admitted
  obtain ⟨s1, hs1⟩ : ∃ s1 : Mach, s1 = { s with log := ⟨start, size, 1, false, []⟩ } := ⟨_, rfl⟩
  have hbegin : s.beginOp = .ok s1 := by
    rw [beginOp, hQ.log, hs1]; rfl
  have hlog1 : s1.log = ⟨start, size, 1, false, []⟩ := by rw [hs1]
  have hview1 : s1.view = s.disk := by rw [hs1]; exact hQ.view
  have hoff1 : s1.HooksOff := by rw [hs1]; exact hQ.off
  have hP1 : s1.Pinned 1 s1.log.lh Mach.None_ [] := by
    rw [hlog1, hs1]; exact hQ.pinned.withLog _
  obtain ⟨s2, hrun, hR⟩ := runAll_run t.acts hP1 hoff1 (by rw [hlog1])
    (by rw [hlog1]; exact hsize) (by rw [hlog1]; exact Nat.zero_lt_succ _)
    (by rw [hlog1]; exact t.room)
  rw [hlog1, hview1] at hR
  -- end_op: the last one out commits
  have hlog2 : s2.log = ⟨start, size, 1, false, loggedBy t.acts []⟩ := by rw [hR.log, hlog1]
  obtain ⟨s3, hs3⟩ : ∃ s3 : Mach,
      s3 = { s2 with log := ⟨start, size, 0, true, loggedBy t.acts []⟩ } := ⟨_, rfl⟩
  have hlog3 : s3.log = ⟨start, size, 0, true, loggedBy t.acts []⟩ := by rw [hs3]
  have hend : s2.endOp = (do
      let s ← s3.commit
      pure { s with log := { s.log with committing := false } }) := by
    rw [endOp, hlog2, hs3]; rfl
  have hP3 : s3.Pinned 1 s3.log.lh Mach.None_ [] := by
    rw [hlog3, hs3]; exact hR.pinned.withLog _
  have hoff3 : s3.HooksOff := by rw [hs3]; exact hR.hooksOff hoff1
  have hview3 : s3.view = stores t.acts s.disk := by rw [← hR.view, hs3]; rfl
  have hok := t.ok hsize
  obtain ⟨s4, hcommit, hw, hP4⟩ := commit_run hP3 (hoff3.calm _) (by rwa [layout, hlog3])
  have hhdr : stores t.acts s.disk start = s.disk start :=
    stores_notMem fun h => RedoLog.Layout.not_inLog_start (hok.2 _ h) rfl
  have hW : s3.layout.commitWrites (s3.view s3.log.start) s3.log.lh s3.view = t.writes s.disk := by
    rw [layout, hlog3, hview3, hhdr]; rfl
  have hdisk3 : (s3.setLh []).disk = s.disk := by
    change s3.disk = _
    rw [hs3]; exact hR.disk.trans (by rw [hs1])
  have hwrites3 : (s3.setLh []).writes = s.writes := by
    change s3.writes = _
    rw [hs3]; exact hR.writes.trans (by rw [hs1])
  rw [hW] at hw
  have hlog4 : s4.log = ⟨start, size, 0, true, []⟩ := by
    rw [hw.log]; simp only [setLh, hlog3]
  refine ⟨{ s4 with log := ⟨start, size, 0, false, []⟩ }, ?_,
    ⟨hP4.withLog _, hw.hooksOff hoff3, rfl⟩, hw.writes.trans (by rw [hwrites3]),
    hw.disk.trans (by rw [hdisk3])⟩
  simp only [runTxn, hbegin, hrun, hend, hcommit, hlog4, bind, Except.bind, pure, Except.pure]

/-- The commits a sequence of transactions amounts to. -/
def plan : (Nat → Block) → List (Txn start size) → List (List Nat × (Nat → Block))
  | _, [] => []
  | d, t :: ts => (loggedBy t.acts [], stores t.acts d) :: plan (RedoLog.apply d (t.writes d)) ts

theorem txns_run (hQ : Quiet start size s) (hsize : size ≤ LOGSIZE) (ts : List (Txn start size)) :
    ∃ s', runTxns (ts.map Txn.acts) s = .ok s' ∧
      s'.writes = s.writes ++ (logLayout start size).commits s.disk (plan s.disk ts) := by
  induction ts generalizing s with
  | nil => exact ⟨s, rfl, (append_nil _).symm⟩
  | cons t ts ih =>
    obtain ⟨s1, h1, hQ1, hw, hd⟩ := txn_run hQ hsize t
    obtain ⟨s', h', hw'⟩ := ih hQ1
    refine ⟨s', by simp only [map_cons, runTxns, h1, bind, Except.bind, h'], ?_⟩
    rw [hw', hw, hd, append_assoc]
    rfl

/-- What the transactions mean, in terms of the code: each rewrites the blocks left by the ones
    before it.  (A transaction that logs nothing changes nothing.) -/
theorem after_plan (hsize : size ≤ LOGSIZE) (ts : List (Txn start size)) :
    ∀ (d d' : Nat → Block), (logLayout start size).SameHome d d' →
      (logLayout start size).dec (d' start) = [] → ∀ m : Nat,
      (logLayout start size).SameHome (RedoLog.after d (((plan d' ts).filter fun t => !t.1.isEmpty).take m))
        (((ts.filter fun t => !(loggedBy t.acts []).isEmpty).take m).foldl
          (fun d t => stores t.acts d) d) := by
  induction ts with
  | nil => intro d d' _ _ m b _; simp [plan, RedoLog.after]
  | cons t ts ih =>
    intro d d' hsame hdec m
    have hok := t.ok hsize
    obtain ⟨hdec', hdone⟩ := RedoLog.Layout.commit_done (v := stores t.acts d') hdec hok
    -- committing the logged blocks is running the transaction
    have hover : (logLayout start size).SameHome
        (overlay d (loggedBy t.acts []) (stores t.acts d')) (stores t.acts d) := by
      intro b hb
      unfold overlay
      split
      · exact (t.stores_congr hsame b hb).symm
      · next hn => exact (stores_notMem hn).symm
    have hnext : (logLayout start size).SameHome (overlay d (loggedBy t.acts [])
        (stores t.acts d')) (apply d' (t.writes d')) := fun b hb => by
      refine Eq.trans ?_ (hdone b hb).symm
      unfold overlay
      rw [hsame b hb]
    rw [plan]
    by_cases hne : (loggedBy t.acts []).isEmpty = true
    · rw [filter_cons_of_neg (by simpa using hne), filter_cons_of_neg (by simpa using hne)]
      refine ih d _ (fun b hb => Eq.trans ?_ (hnext b hb)) hdec' m
      rw [overlay, if_neg (by rw [isEmpty_iff.mp hne]; exact not_mem_nil)]
    · rw [filter_cons_of_pos (by simpa using hne), filter_cons_of_pos (by simpa using hne)]
      cases m with
      | zero => exact fun _ _ => rfl
      | succ m =>
        rw [take_succ_cons, take_succ_cons, foldl_cons]
        exact (RedoLog.Layout.after_congr hover _).trans
          (ih _ _ (fun b hb => (hover b hb).symm.trans (hnext b hb)) hdec' m)

/-! ## Boots and crashes -/

/-- A cache fresh from `binit` satisfies the invariant: no buffer is on the root device yet. -/
theorem boot_pinned (me : Nat) (d : Nat → Block) (lg : Log) :
    ({ bootMach me d with log := lg } : Mach).Pinned 1 [] Mach.None_ [] := by
  have hdev : ∀ i, (binit.buf i).dev ≠ ROOTDEV := fun _ => Nat.zero_ne_one
  refine ⟨by decide, by decide, ⟨reverse_perm _, fun i j _ _ h => absurd h (hdev i), ?_, ?_,
    nodup_nil, by simp, ?_, fun i _ _ _ h => absurd h (hdev i)⟩, by simp⟩
  · intro i _; simp [pinsOf]; rfl
  · intro i _; simp; rfl
  · intro i _ h; simp [pinsOf] at h

/-- `initlog` on a disk whose header fits: it completes and leaves the redo log's recovery. -/
theorem initlog_run (me : Nat) (hgood : (logLayout start size).Good d) :
    ∃ s, initlog (bootMach me d) start size = .ok s ∧ s.writes = (logLayout start size).recoverWrites d ∧
      s.disk = apply d ((logLayout start size).recoverWrites d) ∧
      s.HooksOff ∧ s.log = ⟨start, size, 0, false, []⟩ ∧
      ∃ done, done.length = ((logLayout start size).dec (d start)).length ∧
        s.Pinned 4294967295 done Mach.None_ [] := by
  obtain ⟨s, hrun, hw, done, hlen, hP⟩ :=
    recover_run (boot_pinned me d ⟨start, size, 0, false, []⟩) ⟨rfl, rfl⟩ hgood
  exact ⟨s, hrun, hw.writes, hw.disk, ⟨hw.pbn, hw.fail⟩, hw.log, done, hlen, hP⟩

/-- Every boot that completes leaves the log empty, whatever it found on the disk. -/
theorem initlog_log {me : Nat}
    (h : initlog (bootMach me d) start size = .ok s) : s.log = ⟨start, size, 0, false, []⟩ :=
  recoverFromLog_log h

/-- The disk after any number of boots on `d`, each cut off while it recovers. -/
inductive Crashed (start size : Nat) : (Nat → Block) → (Nat → Block) → Prop
  | none (d : Nat → Block) : Crashed start size d d
  | again {d d' : Nat → Block} {s : Mach} (me k : Nat)
      (h : initlog (bootMach me d) start size = .ok s) :
      Crashed start size (RedoLog.apply d (s.writes.take k)) d' → Crashed start size d d'

theorem Crashed.crashes (h : Crashed start size d d')
    (hgood : (logLayout start size).Good d) : (logLayout start size).Crashes d d' := by
  induction h with
  | none d => exact .none d
  | again me k hs _ ih =>
    obtain ⟨s', hs', hw, -⟩ := initlog_run me hgood
    obtain rfl := Except.ok.inj (hs.symm.trans hs')
    rw [hw] at ih
    exact .again _ k (ih (RedoLog.Layout.recover_prefix hgood k).1)

/-- `d` after the transactions `ts`, without cache, log or crash. -/
def afterTxns (d : Nat → Block) (ts : List (Txn start size)) : Nat → Block :=
  ts.foldl (fun d t => stores t.acts d) d

/-- The transactions that log something, in order: each has one committing header write. -/
def committers (ts : List (Txn start size)) : List (Txn start size) :=
  ts.filter fun t => !(loggedBy t.acts []).isEmpty

/-- How many committing header writes (those that name a block) are among `ws`. -/
def commitCount (start size : Nat) (ws : List (Nat × Block)) : Nat :=
  ws.countP (logLayout start size).IsCommit

/-- With nothing to replay, nothing is left stuck: the machine is ready for transactions. -/
theorem boot_quiet (start size me : Nat) (hempty : readHdr (d start) = some []) :
    ∃ s, initlog (bootMach me d) start size = .ok s ∧ Quiet start size s ∧
      s.writes = [(start, writeHdr (d start) [])] ∧
      s.disk = update d start (writeHdr (d start) []) := by
  let L := logLayout start size
  have hdec : L.dec (d start) = [] := by
    change (readHdr (d start)).getD _ = []
    rw [hempty]; rfl
  have hgood : L.Good d := by
    change L.Ok (L.dec (d start))
    rw [hdec]
    exact ⟨L.fits_nil, fun b hb => absurd hb not_mem_nil⟩
  have hrec : L.recoverWrites d = [(start, writeHdr (d start) [])] := by
    change L.installs d 0 (L.dec (d start)) ++ _ = _
    rw [hdec]; rfl
  obtain ⟨s, hboot, hw, hd, hoff, hlog, done, hlen, hP⟩ := initlog_run me hgood
  rw [hdec] at hlen
  rw [length_eq_zero_iff.mp hlen] at hP
  refine ⟨s, hboot, ⟨hP.nil (by decide) (by decide), hoff, hlog⟩, hw.trans hrec, ?_⟩
  rw [hd, hrec, apply_cons, apply_nil]

theorem plan_ok (hsize : size ≤ LOGSIZE) (ts : List (Txn start size)) (d : Nat → Block) :
    ∀ p ∈ plan d ts, (logLayout start size).Ok p.1 := by
  induction ts generalizing d with
  | nil => exact fun p hp => absurd hp not_mem_nil
  | cons t ts ih =>
    intro p hp
    rcases mem_cons.mp hp with rfl | hp
    · exact t.ok hsize
    · exact ih _ p hp

/-- Boot on a disk with an empty log, run transactions, cut the writes anywhere: the disk means what
    the transactions committed so far mean. -/
theorem crash_meaning (me : Nat) {d0 : Nat → Block} (hsize : size ≤ LOGSIZE)
    (hempty : readHdr (d0 start) = some []) (ts : List (Txn start size)) :
    ∃ s0 s, initlog (bootMach me d0) start size = .ok s0 ∧ runTxns (ts.map Txn.acts) s0 = .ok s ∧
      ∀ k, (logLayout start size).Good (apply d0 (s.writes.take k)) ∧ (logLayout start size).SameHome
          ((logLayout start size).replay (apply d0 (s.writes.take k)))
          (afterTxns d0 ((committers ts).take (commitCount start size (s.writes.take k)))) := by
  obtain ⟨s0, hboot, hQ, hw0, hd0⟩ := boot_quiet start size me hempty
  obtain ⟨s, hrun, hw⟩ := txns_run hQ hsize ts
  refine ⟨s0, s, hboot, hrun, fun k => ?_⟩
  rw [hw, hw0, singleton_append]
  let L := logLayout start size
  cases k with
  | zero =>
    -- not even the boot's own header write
    have hdec : L.dec (d0 start) = [] := by
      change (readHdr (d0 start)).getD _ = []
      rw [hempty]; rfl
    refine ⟨?_, fun b _ => ?_⟩
    · change L.Ok (L.dec (d0 start))
      rw [hdec]
      exact ⟨L.fits_nil, fun b hb => absurd hb not_mem_nil⟩
    · rw [take_zero, apply_nil, RedoLog.Layout.replay_of_dec_nil hdec]
      simp [commitCount, afterTxns]
  | succ k =>
    have hdec0 : L.dec (s0.disk start) = [] := by
      rw [hd0, update_self]; exact L.dec_enc _ L.fits_nil
    have hhome : L.SameHome s0.disk d0 := fun b hb => by
      rw [hd0]
      exact update_of_ne (RedoLog.Layout.not_inLog_start hb) ..
    have hnot : L.IsCommit (start, writeHdr (d0 start) []) ≠ true := by
      have : L.dec (writeHdr (d0 start) []) = [] := L.dec_enc _ L.fits_nil
      simp [RedoLog.Layout.IsCommit, this]
    obtain ⟨hg, hsame⟩ := RedoLog.Layout.crash_commits (plan s0.disk ts) s0.disk hdec0
      (plan_ok hsize ts _) k
    rw [take_succ_cons, apply_cons, ← hd0, commitCount, countP_cons_of_neg hnot]
    refine ⟨hg, RedoLog.Layout.SameHome.trans hsame ?_⟩
    refine RedoLog.Layout.SameHome.trans (RedoLog.Layout.after_congr hhome _) ?_
    exact after_plan hsize ts d0 s0.disk (fun b hb => (hhome b hb).symm) hdec0 _

/-- **Crash atomicity.**  A machine boots on a disk `d0` whose log is empty and runs transactions
    `ts`; the power fails after `k` of its block writes, and again during any number of recoveries.
    The next recovery completes: it leaves the header count 0, and every block outside the log is as
    after exactly the transactions whose committing header write is among the first `k`. -/
theorem crash_atomic (me : Nat) {d0 : Nat → Block} (hsize : size ≤ LOGSIZE)
    (hempty : readHdr (d0 start) = some []) (ts : List (Txn start size)) :
    ∃ s0 s, initlog (bootMach me d0) start size = .ok s0 ∧ runTxns (ts.map Txn.acts) s0 = .ok s ∧
      ∀ k d, Crashed start size (RedoLog.apply d0 (s.writes.take k)) d → ∀ me',
        ∃ s', initlog (bootMach me' d) start size = .ok s' ∧ le32 (s'.disk start) 0 = 0 ∧
          ∀ b, ¬ (logLayout start size).InLog b → s'.disk b =
            afterTxns d0 ((committers ts).take (commitCount start size (s.writes.take k))) b := by
  obtain ⟨s0, s, hboot, hrun, hmean⟩ := crash_meaning me hsize hempty ts
  refine ⟨s0, s, hboot, hrun, fun k d hd me' => ?_⟩
  obtain ⟨hgood, hsame⟩ := hmean k
  obtain ⟨hgood', hkeep⟩ := RedoLog.Layout.crashes_replay (hd.crashes hgood) hgood
  obtain ⟨s', hboot', -, hdisk, -⟩ := initlog_run me' hgood'
  refine ⟨s', hboot', ?_, fun b hb => ?_⟩
  · have hhdr : s'.disk start = writeHdr (d start) [] := by
      rw [hdisk, RedoLog.Layout.recoverWrites, apply_append, apply_cons, apply_nil]
      exact update_self ..
    rw [hhdr]
    exact le32_put32 ..
  · rw [hdisk, RedoLog.Layout.recover_done d b hb, hkeep b hb, hsame b hb]

theorem crash_atomic_two_blocks : let d0 : Nat → Block := fun _ _ => 0
    let t : Txn 2 LOGSIZE := ⟨[.write 100 (fun _ _ => 1), .read 45, .write 101 (fun d => put32 d 8 5)],
      by decide, by decide, by decide⟩
    LOGSIZE ≤ LOGSIZE ∧ readHdr (d0 2) = some [] ∧ ∃ s0 s,
      initlog (bootMach 1 d0) 2 LOGSIZE = .ok s0 ∧ runTxns [t.acts, t.acts] s0 = .ok s ∧
      ∀ k d, Crashed 2 LOGSIZE (RedoLog.apply d0 (s.writes.take k)) d → ∀ me',
        ∃ s', initlog (bootMach me' d) 2 LOGSIZE = .ok s' ∧ le32 (s'.disk 2) 0 = 0 ∧
          ∀ b, ¬ (logLayout 2 LOGSIZE).InLog b → s'.disk b =
            afterTxns d0 ((committers [t, t]).take (commitCount 2 LOGSIZE (s.writes.take k))) b := by
  intro d0 t
  have hempty : readHdr (d0 2) = some [] := by decide
  exact ⟨le_rfl, hempty, crash_atomic 1 le_rfl hempty [t, t]⟩

/-! ## A machine that replayed a log -/

/-- A disk that crashed right after a commit: the log names block 100 and holds it, all sevens. -/
def replayDisk : Nat → Block := fun b =>
  if b = 2 then writeHdr (fun _ => 0) [100] else if b = 3 then fun _ => 7 else fun _ => 0

/-- Fill block 100 with nines, then read thirty other blocks. -/
def overwriteThenRead : Txn 2 LOGSIZE where
  acts := .write 100 (fun _ _ => 9) :: (List.range 30).map fun i => .read (200 + i)
  home a ha := by
    rcases List.mem_cons.mp ha with rfl | ha
    · decide
    · obtain ⟨i, -, rfl⟩ := List.mem_map.mp ha
      rintro ⟨-, h⟩
      change 200 + i ≤ 31 at h
      omega
  small a ha := by
    rcases List.mem_cons.mp ha with rfl | ha
    · decide
    · obtain ⟨i, hi, rfl⟩ := List.mem_map.mp ha
      have := List.mem_range.mp hi
      change 200 + i < _
      omega
  room := by decide

/-- Boot on `replayDisk`, run the transaction to its end, boot again: the commits of the second
    machine life, block 100 as recovered, and as the transaction left it. -/
def replayRun : Except Err (Nat × UInt8 × UInt8) := do
  let s0 ← initlog (bootMach 1 replayDisk) 2 LOGSIZE
  let s ← runTxns [overwriteThenRead.acts] s0
  let s' ← initlog (bootMach 1 s.disk) 2 LOGSIZE
  pure (commitCount 2 LOGSIZE (s.writes.drop s0.writes.length), s'.disk 100 0,
    afterTxns s0.disk [overwriteThenRead] 100 0)

theorem replayRun_eq : replayRun.toOption = some (1, 7, 9) := by decide +kernel

theorem replayDisk_good : (logLayout 2 LOGSIZE).Good replayDisk := by
  have hdec : (logLayout 2 LOGSIZE).dec (replayDisk 2) = [100] := by
    change (readHdr (writeHdr (fun _ => 0) [100])).getD (replicate LOGSIZE 0) = [100]
    rw [readHdr_writeHdr _ (by decide) (by decide)]; rfl
  change (logLayout 2 LOGSIZE).Ok ((logLayout 2 LOGSIZE).dec (replayDisk 2))
  rw [hdec]
  exact ⟨⟨by decide, by decide, by decide, by decide⟩, by decide⟩

/-- After a boot that replays a log, a committed update can be lost: the replayed block's buffer
    counts `2 ^ 32 - 1` references, so with `bread` and `log_write`'s pin it is back at 0 when the
    transaction releases it, and the reads recycle it before `commit` copies it to the log. -/
theorem replayed_boot_loses_update : ∃ (d0 : Nat → Block) (t : Txn 2 LOGSIZE) (s0 s s' : Mach),
      (logLayout 2 LOGSIZE).Good d0 ∧ initlog (bootMach 1 d0) 2 LOGSIZE = .ok s0 ∧
      runTxns [t.acts] s0 = .ok s ∧
      commitCount 2 LOGSIZE (s.writes.drop s0.writes.length) = 1 ∧
      initlog (bootMach 1 s.disk) 2 LOGSIZE = .ok s' ∧
      s'.disk 100 ≠ afterTxns s0.disk [t] 100 := by
  have hrun : replayRun = .ok (1, 7, 9) := toOption_eq_some replayRun_eq
  obtain ⟨s0, h0, hrun⟩ := bind_ok hrun
  obtain ⟨s, h1, hrun⟩ := bind_ok hrun
  obtain ⟨s', h2, hrun⟩ := bind_ok hrun
  obtain ⟨hcount, hrun⟩ := Prod.mk.inj (Except.ok.inj hrun)
  obtain ⟨hlost, hwant⟩ := Prod.mk.inj hrun
  refine ⟨replayDisk, overwriteThenRead, s0, s, s', replayDisk_good, h0, h1, hcount, h2, fun h => ?_⟩
  rw [h, hwant] at hlost
  exact absurd hlost (by decide)

end Xv6
