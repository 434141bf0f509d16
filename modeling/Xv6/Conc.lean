/-
  MANY PROCESSES on one buffer cache and one log (`kernel/bio.c`, `kernel/log.c`).

  The sequential machine of `Xv6.Bio` is the shared memory; every process has its own code to run.
  A step of the system is a step of ONE process, and the steps are cut where the C code lets others
  in: each critical section under `bcache.lock` or `log.lock` is one step, waiting for a sleep lock
  is a step that is not there yet, and the check at the head of `log_write`, which takes no lock, is
  a step of its own.

  A process between two calls may make any call it likes (`Call`); a call is a list of `Act`s, run
  one by one.  The last `end_op` of a transaction runs `commit`, whose loops re-read `log.lh` each
  time round.  Three fields are ghosts that no step reads: `ops`, the blocks each open operation has
  logged; `since`, the blocks handed to `log_write` since the last commit; and `unpinned`, how many
  entries of `log.lh` the running `install_trans` has unpinned.
-/
import Xv6.LogCrash

namespace Xv6

open Function Except

/-! ## The code of a process -/

/-- The `struct buf *` variables of a process. -/
inductive Reg
  | user (n : Nat)
  | to_
  | from_
  | lbuf
  | dbuf
  | head
deriving DecidableEq

/-- What a process does between two points where others may run. -/
inductive Act
  /-- `r = bget(ROOTDEV, b)`, up to its sleep lock. -/
  | bget (r : Reg) (b : Nat)
  /-- `r = bget(ROOTDEV, log.lh.block[tail])`, up to its sleep lock. -/
  | bgetLh (r : Reg) (tail : Nat)
  /-- The rest of `bread`. -/
  | fetch (r : Reg)
  | store (r : Reg) (d : Block)
  /-- `memmove(r->data, r'->data, BSIZE)`. -/
  | copy (r r' : Reg)
  /-- `write_head`'s stores. -/
  | putHead (r : Reg)
  | bwrite (r : Reg)
  | brelse (r : Reg)
  | bunpin (r : Reg)
  /-- `log_write` before it takes `log.lock`. -/
  | checkLog
  /-- `log_write` under `log.lock`. -/
  | addLog (r : Reg)
  | beginOp
  | endOp
  | commit
  | writeLog (tail : Nat)
  | installTrans (tail : Nat)
  /-- `log.lh.n = 0`. -/
  | clearLh
  /-- `log.committing = 0`. -/
  | committed

/-- The calls a process makes of its own accord. -/
inductive Call
  | bget (r b : Nat)
  | bread (r b : Nat)
  | store (r : Nat) (d : Block)
  | bwrite (r : Nat)
  | brelse (r : Nat)
  | logWrite (r : Nat)
  | beginOp
  | endOp

def Call.code : Call → List Act
  | bget r b => [.bget (.user r) b]
  | bread r b => [.bget (.user r) b, .fetch (.user r)]
  | store r d => [.store (.user r) d]
  | bwrite r => [.bwrite (.user r)]
  | brelse r => [.brelse (.user r)]
  | logWrite r => [.checkLog, .addLog (.user r)]
  | beginOp => [.beginOp]
  | endOp => [.endOp]

/-- One round of `write_log`, and the loop again. -/
def writeLogBody (start tail : Nat) : List Act :=
  [.bget .to_ (start + tail + 1), .fetch .to_, .bgetLh .from_ tail, .fetch .from_, .copy .to_ .from_,
    .bwrite .to_, .brelse .from_, .brelse .to_, .writeLog (tail + 1)]

/-- One round of `install_trans`, and the loop again. -/
def installBody (start tail : Nat) : List Act :=
  [.bget .lbuf (start + tail + 1), .fetch .lbuf, .bgetLh .dbuf tail, .fetch .dbuf,
    .copy .dbuf .lbuf, .bwrite .dbuf, .bunpin .dbuf, .brelse .lbuf, .brelse .dbuf,
    .installTrans (tail + 1)]

def writeHeadCode (start : Nat) : List Act :=
  [.bget .head start, .fetch .head, .putHead .head, .bwrite .head, .brelse .head]

/-- `commit`: copy the blocks to the log, write the head, install, erase. -/
def commitCode (start : Nat) : List Act :=
  .writeLog 0 :: writeHeadCode start ++ .installTrans 0 :: .clearLh :: writeHeadCode start

/-! ## The system -/

/-- A reference without the lock: in `bget`, waiting for the buffer that `r` points to, or in
    `brelse`, about to drop the reference to buffer `i`. -/
inductive Pend
  | waiting (r : Reg)
  | leaving (i : Nat)

/-- A process: its variables, what it is on its way to, the rest of its code, its open operations. -/
structure Thread where
  reg : Reg → Nat
  pend : Option Pend
  todo : List Act
  ops : List (List Nat)

/-- Shared memory, and the processes by pid. -/
structure Sys where
  mach : Mach
  proc : Nat → Thread
  since : List Nat
  unpinned : Nat

/-- A process that has not done anything yet. -/
def Thread.idle : Thread := ⟨fun _ => 0, none, [], []⟩

/-- The system once `initlog` has returned: `fsinit` runs before there is a second process. -/
def Sys.boot (m : Mach) : Sys := ⟨m, fun _ => Thread.idle, [], 0⟩

namespace Sys

variable (s : Sys) (p : Nat)

/-- Change process `p`. -/
def updProc (f : Thread → Thread) : Sys := { s with proc := update s.proc p (f (s.proc p)) }

/-- Continue process `p` with `k`. -/
def goto (k : List Act) : Sys := s.updProc p fun q => { q with todo := k }

/-- The shared memory as process `p` sees it. -/
def asProc : Mach := { s.mach with me := p }

/-- Replace the shared memory. -/
def withMach (m : Mach) : Sys := { s with mach := m }

/-- The buffer variable `r` of process `p` points to. -/
def ptr (r : Reg) : Nat := (s.proc p).reg r

/-- `bget` up to its sleep lock. -/
def bget (k : List Act) (r : Reg) (b : Nat) : Except Err Sys :=
  match s.mach.bc.bgetRef ROOTDEV b with
  | none => .error (.panic "bget: no buffers")
  | some (i, bc) => .ok ((s.withMach { s.mach with bc := bc }).updProc p fun q =>
      ⟨update q.reg r i, some (.waiting r), k, q.ops⟩)

/-- `brelse` up to its `releasesleep`. -/
def brelse (k : List Act) (r : Reg) : Except Err Sys :=
  if (s.asProc p).holding (s.ptr p r) then
    .ok ((s.withMach (s.mach.updBuf (s.ptr p r) fun b => { b with lock := none })).updProc p fun q =>
      { q with pend := some (.leaving (q.reg r)), todo := k })
  else .error (.panic "brelse")

/-- `log_write` under `log.lock`. -/
def addLog (k : List Act) (r : Reg) : Sys :=
  ({ s with
      mach := s.mach.record (s.ptr p r)
      since := s.since ++ [(s.mach.buf (s.ptr p r)).blockno] } : Sys).updProc p fun q =>
    { q with todo := k, ops := q.ops.map fun o => addBlock o (s.mach.buf (s.ptr p r)).blockno }

/-- `end_op`; the last operation to leave goes on with `commit`. -/
def endOp (k : List Act) : Except Err Sys :=
  let lg := { s.mach.log with outstanding := s.mach.log.outstanding - 1 }
  if lg.committing then .error (.panic "log.committing")
  else if lg.outstanding = 0 then
    .ok ((s.withMach { s.mach with log := { lg with committing := true } }).updProc p fun q =>
      { q with todo := .commit :: .committed :: k, ops := q.ops.tail })
  else
    .ok ((s.withMach { s.mach with log := lg }).updProc p fun q =>
      { q with todo := k, ops := q.ops.tail })

/-- Run one act of process `p`, `k` being what it has to do after it. -/
def exec (k : List Act) : Act → Except Err Sys
  | .bget r b => s.bget p k r b
  | .bgetLh r tail => s.bget p k r (s.mach.log.lh.getD tail 0)
  | .fetch r => .ok ((s.withMach (s.mach.fetch (s.ptr p r))).goto p k)
  | .store r d => .ok ((s.withMach (s.mach.setData (s.ptr p r) d)).goto p k)
  | .copy r r' =>
    .ok ((s.withMach (s.mach.setData (s.ptr p r) (s.mach.buf (s.ptr p r')).data)).goto p k)
  | .putHead r => .ok ((s.withMach (s.mach.setData (s.ptr p r)
      (writeHdr (s.mach.buf (s.ptr p r)).data s.mach.log.lh))).goto p k)
  | .bwrite r =>
    if (s.asProc p).holding (s.ptr p r) then
      .ok ((s.withMach (s.mach.diskWrite (s.ptr p r))).goto p k)
    else .error (.panic "bwrite")
  | .brelse r => s.brelse p k r
  | .bunpin r =>
    .ok (({ s with mach := s.mach.bunpin (s.ptr p r), unpinned := s.unpinned + 1 } : Sys).goto p k)
  | .checkLog =>
    if LOGSIZE ≤ s.mach.log.lh.length ∨ s.mach.log.size ≤ s.mach.log.lh.length + 1 then
      .error (.panic "too big a transaction")
    else if s.mach.log.outstanding < 1 then .error (.panic "log_write outside of trans")
    else .ok (s.goto p k)
  | .addLog r => .ok (s.addLog p k r)
  | .beginOp =>
    if Mach.admits s.mach.log then
      .ok ((s.withMach { s.mach with
        log := { s.mach.log with outstanding := s.mach.log.outstanding + 1 } }).updProc p fun q =>
          { q with todo := k, ops := [] :: q.ops })
    else .error .blocked
  | .endOp => s.endOp p k
  | .commit => .ok (s.goto p
      (if 0 < s.mach.log.lh.length then commitCode s.mach.log.start ++ k else k))
  | .writeLog tail => .ok (s.goto p
      (if tail < s.mach.log.lh.length then writeLogBody s.mach.log.start tail ++ k else k))
  | .installTrans tail => .ok (s.goto p
      (if tail < s.mach.log.lh.length then installBody s.mach.log.start tail ++ k else k))
  | .clearLh =>
    .ok (({ s with mach := s.mach.setLh [], since := [], unpinned := 0 } : Sys).goto p k)
  | .committed => .ok ((s.withMach { s.mach with
      log := { s.mach.log with committing := false } }).goto p k)

/-- One step of process `p`; `c` is the call it makes if it is between two calls. -/
def step (c : Call) : Except Err Sys :=
  match (s.proc p).pend with
  | some (.waiting r) =>
    if (s.mach.buf (s.ptr p r)).lock = none then
      .ok ((s.withMach (s.mach.updBuf (s.ptr p r) fun b => { b with lock := some p })).updProc p
        fun q => { q with pend := none })
    else .error .blocked
  | some (.leaving i) =>
    .ok ((s.withMach { s.mach with bc := s.mach.bc.bput i }).updProc p fun q =>
      { q with pend := none })
  | none =>
    match (s.proc p).todo with
    | [] => .ok (s.goto p c.code)
    | a :: k => s.exec p k a

/-- What the callers of `log.c` promise when they make a call: a buffer is logged by a process that
    has it locked, inside one of its own operations, and an operation that ends was begun. -/
def Legal : Call → Prop
  | .logWrite r => (s.mach.buf (s.ptr p (.user r))).lock = some p ∧ (s.proc p).ops ≠ []
  | .endOp => (s.proc p).ops ≠ []
  | _ => True

instance : ∀ c, Decidable (s.Legal p c)
  | .logWrite _ => inferInstanceAs (Decidable (_ ∧ _))
  | .endOp => inferInstanceAs (Decidable (_ ≠ _))
  | .bget .. | .bread .. | .store .. | .bwrite .. | .brelse .. | .beginOp => isTrue trivial

end Sys

/-- The states that `N` processes can reach from `s`, in any order of their steps, through states
    that satisfy `G`. -/
inductive Reach (N : Nat) (G : Sys → Prop) (s : Sys) : Sys → Prop
  | start : G s → Reach N G s s
  | step {s1 s2 : Sys} {p : Nat} {c : Call} : Reach N G s s1 → p < N → s1.Legal p c →
      s1.step p c = .ok s2 → G s2 → Reach N G s s2

variable {N : Nat} {G : Sys → Prop} {s s' : Sys}

namespace Sys

variable {p q : Nat}

@[simp] theorem updProc_self (f : Thread → Thread) : (s.updProc p f).proc p = f (s.proc p) :=
  update_self ..

/-- `bget` takes a reference, and waits for the lock. -/
theorem bget_ok {k : List Act} {r : Reg} {b : Nat} (h : s.bget p k r b = .ok s') :
    ∃ i bc, s.mach.bc.bgetRef ROOTDEV b = some (i, bc) ∧
      s' = (s.withMach { s.mach with bc := bc }).updProc p fun q =>
        ⟨update q.reg r i, some (.waiting r), k, q.ops⟩ := by
  unfold bget at h
  split at h
  · cases h
  · next i bc hb => exact ⟨i, bc, hb, (ok.inj h).symm⟩

/-- `brelse` unlocks a buffer its process holds. -/
theorem brelse_ok {k : List Act} {r : Reg} (h : s.brelse p k r = .ok s') :
    (s.mach.buf (s.ptr p r)).lock = some p ∧
      s' = (s.withMach (s.mach.updBuf (s.ptr p r) fun b => { b with lock := none })).updProc p
        fun q => { q with pend := some (.leaving (q.reg r)), todo := k } := by
  unfold brelse at h
  split at h
  · next hl => exact ⟨beq_iff_eq.mp hl, (ok.inj h).symm⟩
  · cases h

/-- The three kinds of step: take the sleep lock, drop the reference, run code. -/
theorem step_cases {c : Call} (h : s.step p c = .ok s') :
    (∃ r, (s.proc p).pend = some (.waiting r) ∧ (s.mach.buf (s.ptr p r)).lock = none ∧
      s' = (s.withMach (s.mach.updBuf (s.ptr p r) fun b => { b with lock := some p })).updProc p
        fun q => { q with pend := none }) ∨
    (∃ i, (s.proc p).pend = some (.leaving i) ∧
      s' = (s.withMach { s.mach with bc := s.mach.bc.bput i }).updProc p fun q =>
        { q with pend := none }) ∨
    ((s.proc p).pend = none ∧ (s.proc p).todo = [] ∧ s' = s.goto p c.code) ∨
    (∃ a k, (s.proc p).pend = none ∧ (s.proc p).todo = a :: k ∧ s.exec p k a = .ok s') := by
  unfold step at h
  cases hp : (s.proc p).pend with
  | some d =>
    grind
  | none =>
    grind

end Sys

/-! ## What an act does -/

/-- Everything that says who refers to a buffer is as before. -/
def SameRefs (m m' : Mach) : Prop :=
  m'.bc.lru = m.bc.lru ∧ ∀ j, (m'.buf j).dev = (m.buf j).dev ∧
    (m'.buf j).blockno = (m.buf j).blockno ∧ (m'.buf j).lock = (m.buf j).lock ∧
    (m'.buf j).refcnt = (m.buf j).refcnt

theorem sameRefs_updBuf (m : Mach) (i : Nat) {f : Buf → Buf}
    (hf : ∀ b, (f b).dev = b.dev ∧ (f b).blockno = b.blockno ∧ (f b).lock = b.lock ∧
      (f b).refcnt = b.refcnt) : SameRefs m (m.updBuf i f) := by
  refine ⟨rfl, fun j => ?_⟩
  by_cases hj : j = i
  · subst hj; rw [Mach.updBuf_self]; exact hf _
  · rw [Mach.updBuf_ne _ _ hj]; exact ⟨rfl, rfl, rfl, rfl⟩

theorem sameRefs_fetch (m : Mach) (i : Nat) : SameRefs m (m.fetch i) := by
  refine ⟨Mach.fetch_lru m i, fun j => ?_⟩
  by_cases hj : j = i
  · subst hj; rw [Mach.fetch_buf]; exact ⟨rfl, rfl, rfl, rfl⟩
  · rw [Mach.fetch_ne _ hj]; exact ⟨rfl, rfl, rfl, rfl⟩

/-- `p` goes on to `todo` with the operations `ops`, and touches no reference, pin or listed block. -/
structure Still (p : Nat) (s s' : Sys) (todo : List Act) (ops : List (List Nat)) : Prop where
  refs : SameRefs s.mach s'.mach
  lh : s'.mach.log.lh = s.mach.log.lh
  unpinned : s'.unpinned = s.unpinned
  since : s'.since = s.since
  proc : s'.proc = update s.proc p ⟨(s.proc p).reg, (s.proc p).pend, todo, ops⟩

theorem Still.of_bc {p : Nat} {todo : List Act} {ops : List (List Nat)} (hbc : s'.mach.bc = s.mach.bc)
    (hlh : s'.mach.log.lh = s.mach.log.lh) (hun : s'.unpinned = s.unpinned) (hsince : s'.since = s.since)
    (hproc : s'.proc = update s.proc p ⟨(s.proc p).reg, (s.proc p).pend, todo, ops⟩) :
    Still p s s' todo ops := by
  refine ⟨?_, hlh, hun, hsince, hproc⟩
  unfold SameRefs Mach.buf
  rw [hbc]
  exact ⟨rfl, fun _ => ⟨rfl, rfl, rfl, rfl⟩⟩

/-- The acts that are about data, code or the disk. -/
def Act.Plain : Act → Prop
  | .fetch _ | .store .. | .copy .. | .putHead _ | .bwrite _ | .checkLog | .commit | .writeLog _
  | .installTrans _ => True
  | _ => False

/-- The code after such an act: `commit` and the loops unfold. -/
def Sys.after (s : Sys) (k : List Act) : Act → List Act
  | .commit => if 0 < s.mach.log.lh.length then commitCode s.mach.log.start ++ k else k
  | .writeLog tail => if tail < s.mach.log.lh.length then writeLogBody s.mach.log.start tail ++ k else k
  | .installTrans tail => if tail < s.mach.log.lh.length then installBody s.mach.log.start tail ++ k else k
  | _ => k

/-- How process `p` has run an act. -/
inductive Did (p : Nat) (k : List Act) (s s' : Sys) : Act → Prop
  | bget {r b} (h : s.bget p k r b = .ok s') : Did p k s s' (.bget r b)
  | bgetLh {r tail} (h : s.bget p k r (s.mach.log.lh.getD tail 0) = .ok s') :
      Did p k s s' (.bgetLh r tail)
  | brelse {r} (h : s.brelse p k r = .ok s') : Did p k s s' (.brelse r)
  | bunpin {r} (h : s' = ({ s with mach := s.mach.bunpin (s.ptr p r), unpinned := s.unpinned + 1 } :
      Sys).goto p k) : Did p k s s' (.bunpin r)
  | addLog {r} (h : s' = s.addLog p k r) : Did p k s s' (.addLog r)
  | clearLh (h : s' = ({ s with mach := s.mach.setLh [], since := [], unpinned := 0 } : Sys).goto p k) :
      Did p k s s' .clearLh
  | beginOp (hadm : Mach.admits s.mach.log = true)
      (hlog : s'.mach.log = { s.mach.log with outstanding := s.mach.log.outstanding + 1 })
      (hs : Still p s s' k ([] :: (s.proc p).ops)) : Did p k s s' .beginOp
  | leave (hc : s.mach.log.committing = false) (hout : s.mach.log.outstanding - 1 ≠ 0)
      (hlog : s'.mach.log = { s.mach.log with outstanding := s.mach.log.outstanding - 1 })
      (hs : Still p s s' k (s.proc p).ops.tail) : Did p k s s' .endOp
  | lastOut (hc : s.mach.log.committing = false) (hout : s.mach.log.outstanding - 1 = 0)
      (hlog : s'.mach.log = { s.mach.log with
        outstanding := s.mach.log.outstanding - 1, committing := true })
      (hs : Still p s s' (.commit :: .committed :: k) (s.proc p).ops.tail) : Did p k s s' .endOp
  | committed (hlog : s'.mach.log = { s.mach.log with committing := false })
      (hs : Still p s s' k (s.proc p).ops) : Did p k s s' .committed
  | plain {a} (ha : a.Plain) (hlog : s'.mach.log = s.mach.log)
      (hs : Still p s s' (s.after k a) (s.proc p).ops) : Did p k s s' a

/-- An act that succeeds has done what `Did` says. -/
theorem Sys.exec_did {p : Nat} {a : Act} {k : List Act} (h : s.exec p k a = .ok s') : Did p k s s' a := by
  cases a with
  | bget => exact .bget h
  | bgetLh => exact .bgetLh h
  | brelse => exact .brelse h
  | bunpin => exact .bunpin (ok.inj h).symm
  | addLog => exact .addLog (ok.inj h).symm
  | clearLh => exact .clearLh (ok.inj h).symm
  | fetch r =>
    obtain rfl := ok.inj h
    have hlog := (Mach.fetch_frame s.mach (s.ptr p r)).log
    exact .plain trivial hlog ⟨sameRefs_fetch .., congrArg Log.lh hlog, rfl, rfl, rfl⟩
  | store | copy | putHead =>
    obtain rfl := ok.inj h
    exact .plain trivial rfl ⟨sameRefs_updBuf _ _ fun _ => ⟨rfl, rfl, rfl, rfl⟩, rfl, rfl, rfl, rfl⟩
  | bwrite =>
    simp only [exec] at h
    split at h
    · obtain rfl := ok.inj h
      exact .plain trivial rfl (.of_bc rfl rfl rfl rfl rfl)
    · cases h
  | checkLog =>
    simp only [exec] at h
    split at h
    · cases h
    split at h
    · cases h
    obtain rfl := ok.inj h
    exact .plain trivial rfl (.of_bc rfl rfl rfl rfl rfl)
  | commit | writeLog | installTrans =>
    obtain rfl := ok.inj h
    exact .plain trivial rfl (.of_bc rfl rfl rfl rfl rfl)
  | beginOp =>
    simp only [exec] at h
    split at h
    · next hadm =>
      obtain rfl := ok.inj h
      exact .beginOp hadm rfl (.of_bc rfl rfl rfl rfl rfl)
    · cases h
  | endOp =>
    simp only [exec, endOp] at h
    split at h
    · cases h
    next hc =>
    have hc : s.mach.log.committing = false := Bool.eq_false_of_not_eq_true hc
    split at h
    · next hout =>
      obtain rfl := ok.inj h
      exact .lastOut hc hout rfl (.of_bc rfl rfl rfl rfl rfl)
    · next hout =>
      obtain rfl := ok.inj h
      exact .leave hc hout rfl (.of_bc rfl rfl rfl rfl rfl)
  | committed =>
    obtain rfl := ok.inj h
    exact .committed rfl (.of_bc rfl rfl rfl rfl rfl)

/-- A step that ends in a panic runs code. -/
theorem Sys.step_panic {p : Nat} {c : Call} {msg : String} (h : s.step p c = .error (.panic msg)) :
    (s.proc p).pend = none ∧ ∃ a k, (s.proc p).todo = a :: k ∧ s.exec p k a = .error (.panic msg) := by
  unfold step at h
  cases hp : (s.proc p).pend with
  | some d =>
    grind
  | none =>
    grind

/-- Run a given schedule; `none` if a call is not legal, a step does not happen or a state is not in
    `G`. -/
def schedule (N : Nat) (G : Sys → Prop) [DecidablePred G] : List (Nat × Call) → Sys → Option Sys
  | [], s => some s
  | (p, c) :: l, s =>
    if p < N ∧ s.Legal p c then
      match s.step p c with
      | .ok s' => if G s' then schedule N G l s' else none
      | .error _ => none
    else none

/-- What a schedule leads to is reachable. -/
theorem schedule_reach [DecidablePred G] {s0 : Sys} {l : List (Nat × Call)} (hr : Reach N G s0 s)
    (h : schedule N G l s = some s') : Reach N G s0 s' := by
  induction l generalizing s with
  | nil => obtain rfl := Option.some.inj h; exact hr
  | cons pc l ih =>
    obtain ⟨p, c⟩ := pc
    simp only [schedule] at h
    split at h
    · next hpl =>
      cases hs : s.step p c with
      | error e => rw [hs] at h; cases h
      | ok s1 =>
        rw [hs] at h
        dsimp only at h
        split at h
        · next hg => exact ih (hr.step hpl.1 hpl.2 hs hg) h
        · cases h
    · cases h

/-- What holds at the start and is kept by every step holds in every state reached. -/
theorem Reach.invariant {I : Sys → Prop} (hr : Reach N G s s') (h0 : G s → I s)
    (hstep : ∀ {s1 s2 p c}, p < N → s1.Legal p c → s1.step p c = .ok s2 → G s1 → G s2 →
      I s1 → I s2) : I s' ∧ G s' := by
  induction hr with
  | start hg => exact ⟨h0 hg, hg⟩
  | step _ hp hl hs hg ih => exact ⟨hstep hp hl hs ih.2 hg ih.1, hg⟩

end Xv6
