/-
  THE LOG (`kernel/log.c`), as the sequential machine runs it.

  The header block stores `n` and `block[0 .. n)` as little-endian `int`s; `lh` is the same list in
  memory.  The three loops over `log.lh` recurse over the list they still have to do, with the C
  loop counter `tail` beside it: none of the loop bodies changes `log.lh`.

  `installTrans` is ONE function with two callers: `commit`, whose blocks were pinned by
  `logWrite`, and `recoverFromLog`, whose blocks were not.
-/
import Xv6.Bio

namespace Xv6

open Bytes List

variable {d : Block} {l : List Nat} {b i : Nat}

/-! ## The header block -/

/-- `lh->block[0 .. lh->n)`.  A negative `n` runs no loop; one above `LOGSIZE` overruns
    `log.lh.block`. -/
def readHdr (d : Block) : Option (List Nat) :=
  if 2147483648 ≤ le32 d 0 then some []
  else if LOGSIZE < le32 d 0 then none
  else some ((List.range (le32 d 0)).map fun i => le32 d (4 + 4 * i))

/-- `hb->block[i] = log.lh.block[i]`, from `i` on. -/
def putBlocks : Block → Nat → List Nat → Block
  | d, _, [] => d
  | d, i, b :: bs => putBlocks (put32 d (4 + 4 * i) b) (i + 1) bs

/-- `write_head`'s stores. -/
def writeHdr (d : Block) (lh : List Nat) : Block := putBlocks (put32 d 0 lh.length) 0 lh

namespace Mach

/-- The header `lh` in memory. -/
def setLh (s : Mach) (lh : List Nat) : Mach := { s with log := { s.log with lh := lh } }

/-- Copy committed blocks from log to their home location. -/
def installTrans : Nat → List Nat → Mach → Except Err Mach
  | _, [], s => .ok s
  | tail, b :: bs, s => do
    let (lbuf, s) ← s.bread ROOTDEV (s.log.start + tail + 1)
    let (dbuf, s) ← s.bread ROOTDEV b
    let s := s.setData dbuf (s.buf lbuf).data
    let s ← s.bwrite dbuf
    let s := s.bunpin dbuf
    let s ← s.brelse lbuf
    let s ← s.brelse dbuf
    installTrans (tail + 1) bs s

/-- Read the log header from disk into the in-memory log header. -/
def readHead (s : Mach) : Except Err Mach := do
  let (i, s) ← s.bread ROOTDEV s.log.start
  match readHdr (s.buf i).data with
  | none => .error .undef
  | some lh => (s.setLh lh).brelse i

/-- Write in-memory log header to disk: the true point at which a transaction commits. -/
def writeHead (s : Mach) : Except Err Mach := do
  let (i, s) ← s.bread ROOTDEV s.log.start
  let s := s.setData i (writeHdr (s.buf i).data s.log.lh)
  let s ← s.bwrite i
  s.brelse i

def recoverFromLog (s : Mach) : Except Err Mach := do
  let s ← s.readHead
  let s ← installTrans 0 s.log.lh s
  (s.setLh []).writeHead

/-- Copy modified blocks from cache to log. -/
def writeLog : Nat → List Nat → Mach → Except Err Mach
  | _, [], s => .ok s
  | tail, b :: bs, s => do
    let (to_, s) ← s.bread ROOTDEV (s.log.start + tail + 1)
    let (from_, s) ← s.bread ROOTDEV b
    let s := s.setData to_ (s.buf from_).data
    let s ← s.bwrite to_
    let s ← s.brelse from_
    let s ← s.brelse to_
    writeLog (tail + 1) bs s

def commit (s : Mach) : Except Err Mach :=
  if s.log.lh.length > 0 then do
    let s ← writeLog 0 s.log.lh s
    let s ← s.writeHead
    let s ← installTrans 0 s.log.lh s
    (s.setLh []).writeHead
  else .ok s

/-- `begin_op`'s admission test: not committing, and room for one more operation's blocks. -/
def admits (l : Log) : Bool :=
  !l.committing && (l.lh.length + (l.outstanding + 1) * MAXOPBLOCKS ≤ LOGSIZE : Bool)

/-- With no other process to end the wait, an operation that is not admitted sleeps forever. -/
def beginOp (s : Mach) : Except Err Mach :=
  if admits s.log then .ok { s with log := { s.log with outstanding := s.log.outstanding + 1 } }
  else .error .blocked

def endOp (s : Mach) : Except Err Mach :=
  let s := { s with log := { s.log with outstanding := s.log.outstanding - 1 } }
  if s.log.committing then .error (.panic "log.committing")
  else if s.log.outstanding = 0 then do
    let s ← commit { s with log := { s.log with committing := true } }
    pure { s with log := { s.log with committing := false } }
  else .ok s

/-- `log_write` under `log.lock`: record the block number and pin the buffer, once per
    transaction. -/
def record (s : Mach) (i : Nat) : Mach :=
  if (s.buf i).blockno ∈ s.log.lh then s   -- log absorbtion
  else (s.bpin i).setLh (s.log.lh ++ [(s.buf i).blockno])

def logWrite (s : Mach) (i : Nat) : Except Err Mach :=
  if LOGSIZE ≤ s.log.lh.length ∨ s.log.size ≤ s.log.lh.length + 1 then
    .error (.panic "too big a transaction")
  else if s.log.outstanding < 1 then .error (.panic "log_write outside of trans")
  else .ok (s.record i)

end Mach

/-- The list after `log_write` of block `b`. -/
def addBlock (l : List Nat) (b : Nat) : List Nat := if b ∈ l then l else l ++ [b]

theorem mem_addBlock {c : Nat} : c ∈ addBlock l b ↔ c ∈ l ∨ c = b := by
  unfold addBlock
  split
  · grind
  · simp

theorem addBlock_nodup (h : l.Nodup) : (addBlock l b).Nodup := by
  unfold addBlock
  split
  · exact h
  · grind

/-! ## Boot -/

/-- The machine right after `binit`, with the log not yet initialised. -/
def bootMach (me : Nat) (disk : Nat → Block) : Mach :=
  ⟨me, disk, [], binit, ⟨0, 0, 0, false, []⟩, -1, -1⟩

/-- `initlog` with the geometry the superblock gives.  (The check on `sizeof(struct logheader)` is
    a constant: `4 * (LOGSIZE + 1) < BSIZE`.) -/
def initlog (s : Mach) (logstart nlog : Nat) : Except Err Mach :=
  { s with log := { s.log with start := logstart, size := nlog } }.recoverFromLog

/-! ## The header round trip -/

theorem putBlocks_out {o : Nat} (h : o + 4 ≤ 4 + 4 * i) : le32 (putBlocks d i l) o = le32 d o := by
  induction l generalizing d i with
  | nil => rfl
  | cons b bs ih =>
    rw [putBlocks, ih (by omega)]
    exact le32_put32_ne (.inl h)

theorem putBlocks_get {k : Nat} (hk : k < l.length)
    (hb : ∀ b ∈ l, b < 4294967296) : le32 (putBlocks d i l) (4 + 4 * (i + k)) = l.getD k 0 := by
  induction l generalizing d i k with
  | nil => exact absurd hk (Nat.not_lt_zero _)
  | cons b bs ih =>
    grind [putBlocks, putBlocks_out, le32_put32, mem_cons_self]

/-- What `write_head` stores, `read_head` reads back. -/
theorem readHdr_writeHdr (d : Block) {lh : List Nat} (hl : lh.length ≤ LOGSIZE)
    (hb : ∀ b ∈ lh, b < 4294967296) : readHdr (writeHdr d lh) = some lh := by
  have hn : le32 (writeHdr d lh) 0 = lh.length := by
    rw [writeHdr, putBlocks_out (by omega), le32_put32]
    exact Nat.mod_eq_of_lt (by unfold LOGSIZE MAXOPBLOCKS at hl; omega)
  have hsmall : ¬ 2147483648 ≤ lh.length := by unfold LOGSIZE MAXOPBLOCKS at hl; omega
  rw [readHdr, hn, if_neg hsmall, if_neg (not_lt.mpr hl)]
  congr 1
  refine ext_getElem (by simp) fun k hk hk' => ?_
  have hget := putBlocks_get (d := put32 d 0 lh.length) (i := 0) hk' hb
  rw [zero_add] at hget
  simp only [getElem_map, getElem_range, writeHdr, hget]
  simp [getD_eq_getElem?_getD, hk']

end Xv6
