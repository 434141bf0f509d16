/-
  GROUP TRANSACTIONS: what `log.c` promises its callers, for any number of processes in any order.

  Operations join a transaction with `begin_op`, list blocks with `log_write` and leave with
  `end_op`; the last to leave commits, and nobody joins until the commit is over.  `Bookkeeping` is
  what holds in every state on the way.

  A PIN is a unit of a buffer's `refcnt` that belongs to no process: what is left of the count when
  the holder of the lock and those on their way in or out are taken off.  A listed block has one from
  its first `log_write` until `install_trans` has copied it home.  The block is still listed then,
  up to the end of the commit's second loop: `installed_unpinned` is such a moment.
-/
import Xv6.ConcRef

namespace Xv6

open Sys

/-- The units of buffer `i`'s count that no process accounts for. -/
def pinCount (N : Nat) (s : Sys) (i : Nat) : Int :=
  (s.mach.buf i).refcnt - holders s i - waiters N s i

/-- Buffer `i` holds block `b`. -/
def Caches (s : Sys) (i b : Nat) : Prop :=
  i < NBUF ∧ (s.mach.buf i).dev = ROOTDEV ∧ (s.mach.buf i).blockno = b

/-- The transaction's books, as the code of `log.c` needs them. -/
structure Bookkeeping (N : Nat) (s : Sys) : Prop where
  /-- While a commit runs, no operation is open, ... -/
  alone : s.mach.log.committing = true → s.mach.log.outstanding = 0
  /-- ... nobody is in `log_write` or may call it, ... -/
  nowrite : s.mach.log.committing = true → ∀ p, p < N → ∀ r k,
    (s.proc p).todo ≠ .checkLog :: .addLog r :: k ∧ (s.proc p).todo ≠ .addLog r :: k ∧
      ∀ n, ¬ s.Legal p (.logWrite n)
  /-- ... and no `end_op` finds it running. -/
  nopanic : ∀ p, p < N → ∀ c, s.Legal p c → s.step p c ≠ .error (.panic "log.committing")
  nodup : s.mach.log.lh.Nodup
  /-- A listed block that is not installed yet is cached once, with one pin. -/
  pinned : ∀ b ∈ s.mach.log.lh.drop s.unpinned,
    ∃ i, Caches s i b ∧ pinCount N s i = 1 ∧ ∀ j, Caches s j b → j = i
  /-- Every block logged since the last commit is listed. -/
  listed : ∀ b ∈ s.since, b ∈ s.mach.log.lh
  /-- Outside commits every listed block counts. -/
  whole : s.mach.log.committing = false → s.unpinned = 0
  /-- The step that ends a commit leaves an empty list and no pin. -/
  done : ∀ p, p < N → ∀ c s', s.Legal p c → s.step p c = .ok s' → s.mach.log.committing = true →
    s'.mach.log.committing = false → s'.mach.log.lh = [] ∧ ∀ i, i < NBUF → pinCount N s' i = 0

variable {N p : Nat} {com : Option Nat} {s s' : Sys}

/-- With the accounting in order, a buffer's pins are what the list says. -/
theorem RefInv.pinCount (hI : RefInv N com s) {i : Nat} (hi : i < NBUF) : pinCount N s i = pins s i := by
  rw [Xv6.pinCount, hI.refs i hi]
  omega

theorem LogInv.outstanding_zero (hI : LogInv N com s) (hc : s.mach.log.committing = true) :
    s.mach.log.outstanding = 0 := by
  rw [hI.outstanding, openOps_eq_zero.mpr fun q hq => hI.alone ?_ q hq]
  · rfl
  · rw [← hI.committing, hc]

/-- Code that runs `log_write` belongs to a process with an open operation. -/
theorem LogInv.not_logging (hI : LogInv N com s) (hp : p < N)
    (hc : s.mach.log.committing = true) (r : Reg) (k : List Act) :
    (s.proc p).todo ≠ .checkLog :: .addLog r :: k ∧ (s.proc p).todo ≠ .addLog r :: k ∧
      ∀ n, ¬ s.Legal p (.logWrite n) := by
  have hops : (s.proc p).ops = [] := hI.alone (by rw [← hI.committing, hc]) p hp
  have hctl := hI.ctl p hp
  refine ⟨fun ht => ?_, fun ht => ?_, fun n hl => hl.2 hops⟩
  · rw [ht] at hctl
    exact hctl.2.1 hops
  · rw [ht] at hctl
    exact hctl.2.1 hops

/-- The only way to the panic of `end_op`. -/
theorem endOp_panic {c : Call} (h : s.step p c = .error (.panic "log.committing")) :
    (∃ k, (s.proc p).todo = .endOp :: k) ∧ s.mach.log.committing = true := by
  obtain ⟨-, a, k, ht, h⟩ := step_panic h
  cases a with
  | endOp =>
    grind [exec, endOp]
  | checkLog => simp only [exec] at h; split at h <;> [skip; split at h] <;> simp at h
  | bget | bgetLh => simp only [exec, bget] at h; split at h <;> simp at h
  | brelse => simp only [exec, brelse] at h; split at h <;> simp at h
  | bwrite | beginOp => simp only [exec] at h; split at h <;> simp at h
  | _ => cases h

theorem LogInv.no_panic (hI : LogInv N com s) (hp : p < N) (c : Call) :
    s.step p c ≠ .error (.panic "log.committing") := by
  intro h
  obtain ⟨⟨k, ht⟩, hc⟩ := endOp_panic h
  have hctl := hI.ctl p hp
  rw [ht] at hctl
  exact hctl.2.1 (hI.alone (by rw [← hI.committing, hc]) p hp)

/-- A step that ends a commit is the store `log.committing = 0`. -/
theorem commit_over {c : Call} (h : s.step p c = .ok s') (hc : s.mach.log.committing = true)
    (hc' : s'.mach.log.committing = false) :
    (∃ k, (s.proc p).todo = .committed :: k) ∧ s'.mach.log.lh = s.mach.log.lh := by
  have hkept : s'.mach.log.committing = s.mach.log.committing → False := fun h => by
    rw [h, hc] at hc'
    cases hc'
  rcases step_cases h with ⟨r, -, -, rfl⟩ | ⟨i, -, rfl⟩ | ⟨-, -, rfl⟩ | ⟨a, k, -, ht, h⟩
  · exact (hkept rfl).elim
  · exact (hkept rfl).elim
  · exact (hkept rfl).elim
  cases exec_did h with
  | committed hlog hs => exact ⟨⟨k, ht⟩, hs.lh⟩
  | bget h | bgetLh h =>
    obtain ⟨i, bc, -, rfl⟩ := bget_ok h
    exact (hkept rfl).elim
  | brelse h =>
    obtain ⟨-, rfl⟩ := brelse_ok h
    exact (hkept rfl).elim
  | bunpin hs | clearLh hs =>
    subst hs
    exact (hkept rfl).elim
  | addLog hs =>
    subst hs
    exact (hkept (by rw [addLog_log])).elim
  | beginOp _ hlog | plain _ hlog => exact (hkept (by rw [hlog])).elim
  | leave hc0 | lastOut hc0 => exact absurd (hc0.symm.trans hc) (by decide)

/-- Every state of the accounting is in order. -/
theorem RefInv.bookkeeping (hI : RefInv N com s) : Bookkeeping N s := by
  have hL := hI.log
  refine ⟨hL.outstanding_zero, fun hc p hp r k => hL.not_logging hp hc r k,
    fun p hp c _ => hL.no_panic hp c, hL.nodup, fun b hb => ?_, fun b => (hL.since b).mpr,
    fun hc => hI.whole (hL.com_none hc), fun p hp c s' hl hs hc hc' => ?_⟩
  · obtain ⟨i, hi, hd, hbi⟩ := hI.cached b hb
    refine ⟨i, ⟨hi, hd, hbi⟩, ?_, fun j hj => ?_⟩
    · rw [hI.pinCount hi, pins, if_pos ⟨hd, by rw [hbi]; exact hb⟩]
      rfl
    · exact hI.keys j i hj.1 hi hj.2.1 hd (hj.2.2.trans hbi.symm)
  · obtain ⟨⟨k, ht⟩, hlh'⟩ := commit_over hs hc hc'
    have hctl := hL.ctl p hp
    rw [ht] at hctl
    have hlh : s'.mach.log.lh = [] := hlh'.trans hctl.2.1
    refine ⟨hlh, fun i hi => ?_⟩
    obtain ⟨com', hI'⟩ := hI.step hp hl hs
    rw [hI'.pinCount hi, pins, pinnedBlocks, hlh]
    simp

/-- **Transaction bookkeeping.**  Start with a log that is idle and a cache in which nothing is
    pinned or held, and let any number of processes (that an `unsigned int` can count) run
    operations in any order, where every `log_write` is made inside an operation of its caller: the
    books are in order in every state. -/
theorem transaction_bookkeeping {m : Mach} {start size : Nat} {T : Nat → Prop}
    (hidle : m.Pinned 1 [] T []) (hlog : m.log = ⟨start, size, 0, false, []⟩)
    (hN : N + 3 < 4294967296) (hr : Reach N (fun _ => True) (Sys.boot m) s) : Bookkeeping N s := by
  obtain ⟨com, hI⟩ := hr.refInv hidle hlog hN
  exact hI.bookkeeping

theorem transaction_bookkeeping_contention : ∃ m s, m.Pinned 1 [] Mach.None_ [] ∧
    m.log = ⟨2, LOGSIZE, 0, false, []⟩ ∧ 2 + 3 < 4294967296 ∧
    schedule 2 (fun _ => True) contention (Sys.boot m) = some s ∧ Bookkeeping 2 s := by
  obtain ⟨s, h⟩ := Option.isSome_iff_exists.mp contention_runs
  obtain ⟨m, hm, hs⟩ := Option.bind_eq_some_iff.mp h
  have hempty : readHdr ((fun _ _ => 0 : Nat → Block) 2) = some [] := by decide
  obtain ⟨m', hboot, hQ, -⟩ := boot_quiet 2 LOGSIZE 1 (d := fun _ _ => 0) hempty
  obtain rfl := Except.ok.inj ((toOption_eq_some hm).symm.trans hboot)
  exact ⟨m, s, hQ.pinned, hQ.log, by decide, hs, transaction_bookkeeping hQ.pinned hQ.log (by decide)
    (schedule_reach (.start trivial) hs)⟩

/-- One operation logs block 100 and ends; its commit runs up to the end of `install_trans`'s first
    round. -/
def midInstall : List (Nat × Call) :=
  List.replicate 2 (0, .beginOp) ++ List.replicate 4 (0, .bread 0 100) ++
    List.replicate 3 (0, .logWrite 0) ++ List.replicate 3 (0, .brelse 0) ++
    List.replicate 2 (0, .endOp) ++ List.replicate 37 (0, .beginOp)

theorem midInstall_runs : ((initlog (bootMach 1 fun _ _ => 0) 2 LOGSIZE).toOption.bind fun m =>
    (schedule 1 (fun _ => True) midInstall (boot m)).map fun s =>
      (s.mach.log.lh, (List.range NBUF).filter fun i =>
        (s.mach.buf i).dev == ROOTDEV && (s.mach.buf i).blockno == 100,
        (s.mach.buf 1).refcnt)) = some ([100], [1], 0) := by
  decide +kernel

/-- **A block that is listed and has no pin.**  In the middle of a commit, once `install_trans` has
    copied block 100 home and unpinned it, the block is still in `log.lh` and the count of the only
    buffer that caches it is 0. -/
theorem installed_unpinned : ∃ m s, m.Pinned 1 [] Mach.None_ [] ∧
    m.log = ⟨2, LOGSIZE, 0, false, []⟩ ∧ Reach 1 (fun _ => True) (Sys.boot m) s ∧
    100 ∈ s.mach.log.lh ∧ Caches s 1 100 ∧ (∀ j, Caches s j 100 → j = 1) ∧
    (s.mach.buf 1).refcnt = 0 ∧ pinCount 1 s 1 ≤ 0 := by
  obtain ⟨m, hm, h⟩ := Option.bind_eq_some_iff.mp midInstall_runs
  obtain ⟨s, hs, h⟩ := Option.map_eq_some_iff.mp h
  obtain ⟨hlh, hrest⟩ := Prod.mk.inj h
  obtain ⟨hfilter, href⟩ := Prod.mk.inj hrest
  have hempty : readHdr ((fun _ _ => 0 : Nat → Block) 2) = some [] := by decide
  obtain ⟨m', hboot, hQ, -⟩ := boot_quiet 2 LOGSIZE 1 (d := fun _ _ => 0) hempty
  obtain rfl := Except.ok.inj ((toOption_eq_some hm).symm.trans hboot)
  have hcached : ∀ j, Caches s j 100 ↔ j = 1 := fun j => by
    have hmem : j ∈ (List.range NBUF).filter (fun i =>
        (s.mach.buf i).dev == ROOTDEV && (s.mach.buf i).blockno == 100) ↔ j = 1 := by
      rw [hfilter]
      exact List.mem_singleton
    rw [← hmem, List.mem_filter, List.mem_range]
    simp [Caches]
  refine ⟨m, s, hQ.pinned, hQ.log, schedule_reach (.start trivial) hs, by rw [hlh]; simp,
    (hcached 1).mpr rfl, fun j => (hcached j).mp, href, ?_⟩
  rw [pinCount, href]
  omega

end Xv6
