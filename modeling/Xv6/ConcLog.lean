/-
  WHO MAY TOUCH THE LOG WHEN, for any number of processes.

  `Ctl` reads off the code a process still has to run which part it plays: only the committer runs
  the loops of `commit`, only a process with an open operation runs `log_write`, and the committer
  leaves with an empty `log.lh`.  `LogInv` ties these parts to the shared fields: while somebody
  commits no operation is open, and between transactions the log is empty.

  On top of it, the room in the log.  `begin_op` reserves `MAXOPBLOCKS` entries for an operation and
  admits it if all reservations fit in `LOGSIZE`; `log_write` refuses at `log.size - 1`.
-/
import Xv6.Conc
import Mathlib.Algebra.BigOperators.Group.Finset.Basic
import Mathlib.Algebra.BigOperators.Ring.Finset
import Mathlib.Algebra.Order.BigOperators.Group.Finset
import Mathlib.Algebra.BigOperators.Group.List.Basic

namespace Xv6

open Function List Sys

variable {ops : List (List Nat)} {k : List Act} {c : Call} {a : Act}

/-! ## The part a process plays -/

/-- The code `todo` fits a process that has the operations `ops` open and is (`c`) the committer;
    `lh` is the log's list when it starts. -/
def Ctl (c : Bool) (ops : List (List Nat)) : List Nat → List Act → Prop
  | _, [] => c = false
  | lh, .bgetLh _ _ :: k => c = true ∧ Ctl c ops lh k
  | lh, .bunpin _ :: k => c = true ∧ Ctl c ops lh k
  | lh, .writeLog _ :: k => c = true ∧ Ctl c ops lh k
  | lh, .installTrans _ :: k => c = true ∧ Ctl c ops lh k
  | _, .clearLh :: k => c = true ∧ Ctl c ops [] k
  | _, .commit :: k => c = true ∧ Ctl c ops [] k
  | lh, .committed :: k => c = true ∧ lh = [] ∧ k = []
  | _, .addLog _ :: k => c = false ∧ ops ≠ [] ∧ k = []
  | _, .beginOp :: k => c = false ∧ k = []
  | _, .endOp :: k => c = false ∧ ops ≠ [] ∧ k = []
  | lh, _ :: k => Ctl c ops lh k

/-- Only the committer's code depends on the list. -/
theorem Ctl.of_false : ∀ {lh lh' : List Nat}, Ctl false ops lh k → Ctl false ops lh' k := by
  induction k with
  | nil => intro lh lh' h; exact h
  | cons a k ih =>
    intro lh lh' h
    cases a with
    | bgetLh | bunpin | writeLog | installTrans | clearLh | commit | committed => exact nomatch h.1
    | addLog | beginOp | endOp => exact h
    | _ => exact ih h

/-- How many operations are open. -/
def openOps (N : Nat) (s : Sys) : Nat := ∑ p ∈ Finset.range N, (s.proc p).ops.length

/-- The log's counters agree with the code that the processes still have to run; `com` commits. -/
structure LogInv (N : Nat) (com : Option Nat) (s : Sys) : Prop where
  com_lt : ∀ p, com = some p → p < N
  committing : s.mach.log.committing = com.isSome
  ctl : ∀ p, p < N → Ctl (com == some p) (s.proc p).ops s.mach.log.lh (s.proc p).todo
  /-- Nobody is inside an operation while somebody commits. -/
  alone : com.isSome → ∀ p, p < N → (s.proc p).ops = []
  /-- Between transactions the log is empty. -/
  empty : com = none → (∀ p, p < N → (s.proc p).ops = []) → s.mach.log.lh = []
  outstanding : s.mach.log.outstanding = openOps N s
  nodup : s.mach.log.lh.Nodup
  since : ∀ b, b ∈ s.mach.log.lh ↔ b ∈ s.since
  ops : ∀ p, p < N → ∀ o ∈ (s.proc p).ops, o.Nodup ∧ ∀ b ∈ o, b ∈ s.mach.log.lh

variable {N p : Nat} {com com' : Option Nat} {s s' : Sys} {t : Thread}

theorem Ctl.relist {c : Bool} {lh lh' : List Nat}
    (h : Ctl c ops lh k) (hl : c = true → lh' = lh) : Ctl c ops lh' k := by
  cases c with
  | false => exact h.of_false
  | true => rw [hl rfl]; exact h

/-- Changing one process changes a sum over the processes by its own share. -/
theorem sum_proc (f : Thread → Nat) (hp : p < N) (hproc : s'.proc = update s.proc p t) :
    ∑ q ∈ Finset.range N, f (s'.proc q) + f (s.proc p) = ∑ q ∈ Finset.range N, f (s.proc q) + f t := by
  have hmem : p ∈ Finset.range N := Finset.mem_range.mpr hp
  rw [← Finset.add_sum_erase _ _ hmem, ← Finset.add_sum_erase (a := p) _ (fun q => f (s.proc q)) hmem]
  have hrest : ∑ q ∈ (Finset.range N).erase p, f (s'.proc q) =
      ∑ q ∈ (Finset.range N).erase p, f (s.proc q) :=
    Finset.sum_congr rfl fun q hq => by rw [hproc, update_of_ne (Finset.ne_of_mem_erase hq)]
  rw [hrest, hproc, update_self]
  omega

/-- Nobody has an operation open exactly when the sum is zero. -/
theorem openOps_eq_zero : openOps N s = 0 ↔ ∀ p, p < N → (s.proc p).ops = [] := by
  simp [openOps, Finset.sum_eq_zero_iff]

theorem openOps_step (hp : p < N) (hproc : s'.proc = update s.proc p t) :
    openOps N s' + (s.proc p).ops.length = openOps N s + t.ops.length :=
  sum_proc (fun q => q.ops.length) hp hproc

/-- The operations of the others are as they were. -/
theorem ops_eq (hproc : s'.proc = update s.proc p t) (hops : t.ops = (s.proc p).ops) (q : Nat) :
    (s'.proc q).ops = (s.proc q).ops := by
  rw [hproc]
  by_cases hq : q = p
  · subst hq; rw [update_self, hops]
  · rw [update_of_ne hq]

section

variable (hI : LogInv N com s)
include hI

/-- **A turn of `p`.**  The committer may change, and the list if only `p` relies on it. -/
theorem LogInv.turn (hp : p < N) (hproc : s'.proc = update s.proc p t)
    (hlt : ∀ q, com' = some q → q < N) (hcommitting : s'.mach.log.committing = com'.isSome)
    (hctl : Ctl (com' == some p) t.ops s'.mach.log.lh t.todo)
    (hcom : ∀ q, q ≠ p → (com' == some q) = (com == some q))
    (hlist : ∀ q, q ≠ p → (com == some q) = true → s'.mach.log.lh = s.mach.log.lh)
    (halone : com'.isSome → ∀ q, q < N → (s'.proc q).ops = [])
    (hempty : com' = none → (∀ q, q < N → (s'.proc q).ops = []) → s'.mach.log.lh = [])
    (hout : s'.mach.log.outstanding + (s.proc p).ops.length = s.mach.log.outstanding + t.ops.length)
    (hnodup : s'.mach.log.lh.Nodup) (hsince : ∀ b, b ∈ s'.mach.log.lh ↔ b ∈ s'.since)
    (hops : ∀ o ∈ t.ops, o.Nodup ∧ ∀ b ∈ o, b ∈ s'.mach.log.lh)
    (hgrow : ∀ q, q < N → (s.proc q).ops ≠ [] → ∀ b ∈ s.mach.log.lh, b ∈ s'.mach.log.lh) :
    LogInv N com' s' := by
  refine ⟨hlt, hcommitting, ?_, halone, hempty, ?_, hnodup, hsince, ?_⟩
  · intro q hq
    rw [hproc]
    by_cases hqp : q = p
    · subst hqp; rw [update_self]; exact hctl
    · rw [update_of_ne hqp, hcom q hqp]
      exact (hI.ctl q hq).relist (hlist q hqp)
  · have hsum := @openOps_step N p s s' t hp hproc
    have := hI.outstanding
    omega
  · intro q hq o ho
    rw [hproc] at ho
    by_cases hqp : q = p
    · subst hqp; rw [update_self] at ho; exact hops o ho
    · grind [LogInv]

/-- A step of `p` that leaves the log and the open operations alone. -/
theorem LogInv.quiet (hp : p < N) (hlog : s'.mach.log = s.mach.log)
    (hsince : s'.since = s.since) (hproc : s'.proc = update s.proc p t)
    (hops : t.ops = (s.proc p).ops) (hctl : Ctl (com == some p) (s.proc p).ops s.mach.log.lh t.todo) :
    LogInv N com s' := by
  have hall := ops_eq hproc hops
  have hlh : s'.mach.log.lh = s.mach.log.lh := congrArg Log.lh hlog
  refine hI.turn hp hproc hI.com_lt (by rw [hlog]; exact hI.committing) (by rw [hlh, hops]; exact hctl)
    (fun _ _ => rfl) (fun _ _ _ => hlh) (fun hc q hq => (hall q).trans (hI.alone hc q hq)) ?_
    (by rw [hlog, hops]) (by rw [hlh]; exact hI.nodup) (by rw [hlh, hsince]; exact hI.since)
    (by rw [hlh, hops]; exact hI.ops p hp) fun _ _ _ _ hb => by rw [hlh]; exact hb
  intro hc h
  rw [hlh]
  exact hI.empty hc fun q hq => (hall q).symm.trans (h q hq)

/-! ## The steps that touch the log -/

/-- A process with an open operation keeps everybody from committing. -/
theorem LogInv.no_committer (hp : p < N) (h : (s.proc p).ops ≠ []) : com = none := by
  cases com with
  | none => rfl
  | some q => exact absurd (hI.alone rfl p hp) h

theorem LogInv.com_none (h : s.mach.log.committing = false) : com = none := by
  rw [hI.committing] at h
  exact Option.isNone_iff_eq_none.mp (Option.isSome_eq_false_iff.mp h)

omit hI in
/-- The committer is the one whose code says so. -/
theorem committer_eq {com : Option Nat} (h : (com == some p) = true) : com = some p := by
  simpa using h

omit hI in
theorem not_committer {q : Nat} (h : com = some p) (hq : q ≠ p) : (com == some q) = false := by
  subst h; simpa using Ne.symm hq

omit hI in
theorem addLog_log (s : Sys) (p : Nat) (k : List Act) (r : Reg) :
    (s.addLog p k r).mach.log = { s.mach.log with
      lh := addBlock s.mach.log.lh (s.mach.buf (s.ptr p r)).blockno } := by
  simp only [addLog, updProc, addBlock, Mach.record]
  split <;> rfl

theorem LogInv.addLog (hp : p < N) (r : Reg) (hops : (s.proc p).ops ≠ []) :
    LogInv N com (s.addLog p [] r) := by
  obtain rfl := hI.no_committer hp hops
  have hlog := addLog_log s p [] r
  have hgrow : ∀ c ∈ s.mach.log.lh, c ∈ (s.addLog p [] r).mach.log.lh := fun c hc => by
    rw [hlog]; exact mem_addBlock.mpr (.inl hc)
  refine hI.turn hp rfl nofun (by rw [hlog]; exact hI.committing) rfl (fun _ _ => rfl)
    (fun _ _ h => nomatch h) nofun ?_ (by rw [hlog]; simp) (by rw [hlog]; exact addBlock_nodup hI.nodup) ?_ ?_
    fun _ _ _ => hgrow
  · intro _ h
    have := h p hp
    rw [show (s.addLog p [] r).proc p = _ from updProc_self _] at this
    exact absurd (map_eq_nil_iff.mp this) hops
  · intro c
    show _ ↔ c ∈ s.since ++ [_]
    rw [hlog, mem_addBlock, hI.since]
    simp
  · intro o ho
    obtain ⟨o', ho', rfl⟩ := mem_map.mp ho
    obtain ⟨hnd, hsub⟩ := hI.ops p hp o' ho'
    rw [hlog]
    refine ⟨addBlock_nodup hnd, fun c hc => mem_addBlock.mpr ?_⟩
    exact (mem_addBlock.mp hc).imp_left (hsub c)

omit hI in
/-- `begin_op` is let in only while nobody commits. -/
theorem admits_committing {l : Log} (h : Mach.admits l = true) : l.committing = false := by
  simp only [Mach.admits, Bool.and_eq_true, Bool.not_eq_true'] at h
  exact h.1

theorem LogInv.beginOp (hp : p < N) (hadm : Mach.admits s.mach.log = true)
    (hlog : s'.mach.log = { s.mach.log with outstanding := s.mach.log.outstanding + 1 })
    (hs : Still p s s' [] ([] :: (s.proc p).ops)) : LogInv N com s' := by
  obtain rfl := hI.com_none (admits_committing hadm)
  refine hI.turn hp hs.proc nofun (by rw [hlog]; exact hI.committing) rfl (fun _ _ => rfl)
    (fun _ _ h => nomatch h) nofun ?_ ?_ (by rw [hs.lh]; exact hI.nodup)
    (by rw [hs.lh, hs.since]; exact hI.since) ?_ fun _ _ _ _ hb => by rw [hs.lh]; exact hb
  · intro _ h
    have := h p hp
    rw [hs.proc, update_self] at this
    cases this
  · rw [hlog, length_cons]
    simp only
    omega
  · grind [LogInv]

omit hI in
theorem length_tail (h : ops ≠ []) : (ops.tail.length : Int) = ops.length - 1 := by
  have := length_pos_iff.mpr h
  rw [List.length_tail]
  omega

/-- One operation less. -/
theorem LogInv.openOps_pop (hp : p < N) (hops : (s.proc p).ops ≠ [])
    (hs : Still p s s' k (s.proc p).ops.tail) : (openOps N s' : Int) = s.mach.log.outstanding - 1 := by
  have hsum := openOps_step hp hs.proc
  have hlen := length_tail hops
  have := hI.outstanding
  simp only at hsum
  omega

end

/-- `end_op` with other operations still open. -/
theorem LogInv.leave (hI : LogInv N none s) (hp : p < N) (hops : (s.proc p).ops ≠ [])
    (hout : s.mach.log.outstanding - 1 ≠ 0)
    (hlog : s'.mach.log = { s.mach.log with outstanding := s.mach.log.outstanding - 1 })
    (hs : Still p s s' [] (s.proc p).ops.tail) : LogInv N none s' := by
  have hlen := length_tail hops
  refine hI.turn hp hs.proc nofun (by rw [hlog]; exact hI.committing) rfl (fun _ _ => rfl)
    (fun _ _ h => nomatch h) nofun ?_ (by rw [hlog]; simp only; omega) (by rw [hs.lh]; exact hI.nodup)
    (by rw [hs.lh, hs.since]; exact hI.since) ?_ fun _ _ _ _ hb => by rw [hs.lh]; exact hb
  · intro _ h
    have hpop := hI.openOps_pop hp hops hs
    rw [openOps_eq_zero.mpr h] at hpop
    exact absurd hpop.symm hout
  · intro o ho
    rw [hs.lh]
    exact hI.ops p hp o (mem_of_mem_tail ho)

/-- The last `end_op`: the process becomes the committer. -/
theorem LogInv.lastOut (hI : LogInv N none s) (hp : p < N) (hops : (s.proc p).ops ≠ [])
    (hout : s.mach.log.outstanding - 1 = 0)
    (hlog : s'.mach.log = { s.mach.log with
      outstanding := s.mach.log.outstanding - 1, committing := true })
    (hs : Still p s s' [.commit, .committed] (s.proc p).ops.tail) : LogInv N (some p) s' := by
  have hpop := hI.openOps_pop hp hops hs
  have hnone : ∀ q, q < N → (s'.proc q).ops = [] := openOps_eq_zero.mp (by omega)
  have htail : (s.proc p).ops.tail = [] := by
    have := hnone p hp
    rwa [hs.proc, update_self] at this
  have hlen := length_tail hops
  refine hI.turn hp hs.proc (fun q hq => Option.some.inj hq ▸ hp) (by rw [hlog]; rfl) ?_
    (fun q hq => not_committer rfl hq) (fun _ _ h => nomatch h) (fun _ => hnone) nofun
    (by rw [hlog]; simp only; omega) (by rw [hs.lh]; exact hI.nodup)
    (by rw [hs.lh, hs.since]; exact hI.since) ?_ fun _ _ _ _ hb => by rw [hs.lh]; exact hb
  · rw [beq_self_eq_true]
    exact ⟨rfl, rfl, rfl, rfl⟩
  · rw [htail]
    exact fun o ho => absurd ho not_mem_nil

/-- `log.lh.n = 0`. -/
theorem LogInv.clearLh (hI : LogInv N (some p) s) (hp : p < N)
    (hk : Ctl true (s.proc p).ops [] k) : LogInv N (some p)
      (({ s with mach := s.mach.setLh [], since := [], unpinned := 0 } : Sys).goto p k) := by
  have hall := @ops_eq p s (({ s with mach := s.mach.setLh [], since := [], unpinned := 0 } : Sys).goto p k)
    _ rfl rfl
  refine hI.turn hp rfl hI.com_lt hI.committing ?_ (fun _ _ => rfl) ?_
    (fun hc q hq => (hall q).trans (hI.alone hc q hq)) nofun rfl nodup_nil
    (fun _ => Iff.rfl) ?_ fun q hq h => absurd (hI.alone rfl q hq) h
  · rw [beq_self_eq_true]
    exact hk
  · intro q hq h
    rw [not_committer rfl hq] at h
    cases h
  · intro o ho
    rw [hI.alone rfl p hp] at ho
    exact absurd ho not_mem_nil

/-- `log.committing = 0`, with the log empty again. -/
theorem LogInv.committed (hI : LogInv N (some p) s) (hp : p < N) (hlh : s.mach.log.lh = [])
    (hlog : s'.mach.log = { s.mach.log with committing := false })
    (hs : Still p s s' [] (s.proc p).ops) : LogInv N none s' := by
  refine hI.turn hp hs.proc nofun (by rw [hlog]; rfl) rfl (fun q hq => (not_committer rfl hq).symm)
    (fun _ _ _ => hs.lh) nofun (fun _ _ => hs.lh.trans hlh) (by rw [hlog]) (by rw [hs.lh]; exact hI.nodup)
    (by rw [hs.lh, hs.since]; exact hI.since) ?_ fun _ _ _ _ hb => by rw [hs.lh]; exact hb
  rw [hs.lh]
  exact hI.ops p hp

/-! ## Every step -/

/-- Who commits after process `p` has run the act. -/
def nextCom (s : Sys) (p : Nat) (com : Option Nat) : Act → Option Nat
  | .endOp => if s.mach.log.outstanding - 1 = 0 then some p else com
  | .committed => none
  | _ => com

theorem nextCom_plain (ha : a.Plain) : nextCom s p com a = com := by
  cases a <;> first | rfl | exact ha.elim

/-- The code after a plain act is that of the same part. -/
theorem Ctl.after {c : Bool} (ha : a.Plain)
    (h : Ctl c ops s.mach.log.lh (a :: k)) : Ctl c ops s.mach.log.lh (s.after k a) := by
  cases a with
  | fetch | store | copy | putHead | bwrite | checkLog => exact h
  | commit =>
    simp only [Sys.after]
    split
    · exact ⟨h.1, h.1, h.1, h.2⟩
    · next hlh =>
      rw [length_eq_zero_iff.mp (Nat.eq_zero_of_not_pos hlh)]
      exact h.2
  | writeLog =>
    simp only [Sys.after]
    split
    · exact ⟨h.1, h.1, h.2⟩
    · exact h.2
  | installTrans =>
    simp only [Sys.after]
    split
    · exact ⟨h.1, h.1, h.1, h.2⟩
    · exact h.2
  | _ => exact ha.elim

theorem LogInv.exec (hI : LogInv N com s) (hp : p < N)
    (htodo : (s.proc p).todo = a :: k) (h : s.exec p k a = .ok s') :
    LogInv N (nextCom s p com a) s' := by
  have hctl := hI.ctl p hp
  rw [htodo] at hctl
  cases exec_did h with
  | bget h =>
    obtain ⟨i, bc, -, rfl⟩ := bget_ok h
    exact hI.quiet hp rfl rfl rfl rfl hctl
  | bgetLh h =>
    obtain ⟨i, bc, -, rfl⟩ := bget_ok h
    exact hI.quiet hp rfl rfl rfl rfl hctl.2
  | brelse h =>
    obtain ⟨-, rfl⟩ := brelse_ok h
    exact hI.quiet hp rfl rfl rfl rfl hctl
  | bunpin hs =>
    subst hs
    exact hI.quiet hp rfl rfl rfl rfl hctl.2
  | addLog hs =>
    subst hs
    obtain ⟨-, hops, rfl⟩ := hctl
    exact hI.addLog hp _ hops
  | clearLh hs =>
    subst hs
    obtain ⟨hc, hk⟩ := hctl
    obtain rfl := committer_eq hc
    rw [beq_self_eq_true] at hk
    exact hI.clearLh hp hk
  | beginOp hadm hlog hs =>
    obtain ⟨-, rfl⟩ := hctl
    exact hI.beginOp hp hadm hlog hs
  | leave hc hout hlog hs =>
    obtain ⟨-, hops, rfl⟩ := hctl
    obtain rfl := hI.com_none hc
    rw [nextCom, if_neg hout]
    exact hI.leave hp hops hout hlog hs
  | lastOut hc hout hlog hs =>
    obtain ⟨-, hops, rfl⟩ := hctl
    obtain rfl := hI.com_none hc
    rw [nextCom, if_pos hout]
    exact hI.lastOut hp hops hout hlog hs
  | committed hlog hs =>
    obtain ⟨hc, hlh, rfl⟩ := hctl
    obtain rfl := committer_eq hc
    exact hI.committed hp hlh hlog hs
  | plain ha hlog hs =>
    rw [nextCom_plain ha]
    exact hI.quiet hp hlog hs.since hs.proc rfl (hctl.after ha)

/-- The code of a legal call fits a process that is not the committer. -/
theorem Ctl.call {lh : List Nat} (hl : s.Legal p c) : Ctl false (s.proc p).ops lh c.code := by
  cases c with
  | logWrite r => exact ⟨rfl, hl.2, rfl⟩
  | beginOp => exact ⟨rfl, rfl⟩
  | endOp => exact ⟨rfl, hl, rfl⟩
  | _ => rfl

/-- A process between two calls makes one. -/
theorem LogInv.call (hI : LogInv N com s) (hp : p < N) (hl : s.Legal p c)
    (hnil : (s.proc p).todo = []) : LogInv N com (s.goto p c.code) := by
  have hc := hI.ctl p hp
  rw [hnil] at hc
  refine hI.quiet hp rfl rfl rfl rfl ?_
  rw [show (com == some p) = false from hc]
  exact Ctl.call hl

theorem LogInv.step (hI : LogInv N com s) (hp : p < N) (hl : s.Legal p c)
    (h : s.step p c = .ok s') : ∃ com', LogInv N com' s' := by
  rcases step_cases h with ⟨r, hpend, -, rfl⟩ | ⟨i, hpend, rfl⟩ | ⟨-, hnil, rfl⟩ | ⟨a, k, -, htodo, h⟩
  · exact ⟨com, hI.quiet hp rfl rfl rfl rfl (hI.ctl p hp)⟩
  · exact ⟨com, hI.quiet hp rfl rfl rfl rfl (hI.ctl p hp)⟩
  · exact ⟨com, hI.call hp hl hnil⟩
  · exact ⟨_, hI.exec hp htodo h⟩

/-! ## The room in the log -/

/-- What a step of `p` can do to the log's list and to `p`'s open operations, `t` being `p` after it. -/
inductive OpStep (p : Nat) (s s' : Sys) (t : Thread) : Prop
  | quiet (hlh : s'.mach.log.lh = s.mach.log.lh) (hops : t.ops = (s.proc p).ops)
  | log {r : Reg} {k : List Act} {b : Nat} (hcode : (s.proc p).todo = .addLog r :: k)
      (hlh : s'.mach.log.lh = addBlock s.mach.log.lh b)
      (hops : t.ops = (s.proc p).ops.map fun o => addBlock o b)
  | open_ (hadm : Mach.admits s.mach.log = true) (hlh : s'.mach.log.lh = s.mach.log.lh)
      (hops : t.ops = [] :: (s.proc p).ops)
  | close (hlh : s'.mach.log.lh = s.mach.log.lh) (hops : t.ops = (s.proc p).ops.tail)
  | clear (hlh : s'.mach.log.lh = []) (hops : t.ops = (s.proc p).ops)

theorem step_op (h : s.step p c = .ok s') : ∃ t, s'.proc = update s.proc p t ∧
    s'.mach.log.start = s.mach.log.start ∧ s'.mach.log.size = s.mach.log.size ∧ OpStep p s s' t := by
  rcases step_cases h with ⟨r, -, -, rfl⟩ | ⟨i, -, rfl⟩ | ⟨-, -, rfl⟩ | ⟨a, k, -, htodo, h⟩
  · exact ⟨_, rfl, rfl, rfl, .quiet rfl rfl⟩
  · exact ⟨_, rfl, rfl, rfl, .quiet rfl rfl⟩
  · exact ⟨_, rfl, rfl, rfl, .quiet rfl rfl⟩
  cases exec_did h with
  | bget h | bgetLh h =>
    obtain ⟨i, bc, -, rfl⟩ := bget_ok h
    exact ⟨_, rfl, rfl, rfl, .quiet rfl rfl⟩
  | brelse h =>
    obtain ⟨-, rfl⟩ := brelse_ok h
    exact ⟨_, rfl, rfl, rfl, .quiet rfl rfl⟩
  | bunpin hs =>
    subst hs
    exact ⟨_, rfl, rfl, rfl, .quiet rfl rfl⟩
  | @addLog r hs =>
    subst hs
    have hlog := addLog_log s p k r
    exact ⟨_, rfl, by rw [hlog], by rw [hlog], .log htodo (congrArg Log.lh hlog) rfl⟩
  | clearLh hs =>
    subst hs
    exact ⟨_, rfl, rfl, rfl, .clear rfl rfl⟩
  | beginOp hadm hlog hs => exact ⟨_, hs.proc, by rw [hlog], by rw [hlog], .open_ hadm hs.lh rfl⟩
  | leave _ _ hlog hs | lastOut _ _ hlog hs => exact ⟨_, hs.proc, by rw [hlog], by rw [hlog], .close hs.lh rfl⟩
  | committed hlog hs | plain _ hlog hs => exact ⟨_, hs.proc, by rw [hlog], by rw [hlog], .quiet hs.lh rfl⟩

/-- Every open operation has logged at most `Q` distinct blocks. -/
def Quota (Q N : Nat) (s : Sys) : Prop := ∀ p, p < N → ∀ o ∈ (s.proc p).ops, o.length ≤ Q

instance (Q N : Nat) : DecidablePred (Quota Q N) := fun _ =>
  inferInstanceAs (Decidable (∀ _, _ < N → _))

/-- What the open operations of a process may still log. -/
def unused (Q : Nat) (q : Thread) : Nat := (q.ops.map fun o => Q - o.length).sum

/-- The log's blocks and everything the open operations may still add fit into `B`. -/
def Reserved (Q B N : Nat) (s : Sys) : Prop :=
  s.mach.log.lh.length + ∑ p ∈ Finset.range N, unused Q (s.proc p) ≤ B

variable {Q B : Nat}

/-- Logging a block uses up a reservation of every operation it is new to. -/
theorem unused_add {b : Nat} (h : ∀ o ∈ ops, b ∉ o) (hq : ∀ o ∈ ops, (addBlock o b).length ≤ Q) :
    ((ops.map fun o => addBlock o b).map fun o => Q - o.length).sum + ops.length =
      (ops.map fun o => Q - o.length).sum := by
  induction ops with
  | nil => rfl
  | cons o os ih =>
    grind [addBlock]

theorem unused_absorb (ops : List (List Nat)) (b : Nat) :
    ((ops.map fun o => addBlock o b).map fun o => Q - o.length).sum ≤
      (ops.map fun o => Q - o.length).sum := by
  induction ops with
  | nil => exact le_rfl
  | cons o os ih =>
    grind [addBlock]

theorem unused_le (ops : List (List Nat)) : (ops.map fun o => Q - o.length).sum ≤ ops.length * Q := by
  induction ops with
  | nil => simp
  | cons o os ih =>
    simp only [map_cons, sum_cons, length_cons, Nat.add_mul]
    omega

/-- The reservations hold up under every step, if the numbers do at an admission. -/
theorem Reserved.step (hR : Reserved Q B N s) (hI : LogInv N com s) (hp : p < N)
    (h : s.step p c = .ok s') (hq : Quota Q N s')
    (hnum : ∀ n k : Nat, n + (k + 1) * MAXOPBLOCKS ≤ LOGSIZE → (k = 0 → n = 0) →
      n + (k + 1) * Q ≤ B) : Reserved Q B N s' := by
  obtain ⟨t, hproc, -, -, hop⟩ := step_op h
  have hsum := sum_proc (unused Q) hp hproc
  unfold Reserved at hR ⊢
  unfold unused at hsum hR ⊢
  cases hop with
  | quiet hlh hops =>
    rw [hops] at hsum
    rw [hlh]
    omega
  | @log r k b hcode hlh hops =>
    have hctl := hI.ctl p hp
    rw [hcode] at hctl
    have hpos : 0 < (s.proc p).ops.length := length_pos_iff.mpr hctl.2.1
    rw [hops] at hsum
    rw [hlh]
    by_cases hb : b ∈ s.mach.log.lh
    · have := @unused_absorb Q (s.proc p).ops b
      rw [addBlock, if_pos hb]
      omega
    · have hnew : ∀ o ∈ (s.proc p).ops, b ∉ o := by
        intro o ho hbo
        exact hb ((hI.ops p hp o ho).2 b hbo)
      have hfit : ∀ o ∈ (s.proc p).ops, (addBlock o b).length ≤ Q := by
        intro o ho
        refine hq p hp _ ?_
        rw [hproc, update_self, hops]
        exact mem_map_of_mem ho
      have := unused_add hnew hfit
      rw [addBlock, if_neg hb, length_append, length_singleton]
      omega
  | open_ hadm hlh hops =>
    have hcom := admits_committing hadm
    have hout := hI.outstanding
    have hall : ∑ q ∈ Finset.range N, ((s.proc q).ops.map fun o => Q - o.length).sum ≤ openOps N s * Q := by
      rw [openOps, Finset.sum_mul]
      exact Finset.sum_le_sum fun q _ => unused_le _
    have hfit : s.mach.log.lh.length + (openOps N s + 1) * MAXOPBLOCKS ≤ LOGSIZE := by
      grind [Mach.admits]
    have hempty : openOps N s = 0 → s.mach.log.lh.length = 0 := by
      intro hz
      rw [hI.empty (hI.com_none hcom) (openOps_eq_zero.mp hz), length_nil]
    have hB := hnum _ _ hfit hempty
    rw [hops, map_cons, sum_cons, length_nil] at hsum
    rw [hlh]
    rw [Nat.add_mul] at hB
    omega
  | close hlh hops =>
    have hle : ((s.proc p).ops.tail.map fun o => Q - o.length).sum ≤
        ((s.proc p).ops.map fun o => Q - o.length).sum := by
      cases (s.proc p).ops with
      | nil => exact le_rfl
      | cons o os => rw [tail_cons, map_cons, sum_cons]; omega
    rw [hops] at hsum
    rw [hlh]
    omega
  | clear hlh hops =>
    rw [hops] at hsum
    rw [hlh, length_nil]
    omega

/-! ## From boot -/

/-- However the boot went, the log starts out empty. -/
theorem LogInv.boot {m : Mach} {start size : Nat} (h : m.log = ⟨start, size, 0, false, []⟩) (N : Nat) :
    LogInv N none (Sys.boot m) := by
  have hlog : (Sys.boot m).mach.log = ⟨start, size, 0, false, []⟩ := h
  refine ⟨nofun, by rw [hlog]; rfl, fun p _ => rfl, nofun, fun _ _ => by rw [hlog], ?_,
    by rw [hlog]; exact nodup_nil, by rw [hlog]; simp [Sys.boot], ?_⟩
  · rw [hlog, openOps_eq_zero.mpr fun p _ => rfl]; rfl
  · intro p _ o ho
    exact absurd ho not_mem_nil

variable {G : Sys → Prop} {m : Mach} {start size : Nat}

theorem Reach.logInv (h : m.log = ⟨start, size, 0, false, []⟩) (hr : Reach N G (Sys.boot m) s) :
    (∃ com, LogInv N com s) ∧ s.mach.log.size = size := by
  have key := hr.invariant (I := fun s => (∃ com, LogInv N com s) ∧ s.mach.log.size = size)
    (fun _ => ⟨⟨none, LogInv.boot h N⟩, congrArg Log.size h⟩) ?_
  · exact key.1
  · rintro s1 s2 p c hp hl hs - - ⟨⟨com, hI⟩, hsize⟩
    obtain ⟨_, -, -, hkeep, -⟩ := step_op hs
    exact ⟨hI.step hp hl hs, hkeep.trans hsize⟩

/-- The list holds the distinct blocks logged since the last commit. -/
theorem LogInv.length_lh (hI : LogInv N com s) : s.mach.log.lh.length = s.since.toFinset.card := by
  rw [← toFinset_card_of_nodup hI.nodup]
  congr 1
  ext b
  rw [mem_toFinset, mem_toFinset, hI.since]

/-- The only way to the panic. -/
theorem tooBig_iff : s.step p c = .error (.panic "too big a transaction") ↔
    (s.proc p).pend = none ∧ (∃ k, (s.proc p).todo = .checkLog :: k) ∧
      (LOGSIZE ≤ s.mach.log.lh.length ∨ s.mach.log.size ≤ s.mach.log.lh.length + 1) := by
  constructor
  · intro h
    obtain ⟨hp, a, k, ht, h⟩ := step_panic h
    cases a with
    | checkLog =>
      grind [exec]
    | bget | bgetLh => simp only [exec, bget] at h; split at h <;> simp at h
    | brelse => simp only [exec, brelse] at h; split at h <;> simp at h
    | bwrite | beginOp => simp only [exec] at h; split at h <;> simp at h
    | endOp =>
      simp only [exec, endOp] at h
      split at h
      · simp at h
      · split at h <;> cases h
    | _ => cases h
  · rintro ⟨hp, ⟨k, ht⟩, hbig⟩
    simp only [step, hp, ht, exec, hbig, if_true]

/-- **The log's room.**  Boot any disk with the log `mkfs` lays out (`LOGSIZE` blocks with the
    header) and let any number of processes run operations in any order.

    A `log_write` panics exactly when the operations since the last commit have already logged
    `LOGSIZE - 1` distinct blocks: the log is one block smaller than what `begin_op` reserves
    against.  Operations that log at most `MAXOPBLOCKS - 1` distinct blocks each never get there. -/
theorem log_room {me : Nat} {d : Nat → Block}
    (hboot : initlog (bootMach me d) start LOGSIZE = .ok m) (N : Nat) :
    (∀ s, Reach N (fun _ => True) (Sys.boot m) s → ∀ p c,
      (s.step p c = .error (.panic "too big a transaction") ↔
        (s.proc p).pend = none ∧ (∃ k, (s.proc p).todo = .checkLog :: k) ∧
          LOGSIZE - 1 ≤ s.since.toFinset.card)) ∧
    (∀ s, Reach N (Quota (MAXOPBLOCKS - 1) N) (Sys.boot m) s → ∀ p c,
      s.step p c ≠ .error (.panic "too big a transaction")) := by
  have hlog := initlog_log hboot
  constructor
  · intro s hr p c
    obtain ⟨⟨com, hI⟩, hsize⟩ := hr.logInv hlog
    rw [tooBig_iff, hsize, ← hI.length_lh]
    have hiff : (LOGSIZE ≤ s.mach.log.lh.length ∨ LOGSIZE ≤ s.mach.log.lh.length + 1) ↔
        LOGSIZE - 1 ≤ s.mach.log.lh.length := by omega
    rw [hiff]
  · intro s hr p c hbad
    -- nine blocks an operation: the reservations leave room for 28 blocks at most
    have key := hr.invariant (I := fun s => ((∃ com, LogInv N com s) ∧ s.mach.log.size = LOGSIZE) ∧
        Reserved (MAXOPBLOCKS - 1) 28 N s)
      (fun _ => ⟨⟨⟨none, LogInv.boot hlog N⟩, congrArg Log.size hlog⟩, ?_⟩) ?_
    · obtain ⟨⟨-, hsize⟩, hR⟩ := key.1
      obtain ⟨-, -, hbig⟩ := tooBig_iff.mp hbad
      rw [hsize] at hbig
      unfold Reserved at hR
      have : LOGSIZE = 30 := rfl
      omega
    · have hlh : (Sys.boot m).mach.log.lh = [] := congrArg Log.lh hlog
      rw [Reserved, hlh]
      simp [unused, Sys.boot, Thread.idle]
    · rintro s1 s2 p c hp hl hs - hq ⟨⟨⟨com, hI⟩, hsize⟩, hR⟩
      obtain ⟨_, -, -, hkeep, -⟩ := step_op hs
      refine ⟨⟨hI.step hp hl hs, hkeep.trans hsize⟩, hR.step hI hp hs hq ?_⟩
      intro n k hfit hempty
      simp only [MAXOPBLOCKS, LOGSIZE] at hfit ⊢
      omega

theorem log_room_three : ∃ m, initlog (bootMach 1 fun _ _ => 0) 2 LOGSIZE = .ok m ∧
      (∀ s, Reach 3 (fun _ => True) (Sys.boot m) s → ∀ p c,
        (s.step p c = .error (.panic "too big a transaction") ↔
          (s.proc p).pend = none ∧ (∃ k, (s.proc p).todo = .checkLog :: k) ∧
            LOGSIZE - 1 ≤ s.since.toFinset.card)) ∧
      (∀ s, Reach 3 (Quota (MAXOPBLOCKS - 1) 3) (Sys.boot m) s → ∀ p c,
        s.step p c ≠ .error (.panic "too big a transaction")) := by
  obtain ⟨m, hboot, -⟩ := boot_quiet 2 LOGSIZE 1 (d := fun _ _ => 0) (by decide)
  exact ⟨m, hboot, log_room hboot 3⟩

/-- `bread`, `log_write` and `brelse` of one block. -/
def logOne (p b : Nat) : List (Nat × Call) :=
  List.replicate 4 (p, .bread 0 b) ++ List.replicate 3 (p, .logWrite 0) ++ List.replicate 3 (p, .brelse 0)

/-- Three operations, admitted together, that log ten blocks each; the last one stops right before
    its tenth `log_write`. -/
def fullUse : List (Nat × Call) :=
  (List.range 3).flatMap (fun p => List.replicate 2 (p, .beginOp)) ++
    (List.range 29).flatMap (fun i => logOne (i % 3) (100 + i)) ++
    List.replicate 4 (2, .bread 0 129) ++ [(2, .logWrite 0)]

def fullUseRun : Option Err := do
  let m ← (initlog (bootMach 1 fun _ _ => 0) 2 LOGSIZE).toOption
  let s ← schedule 3 (Quota MAXOPBLOCKS 3) fullUse (Sys.boot m)
  match s.step 2 .beginOp with
  | .error e => some e
  | .ok _ => none

theorem fullUseRun_eq : fullUseRun = some (.panic "too big a transaction") := by decide +kernel

/-- Three operations within `MAXOPBLOCKS` blocks each, all admitted, and the thirtieth block
    panics. -/
theorem full_quota_panics : ∃ m s, initlog (bootMach 1 fun _ _ => 0) 2 LOGSIZE = .ok m ∧
    Reach 3 (Quota MAXOPBLOCKS 3) (Sys.boot m) s ∧
    s.step 2 .beginOp = .error (.panic "too big a transaction") := by
  have h := fullUseRun_eq
  unfold fullUseRun at h
  obtain ⟨m, hm, h⟩ := Option.bind_eq_some_iff.mp h
  obtain ⟨s, hs, h⟩ := Option.bind_eq_some_iff.mp h
  refine ⟨m, s, toOption_eq_some hm, schedule_reach (.start ?_) hs, ?_⟩
  · intro p _ o ho
    exact absurd ho not_mem_nil
  · grind

end Xv6
