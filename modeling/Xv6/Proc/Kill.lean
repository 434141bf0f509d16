/-
  KILL: who is hit by `kill(pid)`.

  `kill` compares pids and never looks at the state: it takes the FIRST slot of the table that has the
  pid, also when no process is in it.  An UNUSED slot has pid 0, or the pid a failed `allocproc` left
  there.  A mark on such a slot is not cleared by `allocproc`, so the next process in it is born killed.

  `Targets` says that the slot which `kill` finds is in use.  As long as every call of a run meets it an
  UNUSED slot is not marked (`Unmarked`); a call then does what it should EXACTLY when it meets it too.
-/
import Xv6.Proc.Reap

namespace Xv6.Ptable

open Function List

/-! ## One call -/

/-- `kill(pid)` returns 0 if and only if a process has the pid, then it marks that process and changes
    nothing else; and it changes nothing when it fails. -/
def KillOk (t : Table) (pid : Int) : Prop :=
  ((t.kill pid).1 = 0 ↔ ∃ q, q < NPROC ∧ (t.slot q).Used ∧ (t.slot q).pid = pid) ∧
  ((t.kill pid).1 = 0 → ∃ q, q < NPROC ∧ (t.slot q).Used ∧ (t.slot q).pid = pid ∧
    (t.kill pid).2 = t.upd q Slot.mark) ∧
  ((t.kill pid).1 ≠ 0 → (t.kill pid).2 = t)

/-- The first slot that has the pid, if there is one, is in use. -/
def Targets (t : Table) (pid : Int) : Prop := ∀ q, t.target pid = some q → (t.slot q).Used

/-- No free slot is marked as killed. -/
def Unmarked (t : Table) : Prop := ∀ q, (t.slot q).state = .unused → (t.slot q).killed = false

/-- Every `kill` of the run finds a slot in use, or none. -/
def AllTarget (t : Table) (e : Event) : Prop := ∀ pid ret, e = .kill pid ret → Targets t pid

section Kill

variable {t t' : Table} {e : Event} {q : Nat} {pid : Int}

theorem killOk_of_targets (ht : Targets t pid) : KillOk t pid := by
  rcases kill_cases t pid with ⟨q, htgt, hq, hpid, hk⟩ | ⟨-, hno, hk⟩
  · have hused := ht q htgt
    unfold KillOk
    rw [hk]
    refine ⟨iff_of_true rfl ⟨q, hq, hused, hpid⟩, fun _ => ⟨q, hq, hused, hpid, rfl⟩, ?_⟩
    intro hne
    exact absurd rfl hne
  · grind [KillOk]

/-- A `kill` that finds a free slot marks it, and no process. -/
theorem targets_of_killOk (hm : Unmarked t) (hk : KillOk t pid) : Targets t pid := by
  intro q htgt hun
  rcases kill_cases t pid with ⟨q1, htgt1, -, -, heq⟩ | ⟨hnone, -, -⟩
  · obtain rfl : q = q1 := Option.some.inj (htgt.symm.trans htgt1)
    obtain ⟨-, hwho, -⟩ := hk
    rw [heq] at hwho
    obtain ⟨q', -, hused, -, htab⟩ := hwho rfl
    have hne : q ≠ q' := by
      rintro rfl
      exact hused hun
    -- the flag of slot `q` tells the two tables apart
    have hslot : (t.slot q).mark = t.slot q := by
      have := congrArg (fun s : Table => s.slot q) htab
      simpa only [upd_self, upd_ne hne] using this
    have hkilled : (t.slot q).killed = true := by
      rw [← hslot]
      rfl
    rw [hm q hun] at hkilled
    cases hkilled
  · rw [hnone] at htgt
    cases htgt

/-! ## Runs -/

theorem boot_unmarked : Unmarked boot := by
  intro q hq
  unfold boot at hq ⊢
  dsimp only at hq ⊢
  split
  · rfl
  · rfl

/-- A step leaves the flags of free slots alone, unless it is a `kill` that finds one. -/
theorem Unmarked.step (hm : Unmarked t) (hg : AllTarget t e) (hs : Step t e t') : Unmarked t' := by
  intro q hq
  cases hs with
  | @forked _ p np pid mem hp hrun hf =>
    obtain ⟨-, -, -, hslot⟩ := fork_some hf
    rw [hslot] at hq ⊢
    by_cases hqn : q = np
    · subst hqn
      rw [update_self] at hq
      cases hq
    · rw [update_of_ne hqn] at hq ⊢
      exact hm q hq
  | forkFailed hp hrun hf =>
    rcases fork_none hf with he | ⟨q', -, hun, he⟩
    · rw [he] at hq ⊢
      exact hm q hq
    · by_cases hqq : q = q'
      · subst hqq
        rcases he with he | he
        · rw [he, update_self]
          exact hm q hun
        · rw [he, update_self]
          rfl
      · have hsame : t'.slot q = t.slot q := by
          rcases he with he | he
          · rw [he, update_of_ne hqq]
          · rw [he, update_of_ne hqq]
        rw [hsame] at hq ⊢
        exact hm q hq
  | @exited _ p status hp hrun he =>
    have hx := exit_some he
    have hqp : q ≠ p := by
      rintro rfl
      rw [hx.self.1] at hq
      cases hq
    rw [hx.killed q]
    exact hm q ((hx.unused q hqp).mp hq)
  | @reaped _ p np pid um addr hp hrun hw =>
    obtain ⟨-, -, -, -, -, rfl⟩ := wait_reaped hw
    by_cases hqn : q = np
    · subst hqn
      rw [upd_self]
      rfl
    · rw [upd_ne hqn] at hq ⊢
      exact hm q hq
  | waitFailed hp hrun hw =>
    obtain ⟨rfl, -⟩ := wait_failed hw
    exact hm q hq
  | @waits _ p um addr hp hrun hw =>
    obtain rfl := wait_sleeps hw
    by_cases hqp : q = p
    · subst hqp
      rw [upd_self] at hq
      cases hq
    · rw [upd_ne hqp] at hq ⊢
      exact hm q hq
  | kill pid =>
    rcases kill_cases t pid with ⟨q', htgt, -, -, hk⟩ | ⟨-, -, hk⟩
    · rw [hk] at hq ⊢
      by_cases hqq : q = q'
      · subst hqq
        rw [upd_self] at hq
        exact absurd ((mark_state _).1.mp hq) (hg _ _ rfl q htgt)
      · rw [upd_ne hqq] at hq ⊢
        exact hm q hq
    · rw [hk] at hq ⊢
      exact hm q hq
  | @fault p hp hrun =>
    have hqp : q ≠ p := by
      rintro rfl
      rw [upd_self] at hq
      rw [hq] at hrun
      cases hrun
    rw [upd_ne hqp] at hq ⊢
    exact hm q hq
  | @sched p s chan hp hfrom hto =>
    have hqp : q ≠ p := by
      rintro rfl
      rw [upd_self] at hq
      exact (scheduled_live hto).1 hq
    rw [upd_ne hqp] at hq ⊢
    exact hm q hq

/-- A process keeps its pid until it is reaped, and its flag is set by a fault of its own or by a `kill`
    of its pid. -/
theorem life_step (hs : Step t e t') (hq : (t.slot q).Used)
    (hr : ∀ p pid status, e ≠ .reaped p q pid status) :
    (t'.slot q).Used ∧ (t'.slot q).pid = (t.slot q).pid ∧
      ((t'.slot q).killed = true → (t.slot q).killed = true ∨ e = .fault q ∨
        ∃ ret, e = .kill (t.slot q).pid ret) := by
  have hsame : t'.slot q = t.slot q → (t'.slot q).Used ∧ (t'.slot q).pid = (t.slot q).pid ∧
      ((t'.slot q).killed = true → (t.slot q).killed = true ∨ e = .fault q ∨
        ∃ ret, e = .kill (t.slot q).pid ret) := by
    intro heq
    rw [heq]
    exact ⟨hq, rfl, .inl⟩
  have hne : ∀ {p}, (t.slot p).state = .unused → q ≠ p := by
    rintro p hun rfl
    exact hq hun
  cases hs with
  | forked hp hrun hf =>
    obtain ⟨-, hun, -, hslot⟩ := fork_some hf
    apply hsame
    rw [hslot, update_of_ne (hne hun)]
  | forkFailed hp hrun hf =>
    apply hsame
    rcases fork_none hf with he | ⟨q', -, hun, he⟩
    · rw [he]
    · rcases he with he | he
      · rw [he, update_of_ne (hne hun)]
      · rw [he, update_of_ne (hne hun)]
  | @exited _ p status hp hrun he =>
    have hx := exit_some he
    rw [hx.killed q, hx.pid q]
    refine ⟨fun hu => ?_, rfl, .inl⟩
    by_cases hqp : q = p
    · rw [hqp, hx.self.1] at hu
      cases hu
    · exact hq ((hx.unused q hqp).mp hu)
  | @reaped _ p np pid um addr hp hrun hw =>
    obtain ⟨-, -, -, -, -, rfl⟩ := wait_reaped hw
    apply hsame
    rw [upd_ne]
    rintro rfl
    exact hr _ _ _ rfl
  | waitFailed hp hrun hw =>
    obtain ⟨rfl, -⟩ := wait_failed hw
    exact hsame rfl
  | @waits _ p um addr hp hrun hw =>
    obtain rfl := wait_sleeps hw
    by_cases hqp : q = p
    · subst hqp
      rw [upd_self]
      exact ⟨State.noConfusion, rfl, .inl⟩
    · exact hsame (upd_ne hqp)
  | kill pid =>
    rcases kill_cases t pid with ⟨q', -, -, hpid, hk⟩ | ⟨-, -, hk⟩
    · rw [hk] at hsame ⊢
      by_cases hqq : q = q'
      · subst hqq
        rw [upd_self]
        exact ⟨fun hu => hq ((mark_state _).1.mp hu), rfl, fun _ => .inr (.inr ⟨_, by rw [hpid]⟩)⟩
      · exact hsame (upd_ne hqq)
    · rw [hk] at hsame ⊢
      exact hsame rfl
  | @fault p hp hrun =>
    by_cases hqp : q = p
    · subst hqp
      rw [upd_self]
      exact ⟨hq, rfl, fun _ => .inr (.inl rfl)⟩
    · exact hsame (upd_ne hqp)
  | @sched p s chan hp hfrom hto =>
    by_cases hqp : q = p
    · subst hqp
      rw [upd_self]
      exact ⟨(scheduled_live hto).1, rfl, .inl⟩
    · exact hsame (upd_ne hqp)

end Kill

/-- The process of slot `q` that was forked with this pid faulted, or somebody called `kill` with its
    pid. -/
def Signalled (q : Nat) (pid : Int) (h : List Event) : Prop :=
  .fault q ∈ h ∨ ∃ ret, .kill pid ret ∈ h

/-- What is known of a process forked in the history `h`, as long as it has not been reaped. -/
def Lives (h : List Event) (t : Table) : Prop :=
  ∀ h1 p q pid h2, h = h1 ++ .forked p q pid :: h2 → reaps q h2 = 0 →
    (t.slot q).Used ∧ (t.slot q).pid = pid ∧ ((t.slot q).killed = true → Signalled q pid h2)

theorem Lives.step {h : List Event} {t t' : Table} {e : Event} (hl : Lives h t) (hm : Unmarked t)
    (hs : Step t e t') : Lives (h ++ [e]) t' := by
  intro h1 p q pid h2 heq hreap
  rcases eq_nil_or_concat h2 with rfl | ⟨h3, e', rfl⟩
  · -- the process is born in this step, in a slot that is not marked
    obtain ⟨rfl, he⟩ := append_inj' heq rfl
    obtain rfl := singleton_inj.mp he
    cases hs with
    | forked hp hrun hf =>
      obtain ⟨-, hun, rfl, hslot⟩ := fork_some hf
      rw [hslot, update_self]
      refine ⟨State.noConfusion, rfl, fun hk => ?_⟩
      rw [hm q hun] at hk
      cases hk
  · rw [concat_eq_append, ← cons_append, ← append_assoc] at heq
    obtain ⟨rfl, he⟩ := append_inj' heq rfl
    obtain rfl := singleton_inj.mp he
    rw [concat_eq_append] at hreap ⊢
    unfold reaps at hreap
    rw [countP_append, Nat.add_eq_zero_iff] at hreap
    obtain ⟨hused, hpid, hk⟩ := hl h1 p q pid h3 rfl hreap.1
    have hnot : ∀ p' pid' status, e ≠ .reaped p' q pid' status := by
      rintro p' pid' status rfl
      simp at hreap
    obtain ⟨hused', hpid', hk'⟩ := life_step hs hused hnot
    refine ⟨hused', hpid'.trans hpid, fun hkilled => ?_⟩
    rcases hk' hkilled with hold | rfl | ⟨ret, rfl⟩
    · rcases hk hold with hf | ⟨ret, hr⟩
      · exact .inl (mem_append_left _ hf)
      · exact .inr ⟨ret, mem_append_left _ hr⟩
    · exact .inl (mem_append_right _ (mem_singleton.mpr rfl))
    · rw [hpid]
      exact .inr ⟨ret, mem_append_right _ (mem_singleton.mpr rfl)⟩

/-- **Signals hit only their target**, exactly as long as `kill` finds slots in use.  After any run whose
    calls all did, `kill(pid)` does what it should IF AND ONLY IF it finds a slot in use or none; and a
    process that was forked in the run is not marked before it faults or its own pid is killed. -/
theorem kill_hits_target {h : List Event} {t : Table} (hr : Run AllTarget boot h t) :
    (∀ pid, KillOk t pid ↔ Targets t pid) ∧
    ∀ h1 p q pid h2, h = h1 ++ .forked p q pid :: h2 → reaps q h2 = 0 →
      (t.slot q).pid = pid ∧ ((t.slot q).killed = true → Signalled q pid h2) := by
  have hI := hr.invariant (I := fun h t => Unmarked t ∧ Lives h t)
    ⟨boot_unmarked, fun h1 p q pid h2 heq _ => ?_⟩
    fun hI hg hs => ⟨hI.1.step hg hs, hI.2.step hI.1 hs⟩
  · constructor
    · intro pid
      exact ⟨targets_of_killOk hI.1, killOk_of_targets⟩
    · intro h1 p q pid h2 heq hreap
      exact (hI.2 h1 p q pid h2 heq hreap).2
  · cases h1 <;> cases heq

/-- A child of init is killed by its pid, and may be killed again. -/
theorem kill_hits_child : ∃ h t, Run AllTarget boot h t ∧ (t.slot 1).killed = true ∧
    Targets t 2 ∧ KillOk t 2 := by
  have h1 : Step boot (.sched 0) (running 0 boot) :=
    .sched (by decide) (.inr (.inl rfl)) (.inr (.inr rfl))
  have h2 : Step (running 0 boot) (.forked 0 1 2) forkedOnce :=
    @Step.forked _ _ _ _ _ .enough (by decide) rfl (Prod.ext (by decide) rfl)
  have htgt : Targets forkedOnce 2 := by
    intro q hq
    obtain rfl : 1 = q := Option.some.inj ((by decide : forkedOnce.target 2 = some 1).symm.trans hq)
    decide
  have hrun := ((Run.nil (G := AllTarget)).step (by rintro _ _ ⟨⟩) h1).step (by rintro _ _ ⟨⟩) h2
  have hrun := hrun.step (by rintro _ _ ⟨⟩; exact htgt) (Step.kill 2)
  have hagain : Targets (forkedOnce.kill 2).2 2 := by
    intro q hq
    obtain rfl : 1 = q :=
      Option.some.inj ((by decide : (forkedOnce.kill 2).2.target 2 = some 1).symm.trans hq)
    decide
  exact ⟨_, _, hrun, by decide, hagain, ((kill_hits_target hrun).1 2).mpr hagain⟩

/-- `kill(0)` at boot finds a free slot: it returns 0 although no process has pid 0, and the child that
    init forks next is born killed. -/
theorem kill_zero_marks_next_child : ∃ t, Run (fun _ _ => True) boot
      [.kill 0 0, .sched 0, .forked 0 1 2] t ∧
    (boot.kill 0).1 = 0 ∧ (¬ ∃ q, q < NPROC ∧ (boot.slot q).Used ∧ (boot.slot q).pid = 0) ∧
    ¬ KillOk boot 0 ∧ (t.slot 1).pid = 2 ∧ (t.slot 1).killed = true ∧ ¬ Signalled 1 2 [] := by
  have hnone : ¬ ∃ q, q < NPROC ∧ (boot.slot q).Used ∧ (boot.slot q).pid = 0 := by decide
  have h2 : Step (boot.kill 0).2 (.sched 0) (running 0 (boot.kill 0).2) :=
    .sched (by decide) (.inr (.inl rfl)) (.inr (.inr rfl))
  have h3 : Step (running 0 (boot.kill 0).2) (.forked 0 1 2)
      ((running 0 (boot.kill 0).2).fork 0 .enough).2 :=
    @Step.forked _ _ _ _ _ .enough (by decide) rfl (Prod.ext (by decide) rfl)
  have hrun := ((Run.nil (G := fun _ _ => True)).step trivial (Step.kill (t := boot) 0)).step trivial h2
  have hrun := hrun.step trivial h3
  refine ⟨_, hrun, by decide, hnone, fun hk => hnone (hk.1.mp (by decide)), by decide, by decide, ?_⟩
  rintro (h | ⟨_, h⟩) <;> cases h

end Xv6.Ptable
