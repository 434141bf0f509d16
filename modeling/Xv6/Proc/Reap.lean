/-
  THE PROCESS TREE: who is whose parent, and who reaps whom.

  `Family` is the invariant of the table: init is alive, every other process has a parent that is alive,
  an UNUSED slot has none.  `exit` keeps it by giving the children away BEFORE the process becomes a
  ZOMBIE; `wait` keeps it because a ZOMBIE has no children any more.

  `process_tree` adds the life of a ZOMBIE.  Over a whole run, the exits of a slot are its reapings and,
  if it is a ZOMBIE now, one more: each exit is reported once or not yet.
-/
import Xv6.Proc.Table

namespace Xv6.Ptable

open Function

variable {e : Event} {np p q : Nat} {t t' : Table}

/-! ## The family -/

/-- Every process but init has a parent that is alive. -/
structure Family (t : Table) : Prop where
  parent : ∀ q, (t.slot q).Used → q ≠ initproc → ∃ p, (t.slot q).parent = some p ∧ (t.slot p).Live
  init : (t.slot initproc).Live
  idle : ∀ q, (t.slot q).state = .unused → (t.slot q).parent = none
  range : ∀ q, NPROC ≤ q → (t.slot q).state = .unused

/-- Nobody is born, exits or is reaped, and nobody's parent changes. -/
def SameKin (t t' : Table) : Prop :=
  ∀ q, (t'.slot q).parent = (t.slot q).parent ∧ ((t'.slot q).state = .unused ↔ (t.slot q).state = .unused) ∧
    ((t'.slot q).state = .zombie ↔ (t.slot q).state = .zombie)

section Family

theorem SameKin.upd {f : Slot → Slot} (hpar : (f (t.slot q)).parent = (t.slot q).parent)
    (hun : (f (t.slot q)).state = .unused ↔ (t.slot q).state = .unused)
    (hz : (f (t.slot q)).state = .zombie ↔ (t.slot q).state = .zombie) : SameKin t (t.upd q f) := by
  intro p
  by_cases hp : p = q
  · subst hp
    rw [upd_self]
    exact ⟨hpar, hun, hz⟩
  · rw [upd_ne hp]
    exact ⟨rfl, Iff.rfl, Iff.rfl⟩

theorem Family.congr (h : Family t) (hk : SameKin t t') : Family t' := by
  have hlive : ∀ q, (t.slot q).Live → (t'.slot q).Live := fun q hq =>
    ⟨fun hu => hq.1 ((hk q).2.1.mp hu), fun hz => hq.2 ((hk q).2.2.mp hz)⟩
  constructor
  · intro q hq hne
    obtain ⟨p, hp, hl⟩ := h.parent q (fun hu => hq ((hk q).2.1.mpr hu)) hne
    exact ⟨p, (hk q).1.trans hp, hlive p hl⟩
  · exact hlive _ h.init
  · intro q hq
    rw [(hk q).1]
    exact h.idle q ((hk q).2.1.mp hq)
  · intro q hq
    exact (hk q).2.1.mpr (h.range q hq)

theorem running_live (h : (t.slot p).state = .running) : (t.slot p).Live := by
  constructor
  · rw [h]
    decide
  · rw [h]
    decide

theorem scheduled_live {s : State} (h : s.Scheduled) : s ≠ .unused ∧ s ≠ .zombie := by
  rcases h with rfl | rfl | rfl <;> decide

/-- The steps that leave the family alone. -/
theorem Step.sameKin (h : Family t) (hs : Step t e t') (hb : ∀ p np pid, e ≠ .forked p np pid)
    (hx : ∀ p status, e ≠ .exited p status) (hr : ∀ p np pid status, e ≠ .reaped p np pid status) :
    SameKin t t' := by
  cases hs with
  | forked hp hrun hf => exact absurd rfl (hb _ _ _)
  | exited hp hrun he => exact absurd rfl (hx _ _)
  | reaped hp hrun hw => exact absurd rfl (hr _ _ _ _)
  | forkFailed hp hrun hf =>
    rcases fork_none hf with he | ⟨q, hq, hun, he⟩
    · intro p
      rw [he]
      exact ⟨rfl, Iff.rfl, Iff.rfl⟩
    · intro p
      rcases he with he | he
      · rw [he]
        by_cases hp : p = q
        · subst hp
          rw [update_self]
          exact ⟨rfl, Iff.rfl, Iff.rfl⟩
        · rw [update_of_ne hp]
          exact ⟨rfl, Iff.rfl, Iff.rfl⟩
      · rw [he]
        by_cases hp : p = q
        · subst hp
          rw [update_self]
          refine ⟨(h.idle p hun).symm, ?_, ?_⟩
          · exact iff_of_true rfl hun
          · rw [hun]
            exact iff_of_false State.noConfusion State.noConfusion
        · rw [update_of_ne hp]
          exact ⟨rfl, Iff.rfl, Iff.rfl⟩
  | waitFailed hp hrun hw =>
    obtain ⟨rfl, -⟩ := wait_failed hw
    exact fun q => ⟨rfl, Iff.rfl, Iff.rfl⟩
  | waits hp hrun hw =>
    rw [wait_sleeps hw]
    refine SameKin.upd rfl ?_ ?_
    · exact iff_of_false State.noConfusion (running_live hrun).1
    · exact iff_of_false State.noConfusion (running_live hrun).2
  | kill pid =>
    rcases kill_cases t pid with ⟨q, -, -, -, hk⟩ | ⟨-, -, hk⟩
    · rw [hk]
      exact SameKin.upd rfl (mark_state _).1 (mark_state _).2
    · rw [hk]
      exact fun q => ⟨rfl, Iff.rfl, Iff.rfl⟩
  | fault hp hrun => exact SameKin.upd rfl Iff.rfl Iff.rfl
  | sched hp hfrom hto =>
    grind [SameKin.upd, scheduled_live]

/-- A child is born. -/
theorem Family.forked (h : Family t) {x : Slot} (hnp : np < NPROC)
    (hun : (t.slot np).state = .unused) (hp : (t.slot p).Live)
    (hslot : t'.slot = update t.slot np x) (hpar : x.parent = some p) (hx : x.Live) :
    Family t' := by
  have hother : ∀ q, (t.slot q).Live → (t'.slot q).Live := by
    intro q hq
    have hne : q ≠ np := by
      rintro rfl
      exact hq.1 hun
    rw [hslot, update_of_ne hne]
    exact hq
  constructor
  · intro q hq hne
    by_cases hqn : q = np
    · subst hqn
      refine ⟨p, ?_, hother p hp⟩
      rw [hslot, update_self]
      exact hpar
    · rw [hslot, update_of_ne hqn] at hq ⊢
      obtain ⟨o, ho, hl⟩ := h.parent q hq hne
      have hlive := hother o hl
      rw [hslot] at hlive
      exact ⟨o, ho, hlive⟩
  · exact hother _ h.init
  · intro q hq
    by_cases hqn : q = np
    · subst hqn
      rw [hslot, update_self] at hq
      exact absurd hq hx.1
    · rw [hslot, update_of_ne hqn] at hq ⊢
      exact h.idle q hq
  · intro q hq
    have hne : q ≠ np := by omega
    rw [hslot, update_of_ne hne]
    exact h.range q hq

/-- A process exits: its children are init's. -/
theorem Family.exited (h : Family t) {status : Int} (hp : (t.slot p).Live) (hx : Exits t p status t') :
    Family t' := by
  have hother : ∀ q, q ≠ p → (t.slot q).Live → (t'.slot q).Live := fun q hq hl =>
    ⟨fun hu => hl.1 ((hx.unused q hq).mp hu), fun hz => hl.2 ((hx.zombie q hq).mp hz)⟩
  have hinit := hother _ (fun he => hx.notInit he.symm) h.init
  constructor
  · intro q hq hne
    have hused : (t.slot q).Used := by
      by_cases hqp : q = p
      · rw [hqp]
        exact hp.1
      · exact fun hu => hq ((hx.unused q hqp).mpr hu)
    obtain ⟨o, ho, hl⟩ := h.parent q hused hne
    rw [hx.parent q]
    by_cases hop : (t.slot q).parent = some p
    · rw [if_pos hop]
      exact ⟨initproc, rfl, hinit⟩
    · rw [if_neg hop]
      refine ⟨o, ho, hother o ?_ hl⟩
      rintro rfl
      exact hop ho
  · exact hinit
  · grind [Family, Exits]
  · grind [Family, Exits]

/-- A ZOMBIE is reaped; nobody is its child. -/
theorem Family.reaped (h : Family t) (hz : (t.slot np).state = .zombie) :
    Family (t.upd np Slot.freeproc) := by
  have hother : ∀ q, (t.slot q).Live → ((t.upd np Slot.freeproc).slot q).Live := by
    intro q hq
    have hne : q ≠ np := by
      rintro rfl
      exact hq.2 hz
    rw [upd_ne hne]
    exact hq
  constructor
  · intro q hq hne
    have hqn : q ≠ np := by
      rintro rfl
      rw [upd_self] at hq
      exact hq rfl
    rw [upd_ne hqn] at hq ⊢
    obtain ⟨o, ho, hl⟩ := h.parent q hq hne
    exact ⟨o, ho, hother o hl⟩
  · exact hother _ h.init
  · intro q hq
    by_cases hqn : q = np
    · rw [hqn, upd_self]
      rfl
    · rw [upd_ne hqn] at hq ⊢
      exact h.idle q hq
  · intro q hq
    by_cases hqn : q = np
    · rw [hqn, upd_self]
      rfl
    · rw [upd_ne hqn]
      exact h.range q hq

theorem Family.step (h : Family t) (hs : Step t e t') : Family t' := by
  have hs' := hs
  cases hs with
  | forked hp hrun hf =>
    obtain ⟨hnp, hun, -, hslot⟩ := fork_some hf
    exact h.forked hnp hun (running_live hrun) hslot rfl ⟨by simp, by simp⟩
  | exited hp hrun he => exact h.exited (running_live hrun) (exit_some he)
  | reaped hp hrun hw =>
    obtain ⟨-, -, hz, -, -, rfl⟩ := wait_reaped hw
    exact h.reaped hz
  | forkFailed | waitFailed | waits | kill | fault | sched =>
    exact h.congr (hs'.sameKin h (by simp) (by simp) (by simp))

theorem boot_family : Family boot := by
  have hslot : ∀ q, q ≠ initproc → boot.slot q = ⟨.unused, none, none, false, 0, 0⟩ := fun q hq => if_neg hq
  constructor
  · intro q hq hne
    rw [hslot q hne] at hq
    exact absurd rfl hq
  · decide
  · intro q hq
    by_cases hqi : q = initproc
    · rw [hqi] at hq
      cases hq
    · rw [hslot q hqi]
  · intro q hq
    have hqi : q ≠ initproc := by
      rintro rfl
      exact absurd hq (by decide)
    rw [hslot q hqi]

theorem Run.family {G : Table → Event → Prop} {h : List Event} (hr : Run G boot h t) : Family t :=
  hr.invariant (I := fun _ t => Family t) boot_family fun hf _ hs => hf.step hs

end Family

/-! ## The life of a ZOMBIE -/

/-- How often the process in slot `q` exited. -/
def exits (q : Nat) (h : List Event) : Nat := h.countP fun
  | .exited p _ => p = q
  | _ => false

/-- How often the process in slot `q` was reaped. -/
def reaps (q : Nat) (h : List Event) : Nat := h.countP fun
  | .reaped _ np _ _ => np = q
  | _ => false

/-- In the step `e` the ZOMBIE in slot `q` stays what it is; only its parent may become init, when the
    old one exits. -/
def Stays (t : Table) (e : Event) (t' : Table) (q : Nat) : Prop :=
  (t'.slot q).state = .zombie ∧ (t'.slot q).pid = (t.slot q).pid ∧ (t'.slot q).xstate = (t.slot q).xstate ∧
    ((t'.slot q).parent = (t.slot q).parent ∨ ∃ p status, e = .exited p status ∧
      (t.slot q).parent = some p ∧ (t'.slot q).parent = some initproc)

/-- In the step `e` the ZOMBIE in slot `q` is reaped: a `wait` of its parent returns its pid and its
    exit status, and the slot is free. -/
def Reaped (t : Table) (e : Event) (t' : Table) (q : Nat) : Prop :=
  ∃ p, (t.slot q).parent = some p ∧ e = .reaped p q (t.slot q).pid (t.slot q).xstate ∧
    (t'.slot q).state = .unused

section Zombie

/-- Another slot changes, or only the run state, `killed` and `chan` of a live process. -/
theorem Stays.of_slot (hz : (t.slot q).state = .zombie) (h : t'.slot q = t.slot q) : Stays t e t' q := by
  unfold Stays
  rw [h]
  exact ⟨hz, rfl, rfl, .inl rfl⟩

theorem zombie_step (hs : Step t e t') (hz : (t.slot q).state = .zombie) :
    Stays t e t' q ∨ Reaped t e t' q := by
  have hlive : ∀ {p}, (t.slot p).Live → q ≠ p := by
    rintro p hp rfl
    exact hp.2 hz
  cases hs with
  | forked hp hrun hf =>
    obtain ⟨-, hun, -, hslot⟩ := fork_some hf
    refine .inl (Stays.of_slot hz ?_)
    rw [hslot, update_of_ne]
    rintro rfl
    rw [hz] at hun
    cases hun
  | forkFailed hp hrun hf =>
    refine .inl (Stays.of_slot hz ?_)
    rcases fork_none hf with he | ⟨q', -, hun, he⟩
    · rw [he]
    · have hne : q ≠ q' := by
        rintro rfl
        rw [hz] at hun
        cases hun
      rcases he with he | he
      · rw [he, update_of_ne hne]
      · rw [he, update_of_ne hne]
  | @exited _ p status hp hrun he =>
    have hx := exit_some he
    have hqp := hlive (running_live hrun)
    refine .inl ⟨(hx.zombie q hqp).mpr hz, hx.pid q, hx.xstate q hqp, ?_⟩
    rw [hx.parent q]
    by_cases hpar : (t.slot q).parent = some p
    · rw [if_pos hpar]
      exact .inr ⟨p, status, rfl, hpar, rfl⟩
    · rw [if_neg hpar]
      exact .inl rfl
  | @reaped _ p np pid um addr hp hrun hw =>
    obtain ⟨-, hpar, -, rfl, -, rfl⟩ := wait_reaped hw
    by_cases hq : q = np
    · subst hq
      refine .inr ⟨p, hpar, rfl, ?_⟩
      rw [upd_self]
      rfl
    · exact .inl (Stays.of_slot hz (upd_ne hq))
  | waitFailed hp hrun hw =>
    obtain ⟨rfl, -⟩ := wait_failed hw
    exact .inl (Stays.of_slot hz rfl)
  | waits hp hrun hw =>
    rw [wait_sleeps hw]
    exact .inl (Stays.of_slot hz (upd_ne (hlive (running_live hrun))))
  | kill pid =>
    rcases kill_cases t pid with ⟨q', -, -, -, hk⟩ | ⟨-, -, hk⟩
    · rw [hk]
      by_cases hq : q = q'
      · -- `kill` finds ZOMBIEs too, and sets a flag that no longer matters
        subst hq
        left
        unfold Stays
        rw [upd_self]
        exact ⟨(mark_state _).2.mpr hz, rfl, rfl, .inl rfl⟩
      · exact .inl (Stays.of_slot hz (upd_ne hq))
    · rw [hk]
      exact .inl (Stays.of_slot hz rfl)
  | fault hp hrun => exact .inl (Stays.of_slot hz (upd_ne (hlive (running_live hrun))))
  | sched hp hfrom hto => exact .inl (Stays.of_slot hz (upd_ne (hlive (scheduled_live hfrom))))

/-- A process's parent is who forked it, until the parent exits and init takes its place. -/
theorem parent_step (hf : Family t) (hs : Step t e t') (hq : (t.slot q).Used) (hq' : (t'.slot q).Used) :
    (t'.slot q).parent = (t.slot q).parent ∨ ∃ p status, e = .exited p status ∧
      (t.slot q).parent = some p ∧ (t'.slot q).parent = some initproc := by
  have hs' := hs
  cases hs with
  | @forked _ p np pid mem hp hrun hfk =>
    obtain ⟨-, hun, -, hslot⟩ := fork_some hfk
    have hne : q ≠ np := by
      rintro rfl
      exact hq hun
    rw [hslot, update_of_ne hne]
    exact .inl rfl
  | @exited _ p status hp hrun he =>
    have hx := exit_some he
    rw [hx.parent q]
    by_cases hpar : (t.slot q).parent = some p
    · rw [if_pos hpar]
      exact .inr ⟨p, status, rfl, hpar, rfl⟩
    · rw [if_neg hpar]
      exact .inl rfl
  | @reaped _ p np pid um addr hp hrun hw =>
    obtain ⟨-, -, -, -, -, rfl⟩ := wait_reaped hw
    have hne : q ≠ np := by
      rintro rfl
      rw [upd_self] at hq'
      exact hq' rfl
    rw [upd_ne hne]
    exact .inl rfl
  | forkFailed | waitFailed | waits | kill | fault | sched =>
    exact .inl ((hs'.sameKin hf (by simp) (by simp) (by simp)) q).1

theorem parent_forked {pid : Int} (hs : Step t (.forked p np pid) t') : (t'.slot np).parent = some p := by
  cases hs with
  | forked hp hrun hfk =>
    obtain ⟨-, -, -, hslot⟩ := fork_some hfk
    rw [hslot, update_self]

/-- What a step does to the number of ZOMBIEs in one slot. -/
theorem zombie_count (hf : Family t) (hs : Step t e t') (q : Nat) (h : List Event)
    (hI : exits q h = reaps q h + if (t.slot q).state = .zombie then 1 else 0) :
    exits q (h ++ [e]) = reaps q (h ++ [e]) + if (t'.slot q).state = .zombie then 1 else 0 := by
  have hs' := hs
  unfold exits reaps at hI ⊢
  rw [List.countP_append, List.countP_append]
  cases hs with
  | @forked _ p np pid mem hp hrun hfk =>
    obtain ⟨-, hun, -, hslot⟩ := fork_some hfk
    have hsame : (t'.slot q).state = .zombie ↔ (t.slot q).state = .zombie := by
      rw [hslot]
      by_cases hq : q = np
      · subst hq
        rw [update_self, hun]
        exact iff_of_false State.noConfusion State.noConfusion
      · rw [update_of_ne hq]
    simp only [hsame]
    exact hI
  | @exited _ p status hp hrun he =>
    have hx := exit_some he
    by_cases hq : p = q
    · grind [Exits]
    · grind [Exits]
  | @reaped _ p np pid um addr hp hrun hw =>
    obtain ⟨-, -, hz, -, -, rfl⟩ := wait_reaped hw
    by_cases hq : np = q
    · grind [upd_self, Slot.freeproc]
    · grind [upd_ne]
  | forkFailed | waitFailed | waits | kill | fault | sched =>
    have hkin := hs'.sameKin hf (by simp) (by simp) (by simp)
    simp only [(hkin q).2.2]
    exact hI

end Zombie

/-- **The process tree and reaping.**  In every state of every run each process but init has a parent
    that is neither UNUSED nor ZOMBIE: who forked it, or init once that one has exited.  A ZOMBIE keeps
    its pid and status until a `wait` of its parent returns them, which frees its slot: every exit is
    reaped once or its ZOMBIE is still there.  A `wait` whose copyout fails reaps nothing, and one that
    returns -1 has changed nothing and has one of three reasons. -/
theorem process_tree {G : Table → Event → Prop} {t : Table} {h : List Event} (hr : Run G boot h t) :
    (∀ q, (t.slot q).Used → q ≠ initproc → ∃ p, p < NPROC ∧ (t.slot q).parent = some p ∧
      (t.slot p).state ≠ .unused ∧ (t.slot p).state ≠ .zombie) ∧
    (∀ p np pid t', Step t (.forked p np pid) t' → (t'.slot np).parent = some p) ∧
    (∀ e t' q, Step t e t' → (t.slot q).Used → (t'.slot q).Used →
      (t'.slot q).parent = (t.slot q).parent ∨ ∃ p status, e = .exited p status ∧
        (t.slot q).parent = some p ∧ (t'.slot q).parent = some initproc) ∧
    (∀ e t' q, Step t e t' → (t.slot q).state = .zombie → Stays t e t' q ∨ Reaped t e t' q) ∧
    (∀ q, exits q h = reaps q h + if (t.slot q).state = .zombie then 1 else 0) ∧
    (∀ p um addr np pid t', addr ≠ 0 → um.copyout addr 4 = false →
      t.wait p um addr ≠ (.reaped np pid, t')) ∧
    ∀ p um addr t', t.wait p um addr = (.failed, t') → t' = t ∧
      ((∀ q, q < NPROC → (t.slot q).parent ≠ some p) ∨ (t.slot p).killed = true ∨
        (addr ≠ 0 ∧ um.copyout addr 4 = false)) := by
  have hf := hr.family
  refine ⟨fun q hq hne => ?_, fun p np pid t' hs => parent_forked hs,
    fun e t' q hs hq hq' => parent_step hf hs hq hq', fun e t' q hs hz => zombie_step hs hz,
    fun q => ?_, ?_, ?_⟩
  · obtain ⟨p, hpar, hl⟩ := hf.parent q hq hne
    refine ⟨p, ?_, hpar, hl⟩
    by_contra hge
    exact hl.1 (hf.range p (not_lt.mp hge))
  · have hcount := hr.invariant (I := fun h t => Family t ∧
        ∀ q, exits q h = reaps q h + if (t.slot q).state = .zombie then 1 else 0)
      ⟨boot_family, fun q => ?_⟩ fun hI _ hs =>
        ⟨hI.1.step hs, fun q => zombie_count hI.1 hs q _ (hI.2 q)⟩
    · exact hcount.2 q
    · by_cases hq : q = initproc
      · rw [hq]
        rfl
      · rw [show boot.slot q = ⟨.unused, none, none, false, 0, 0⟩ from if_neg hq]
        rfl
  · intro p um addr np pid t' ha hc hw
    obtain ⟨-, -, -, -, hok, -⟩ := wait_reaped hw
    rw [hok ha] at hc
    cases hc
  · intro p um addr t' hw
    exact wait_failed hw

/-- Init runs, and forks a child, which runs and exits with status 7. -/
def running (p : Nat) (t : Table) : Table := t.upd p fun x => { x with state := .running, chan := none }

def forkedOnce : Table := ((running 0 boot).fork 0 .enough).2

def childExited : Table := ((running 1 forkedOnce).exit 1 7).getD boot

theorem process_tree_child_exited : ∃ h, Run (fun _ _ => True) boot h childExited ∧
    (childExited.slot 1).state = .zombie ∧ exits 1 h = 1 ∧ reaps 1 h = 0 ∧
    (childExited.slot 1).parent = some 0 := by
  have h1 : Step boot _ (running 0 boot) := .sched (by decide) (.inr (.inl rfl)) (.inr (.inr rfl))
  have h2 : Step (running 0 boot) (.forked 0 1 2) forkedOnce :=
    @Step.forked _ _ _ _ _ .enough (by decide) rfl (Prod.ext (by decide) rfl)
  have h3 : Step forkedOnce _ (running 1 forkedOnce) :=
    .sched (by decide) (.inr (.inl (by decide))) (.inr (.inr rfl))
  have h4 : Step (running 1 forkedOnce) (.exited 1 7) childExited := .exited (by decide) rfl rfl
  have hrun := (((Run.nil (G := fun _ _ => True)).step trivial h1).step trivial h2).step trivial h3
  have hrun := hrun.step trivial h4
  obtain ⟨-, -, -, -, hcount, -⟩ := process_tree hrun
  have hz : (childExited.slot 1).state = .zombie := rfl
  have hcount := hcount 1
  rw [if_pos hz] at hcount
  exact ⟨_, hrun, hz, hcount, rfl, by decide⟩

end Xv6.Ptable
