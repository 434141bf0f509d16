/-
  THE PROCESS TABLE (`kernel/proc.c`): `fork`, `exit`, `wait` and `kill` on `proc[NPROC]`.

  A slot of the table has many lives: `allocproc` takes the first UNUSED slot, `exit` makes it a ZOMBIE
  and a `wait` of its parent gives it back.  `freeproc` clears a slot; `allocproc` does NOT clear what it
  finds in one, and its first failure exit leaves the new pid behind.

  `&proc[p]` is the number `p`; sleep channels are addresses too, so that `chan = some p` is "asleep on
  its own slot", as `wait` is.  `nextpid` is an `int` and wraps.  `Step` is one call, or one of the
  things that happen to a running process between calls.
-/
import Xv6.Fs.Sysfile

namespace Xv6.Ptable

open Function List Prod

/-- `enum procstate`. -/
inductive State
  | unused
  | sleeping
  | runnable
  | running
  | zombie
deriving DecidableEq

/-- What these functions use of `struct proc`. -/
structure Slot where
  state : State
  parent : Option Nat
  chan : Option Nat
  killed : Bool
  xstate : Int
  pid : Int

/-- `proc[]` and `nextpid`. -/
structure Table where
  slot : Nat → Slot
  nextpid : Int

/-- `initproc`, the first slot that was allocated. -/
def initproc : Nat := 0

/-- `x + 1` on an `int`. -/
def incInt (x : Int) : Int := if x = 2147483647 then -2147483648 else x + 1

/-- Where the memory for a new process runs out. -/
inductive Memory
  | noTrapframe
  | noPagetable
  | noCopy
  | enough
deriving DecidableEq

namespace Slot

/-- The slot has a process: it is not UNUSED. -/
def Used (x : Slot) : Prop := x.state ≠ .unused

/-- The process has not exited. -/
def Live (x : Slot) : Prop := x.state ≠ .unused ∧ x.state ≠ .zombie

instance (x : Slot) : Decidable x.Used := inferInstanceAs (Decidable (_ ≠ _))
instance (x : Slot) : Decidable x.Live := inferInstanceAs (Decidable (_ ∧ _))

/-- `freeproc`, without the memory it frees. -/
def freeproc (x : Slot) : Slot :=
  { x with pid := 0, parent := none, chan := none, killed := false, xstate := 0, state := .unused }

/-- What `kill` does to its target. -/
def mark (x : Slot) : Slot :=
  { x with killed := true, state := if x.state = .sleeping then .runnable else x.state }

/-- `wakeup1` of slot `p`. -/
def wakeup1 (p : Nat) (x : Slot) : Slot :=
  if x.chan = some p ∧ x.state = .sleeping then { x with state := .runnable } else x

end Slot

namespace Table

variable (t : Table)

def upd (q : Nat) (f : Slot → Slot) : Table :=
  { t with slot := update t.slot q (f (t.slot q)) }

/-- `allocproc`: the first UNUSED slot. -/
def allocproc (mem : Memory) : Option Nat × Table :=
  match (List.range NPROC).find? fun q => (t.slot q).state = .unused with
  | none => (none, t)
  | some q =>
    let t := { t.upd q fun x => { x with pid := t.nextpid } with nextpid := incInt t.nextpid }
    match mem with
    | .noTrapframe => (none, t)
    | .noPagetable => (none, t.upd q Slot.freeproc)
    | _ => (some q, t)

/-- `fork` of process `p`: the child's slot and its pid, or -1. -/
def fork (p : Nat) (mem : Memory) : Option (Nat × Int) × Table :=
  match t.allocproc mem with
  | (none, t) => (none, t)
  | (some np, t) =>
    if mem = .noCopy then (none, t.upd np Slot.freeproc)
    else
      (some (np, (t.slot np).pid), t.upd np fun x => { x with parent := some p, state := .runnable })

/-- `reparent`: pass `p`'s abandoned children to init. -/
def reparent (p : Nat) : Table :=
  { t with slot := fun q =>
      if (t.slot q).parent = some p then { t.slot q with parent := some initproc } else t.slot q }

/-- `exit`; there is no result when it panics or the parent is a null pointer. -/
def exit (p : Nat) (status : Int) : Option Table :=
  if p = initproc then none
  else
    match (t.slot p).parent with
    | none => none
    | some original =>
      some ((((t.upd initproc (Slot.wakeup1 initproc)).reparent p).upd original
        (Slot.wakeup1 original)).upd p fun x => { x with xstate := status, state := .zombie })

/-- How a pass through `wait` ends. -/
inductive Waited
  | reaped (np : Nat) (pid : Int)
  | failed
  | sleeps

/-- `wait`: one scan of the table. -/
def wait (p : Nat) (um : UserMem) (addr : Nat) : Waited × Table :=
  match (List.range NPROC).find? fun q =>
      (t.slot q).parent = some p ∧ (t.slot q).state = .zombie with
  | some np =>
    if addr ≠ 0 ∧ um.copyout addr 4 = false then (.failed, t)
    else (.reaped np (t.slot np).pid, t.upd np Slot.freeproc)
  | none =>
    if (∀ q, q < NPROC → (t.slot q).parent ≠ some p) ∨ (t.slot p).killed = true then (.failed, t)
    else (.sleeps, t.upd p fun x => { x with chan := some p, state := .sleeping })

/-- The slot `kill` finds. -/
def target (pid : Int) : Option Nat := (List.range NPROC).find? fun q => (t.slot q).pid = pid

/-- `kill`. -/
def kill (pid : Int) : Int × Table :=
  match t.target pid with
  | some q => (0, t.upd q Slot.mark)
  | none => (-1, t)

end Table

/-! ## Runs -/

/-- What happens to the process table. -/
inductive Event
  | forked (p np : Nat) (pid : Int)
  | forkFailed (p : Nat)
  | exited (p : Nat) (status : Int)
  | reaped (p np : Nat) (pid status : Int)
  | waitFailed (p : Nat)
  | waits (p : Nat)
  | kill (pid ret : Int)
  | fault (p : Nat)
  | sched (p : Nat)

/-- The scheduler, `sleep` and `wakeup` move a process among these states. -/
def State.Scheduled (s : State) : Prop := s = .sleeping ∨ s = .runnable ∨ s = .running

/-- One call of a running process, a fault (`usertrap` sets `killed`), or a change of who runs. -/
inductive Step : Table → Event → Table → Prop
  | forked {t t' : Table} {p np : Nat} {pid : Int} {mem : Memory} (hp : p < NPROC)
      (hrun : (t.slot p).state = .running) (hf : t.fork p mem = (some (np, pid), t')) :
      Step t (.forked p np pid) t'
  | forkFailed {t t' : Table} {p : Nat} {mem : Memory} (hp : p < NPROC)
      (hrun : (t.slot p).state = .running) (hf : t.fork p mem = (none, t')) :
      Step t (.forkFailed p) t'
  | exited {t t' : Table} {p : Nat} {status : Int} (hp : p < NPROC)
      (hrun : (t.slot p).state = .running) (he : t.exit p status = some t') :
      Step t (.exited p status) t'
  | reaped {t t' : Table} {p np : Nat} {pid : Int} {um : UserMem} {addr : Nat} (hp : p < NPROC)
      (hrun : (t.slot p).state = .running) (hw : t.wait p um addr = (.reaped np pid, t')) :
      Step t (.reaped p np pid (t.slot np).xstate) t'
  | waitFailed {t t' : Table} {p : Nat} {um : UserMem} {addr : Nat} (hp : p < NPROC)
      (hrun : (t.slot p).state = .running) (hw : t.wait p um addr = (.failed, t')) :
      Step t (.waitFailed p) t'
  | waits {t t' : Table} {p : Nat} {um : UserMem} {addr : Nat} (hp : p < NPROC)
      (hrun : (t.slot p).state = .running) (hw : t.wait p um addr = (.sleeps, t')) :
      Step t (.waits p) t'
  | kill {t : Table} (pid : Int) : Step t (.kill pid (t.kill pid).1) (t.kill pid).2
  | fault {t : Table} {p : Nat} (hp : p < NPROC) (hrun : (t.slot p).state = .running) :
      Step t (.fault p) (t.upd p fun x => { x with killed := true })
  | sched {t : Table} {p : Nat} {s : State} {chan : Option Nat} (hp : p < NPROC)
      (hfrom : (t.slot p).state.Scheduled) (hto : s.Scheduled) :
      Step t (.sched p) (t.upd p fun x => { x with state := s, chan := chan })

/-- A run, and its history.  `G` restricts the steps that are taken. -/
inductive Run (G : Table → Event → Prop) (t0 : Table) : List Event → Table → Prop
  | nil : Run G t0 [] t0
  | step {h : List Event} {e : Event} {t t' : Table} (hr : Run G t0 h t) (hg : G t e)
      (hs : Step t e t') : Run G t0 (h ++ [e]) t'

/-- The table after `userinit`. -/
def boot : Table where
  slot p := if p = initproc then ⟨.runnable, none, none, false, 0, 1⟩
    else ⟨.unused, none, none, false, 0, 0⟩
  nextpid := 2

/-- **Induction over a run.** -/
theorem Run.invariant {G : Table → Event → Prop} {t0 t : Table} {h : List Event}
    {I : List Event → Table → Prop} (hr : Run G t0 h t) (h0 : I [] t0)
    (hstep : ∀ {h e t t'}, I h t → G t e → Step t e t' → I (h ++ [e]) t') : I h t := by
  induction hr with
  | nil => exact h0
  | step _ hg hs ih => exact hstep ih hg hs

/-! ## What each call does -/

section Calls

variable {t t' : Table} {p q np : Nat} {pid : Int}

@[simp] theorem upd_self (t : Table) (q : Nat) (f : Slot → Slot) : (t.upd q f).slot q = f (t.slot q) :=
  update_self ..

theorem upd_ne {f : Slot → Slot} (h : p ≠ q) : (t.upd q f).slot p = t.slot p :=
  update_of_ne h ..

/-- `allocproc` changes one UNUSED slot, which stays as it was but for the pid; or it finds none. -/
theorem allocproc_cases (t : Table) (mem : Memory) : t.allocproc mem = (none, t) ∨
    ∃ q, q < NPROC ∧ (t.slot q).state = .unused ∧ ((mem = .noTrapframe ∧ t.allocproc mem =
          (none, { t.upd q fun x => { x with pid := t.nextpid } with nextpid := incInt t.nextpid })) ∨
        (mem = .noPagetable ∧ t.allocproc mem =
          (none, { t.upd q Slot.freeproc with nextpid := incInt t.nextpid })) ∨
        (mem ≠ .noTrapframe ∧ mem ≠ .noPagetable ∧ t.allocproc mem =
          (some q, { t.upd q fun x => { x with pid := t.nextpid } with
            nextpid := incInt t.nextpid }))) := by
  unfold Table.allocproc
  cases hfind : (range NPROC).find? fun q => (t.slot q).state = .unused with
  | none => exact .inl rfl
  | some q =>
    have hq : q < NPROC := mem_range.mp (mem_of_find?_eq_some hfind)
    have hun : (t.slot q).state = .unused := by
      have := find?_some hfind
      exact of_decide_eq_true this
    refine .inr ⟨q, hq, hun, ?_⟩
    cases mem with
    | noTrapframe => exact .inl ⟨rfl, rfl⟩
    | noPagetable =>
      refine .inr (.inl ⟨rfl, ?_⟩)
      simp [Table.upd, Slot.freeproc]
    | noCopy => exact .inr (.inr ⟨by decide, by decide, rfl⟩)
    | enough => exact .inr (.inr ⟨by decide, by decide, rfl⟩)

/-- A child: an UNUSED slot gets the next pid, the caller as its parent, and runs.  The other fields are
    what the slot had. -/
theorem fork_some {mem : Memory} (h : t.fork p mem = (some (np, pid), t')) :
    np < NPROC ∧ (t.slot np).state = .unused ∧ pid = t.nextpid ∧ t'.slot = update t.slot np
        { t.slot np with pid := t.nextpid, parent := some p, state := .runnable } := by
  unfold Table.fork at h
  rcases allocproc_cases t mem with ha | ⟨q, hq, hun, hcase⟩
  · rw [ha] at h
    cases h
  rcases hcase with ⟨-, ha⟩ | ⟨-, ha⟩ | ⟨-, -, ha⟩
  · rw [ha] at h
    cases h
  · rw [ha] at h
    cases h
  · rw [ha] at h
    dsimp only at h
    split at h
    · cases h
    · obtain ⟨hnp, rfl⟩ := mk.inj h
      obtain ⟨rfl, rfl⟩ := mk.inj (Option.some.inj hnp)
      refine ⟨hq, hun, ?_, ?_⟩
      · show ((t.upd q _).slot q).pid = _
        rw [upd_self]
      · simp [Table.upd]

/-- A fork that fails leaves the table as it was, but for one UNUSED slot: it is freed again, or keeps
    the pid it was given. -/
theorem fork_none {mem : Memory} (h : t.fork p mem = (none, t')) :
    t'.slot = t.slot ∨ ∃ q, q < NPROC ∧ (t.slot q).state = .unused ∧
      (t'.slot = update t.slot q { t.slot q with pid := t.nextpid } ∨
        t'.slot = update t.slot q (t.slot q).freeproc) := by
  unfold Table.fork at h
  rcases allocproc_cases t mem with ha | ⟨q, hq, hun, hcase⟩
  · rw [ha] at h
    exact .inl (by rw [(mk.inj h).2])
  refine .inr ⟨q, hq, hun, ?_⟩
  rcases hcase with ⟨-, ha⟩ | ⟨-, ha⟩ | ⟨-, -, ha⟩
  · rw [ha] at h
    exact .inl (by rw [← (mk.inj h).2]; rfl)
  · rw [ha] at h
    exact .inr (by rw [← (mk.inj h).2]; rfl)
  · rw [ha] at h
    dsimp only at h
    split at h
    · refine .inr ?_
      rw [← (mk.inj h).2]
      simp [Table.upd, Slot.freeproc]
    · cases h

/-- A process that was woken up: SLEEPING became RUNNABLE, or nothing happened. -/
structure Slot.Woken (x x' : Slot) : Prop where
  parent : x'.parent = x.parent
  killed : x'.killed = x.killed
  xstate : x'.xstate = x.xstate
  pid : x'.pid = x.pid
  unused : x'.state = .unused ↔ x.state = .unused
  zombie : x'.state = .zombie ↔ x.state = .zombie

theorem Slot.Woken.refl (x : Slot) : Slot.Woken x x := ⟨rfl, rfl, rfl, rfl, Iff.rfl, Iff.rfl⟩

theorem woken_wakeup1 (t : Table) (q p : Nat) : (t.slot p).Woken ((t.upd q (Slot.wakeup1 q)).slot p) := by
  by_cases hp : p = q
  · subst hp
    rw [upd_self, Slot.wakeup1]
    split
    · next h => exact ⟨rfl, rfl, rfl, rfl, by simp [h.2], by simp [h.2]⟩
    · exact .refl _
  · rw [upd_ne hp]
    exact .refl _

/-- What `exit` does to the slots. -/
structure Exits (t : Table) (p : Nat) (status : Int) (t' : Table) : Prop where
  notInit : p ≠ initproc
  hasParent : (t.slot p).parent ≠ none
  self : (t'.slot p).state = .zombie ∧ (t'.slot p).xstate = status
  parent : ∀ q, (t'.slot q).parent = if (t.slot q).parent = some p then some initproc else (t.slot q).parent
  killed : ∀ q, (t'.slot q).killed = (t.slot q).killed
  pid : ∀ q, (t'.slot q).pid = (t.slot q).pid
  xstate : ∀ q, q ≠ p → (t'.slot q).xstate = (t.slot q).xstate
  unused : ∀ q, q ≠ p → ((t'.slot q).state = .unused ↔ (t.slot q).state = .unused)
  zombie : ∀ q, q ≠ p → ((t'.slot q).state = .zombie ↔ (t.slot q).state = .zombie)

theorem exit_some {status : Int} (h : t.exit p status = some t') : Exits t p status t' := by
  unfold Table.exit at h
  split at h
  · cases h
  next hinit =>
  cases horig : (t.slot p).parent with
  | none =>
    rw [horig] at h
    cases h
  | some o =>
    rw [horig] at h
    dsimp only at h
    generalize ht1 : t.upd initproc (Slot.wakeup1 initproc) = t1 at h
    have h1 : ∀ q, (t.slot q).Woken (t1.slot q) := fun q => ht1 ▸ woken_wakeup1 t initproc q
    generalize ht2 : t1.reparent p = t2 at h
    have hpar : ∀ q, (t2.slot q).parent =
        if (t.slot q).parent = some p then some initproc else (t.slot q).parent := fun q => by
      rw [← ht2, ← (h1 q).parent]
      show (if (t1.slot q).parent = some p then _ else _ : Slot).parent = _
      split <;> rfl
    have h2 : ∀ q, (t2.slot q).killed = (t.slot q).killed ∧ (t2.slot q).pid = (t.slot q).pid ∧
        (t2.slot q).xstate = (t.slot q).xstate ∧
        ((t2.slot q).state = .unused ↔ (t.slot q).state = .unused) ∧
        ((t2.slot q).state = .zombie ↔ (t.slot q).state = .zombie) := fun q => by
      have hsame : (t2.slot q).killed = (t1.slot q).killed ∧ (t2.slot q).pid = (t1.slot q).pid ∧
          (t2.slot q).xstate = (t1.slot q).xstate ∧ (t2.slot q).state = (t1.slot q).state := by
        rw [← ht2]
        unfold Table.reparent
        dsimp only
        split <;> exact ⟨rfl, rfl, rfl, rfl⟩
      obtain ⟨e1, e2, e3, e4⟩ := hsame
      rw [e1, e2, e3, e4]
      exact ⟨(h1 q).killed, (h1 q).pid, (h1 q).xstate, (h1 q).unused, (h1 q).zombie⟩
    generalize ht3 : t2.upd o (Slot.wakeup1 o) = t3 at h
    have h3 : ∀ q, (t2.slot q).Woken (t3.slot q) := fun q => ht3 ▸ woken_wakeup1 t2 o q
    obtain rfl := Option.some.inj h
    refine ⟨hinit, by rw [horig]; simp, ?_, fun q => ?_, fun q => ?_, fun q => ?_, fun q hq => ?_,
      fun q hq => ?_, fun q hq => ?_⟩
    · rw [upd_self]
      exact ⟨rfl, rfl⟩
    · rw [← hpar q, ← (h3 q).parent]
      by_cases hq : q = p
      · rw [hq, upd_self]
      · rw [upd_ne hq]
    · rw [← (h2 q).1, ← (h3 q).killed]
      by_cases hq : q = p
      · rw [hq, upd_self]
      · rw [upd_ne hq]
    · rw [← (h2 q).2.1, ← (h3 q).pid]
      by_cases hq : q = p
      · rw [hq, upd_self]
      · rw [upd_ne hq]
    · rw [upd_ne hq, (h3 q).xstate, (h2 q).2.2.1]
    · rw [upd_ne hq, (h3 q).unused, (h2 q).2.2.2.1]
    · rw [upd_ne hq, (h3 q).zombie, (h2 q).2.2.2.2]

/-- A child that is reaped was a ZOMBIE of the caller, and its slot is freed. -/
theorem wait_reaped {um : UserMem} {addr : Nat} (h : t.wait p um addr = (.reaped np pid, t')) :
    np < NPROC ∧ (t.slot np).parent = some p ∧ (t.slot np).state = .zombie ∧ pid = (t.slot np).pid ∧
      (addr ≠ 0 → um.copyout addr 4 = true) ∧ t' = t.upd np Slot.freeproc := by
  unfold Table.wait at h
  cases hfind : (range NPROC).find? fun q =>
      (t.slot q).parent = some p ∧ (t.slot q).state = .zombie with
  | none =>
    rw [hfind] at h
    dsimp only at h
    split at h <;> cases h
  | some q =>
    grind

/-- A `wait` that returns -1 has changed nothing, and there are three reasons for it. -/
theorem wait_failed {um : UserMem} {addr : Nat} (h : t.wait p um addr = (.failed, t')) :
    t' = t ∧ ((∀ q, q < NPROC → (t.slot q).parent ≠ some p) ∨ (t.slot p).killed = true ∨
      (addr ≠ 0 ∧ um.copyout addr 4 = false)) := by
  unfold Table.wait at h
  split at h
  · grind
  · grind

theorem wait_sleeps {um : UserMem} {addr : Nat} (h : t.wait p um addr = (.sleeps, t')) :
    t' = t.upd p fun x => { x with chan := some p, state := .sleeping } := by
  unfold Table.wait at h
  split at h
  · split at h <;> cases h
  · split at h
    · cases h
    · exact (mk.inj h).2.symm

/-- `kill` marks the first slot with the pid, whatever its state. -/
theorem kill_cases (t : Table) (pid : Int) :
    (∃ q, t.target pid = some q ∧ q < NPROC ∧ (t.slot q).pid = pid ∧ t.kill pid = (0, t.upd q Slot.mark)) ∨
    (t.target pid = none ∧ (∀ q, q < NPROC → (t.slot q).pid ≠ pid) ∧ t.kill pid = (-1, t)) := by
  unfold Table.kill
  cases hfind : t.target pid with
  | some q =>
    have hpid := find?_some hfind
    have hq := mem_range.mp (mem_of_find?_eq_some hfind)
    exact .inl ⟨q, rfl, hq, of_decide_eq_true hpid, rfl⟩
  | none =>
    refine .inr ⟨rfl, fun q hq hpid => ?_, rfl⟩
    have := find?_eq_none.mp hfind q (mem_range.mpr hq)
    exact this (decide_eq_true hpid)

theorem mark_state (x : Slot) : (x.mark.state = .unused ↔ x.state = .unused) ∧
    (x.mark.state = .zombie ↔ x.state = .zombie) := by
  unfold Slot.mark
  cases x.state <;> simp

end Calls

/-! ## The file system's view

  `Xv6.Fs.Sysfile` has `fork`, `exit` and `wait` too, with the files and the directory of a process; of
  its life it knows only the parent, and whether the slot is free, in use, or a ZOMBIE's.  What those calls
  do to these is what the calls here do. -/

/-- The life of a process, as the file system sees it. -/
def State.coarse : State → ProcState
  | .unused => .unused
  | .zombie => .zombie
  | .sleeping | .runnable | .running => .running

/-- The process table `t` and the tables of the file system are about the same processes. -/
def Shown (t : Table) (T : Tabs) : Prop :=
  ∀ q, (T.proc q).state = (t.slot q).state.coarse ∧ (T.proc q).parent = (t.slot q).parent

section Shown

variable {t t' : Table} {T : Tabs} {p np : Nat} {pid : Int}

theorem coarse_congr {s s' : State} (hu : s' = .unused ↔ s = .unused) (hz : s' = .zombie ↔ s = .zombie) :
    s'.coarse = s.coarse := by
  cases s <;> cases s' <;> first | rfl | simp at hu hz

/-- Both look for a free slot in the same way. -/
theorem Shown.unused (h : Shown t T) : (fun q => (T.proc q).state == .unused) =
    fun q => decide ((t.slot q).state = .unused) := by
  funext q
  rw [(h q).1]
  cases (t.slot q).state <;> rfl

/-- And for a child that has exited. -/
theorem Shown.zombie (h : Shown t T) (p : Nat) :
    (fun q => (T.proc q).parent == some p && (T.proc q).state == .zombie) =
      fun q => decide ((t.slot q).parent = some p ∧ (t.slot q).state = .zombie) := by
  funext q
  rw [(h q).1, (h q).2, Bool.eq_iff_iff]
  cases (t.slot q).state <;> simp [State.coarse]

/-- The child is in the same slot. -/
theorem Shown.fork {mem : Memory} (h : Shown t T) (hf : t.fork p mem = (some (np, pid), t')) (k : Nat) :
    ((range NPROC).find? fun q => (T.proc q).state == .unused) = some np ∧
      Shown t' (T.updProc np fun x => { x with cwd := some k, parent := some p, state := .running }) := by
  constructor
  · rw [h.unused]
    unfold Table.fork Table.allocproc at hf
    cases hfind : (range NPROC).find? fun q => (t.slot q).state = .unused with
    | none =>
      rw [hfind] at hf
      cases hf
    | some q =>
      rw [hfind] at hf
      cases mem <;> cases hf
      rfl
  · obtain ⟨-, -, -, hslot⟩ := fork_some hf
    intro q
    rw [hslot]
    by_cases hq : q = np
    · subst hq
      exact ⟨by simp [Tabs.updProc, State.coarse], by simp [Tabs.updProc]⟩
    · rw [update_of_ne hq, show (T.updProc np _).proc q = T.proc q from update_of_ne hq ..]
      exact h q

/-- `exit` leaves a ZOMBIE, and gives its children to init. -/
theorem Shown.exit {status : Int} (h : Shown t T) (he : t.exit p status = some t') :
    Shown t' (Up.reparent (T.updProc p fun x => { x with cwd := none, state := .zombie }) p) := by
  have hE := exit_some he
  intro q
  have hpar := hE.parent q
  rw [← (h q).2] at hpar
  by_cases hq : q = p
  · subst hq
    rw [hE.self.1, hpar]
    by_cases hc : (T.proc q).parent = some q
    · simp [Up.reparent, Tabs.updProc, State.coarse, hc, initproc]
    · simp [Up.reparent, Tabs.updProc, State.coarse, hc]
  · rw [coarse_congr (hE.unused q hq) (hE.zombie q hq), ← (h q).1, hpar]
    by_cases hc : (T.proc q).parent = some p
    · simp [Up.reparent, Tabs.updProc, hq, hc, initproc]
    · simp [Up.reparent, Tabs.updProc, hq, hc]

/-- `wait` reaps the same child. -/
theorem Shown.wait {um : UserMem} {addr : Nat} (h : Shown t T)
    (hw : t.wait p um addr = (.reaped np pid, t')) :
    ((range NPROC).find? fun q => (T.proc q).parent == some p && (T.proc q).state == .zombie) = some np ∧
      Shown t' (T.updProc np fun x => { x with parent := none, state := .unused }) := by
  obtain ⟨-, -, -, -, -, rfl⟩ := wait_reaped hw
  constructor
  · rw [h.zombie]
    unfold Table.wait at hw
    cases hfind : (range NPROC).find? fun q => (t.slot q).parent = some p ∧ (t.slot q).state = .zombie with
    | none =>
      rw [hfind] at hw
      dsimp only at hw
      split at hw <;> cases hw
    | some q =>
      rw [hfind] at hw
      dsimp only at hw
      split at hw <;> cases hw
      rfl
  · intro q
    by_cases hq : q = np
    · subst hq
      rw [upd_self]
      exact ⟨by simp [Tabs.updProc, Slot.freeproc, State.coarse], by simp [Tabs.updProc, Slot.freeproc]⟩
    · rw [upd_ne hq, show (T.updProc np _).proc q = T.proc q from update_of_ne hq ..]
      exact h q

end Shown

end Xv6.Ptable
