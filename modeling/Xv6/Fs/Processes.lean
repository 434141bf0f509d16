/-
  PROCESSES, AND THE ACCOUNTS OF WHOLE HISTORIES.

  `fork` copies descriptors and the current directory, `exit` gives them back one by one, `wait` frees
  the process that has given everything back: an invariant of the tables, `Tabs.Buried`, says that a
  process that is not running has nothing.  With these three every system call is a walk of the ledger
  that starts and ends settled.

  `reference_accounting` puts the walk together with the machine: between system calls every count is the
  number of pointers to what it counts, nothing is locked, and no operation is open, whatever the disk
  contains.
-/
import Xv6.Fs.Holdings
import Xv6.Fs.Image

namespace Xv6

open Prog Tally Triple List Tabs

variable {d : Nat → Block} {lim : Option Nat} {c : Syscall} {tb : Tabs}

namespace Up

/-! ## Fork and exit -/

section Process

variable {p q : Nat}

/-- Only process `q`'s descriptors have changed. -/
structure Beside (q : Nat) (tb tb' : Tabs) : Prop where
  other : ∀ q', q' ≠ q → tb'.proc q' = tb.proc q'
  cwd : (tb'.proc q).cwd = (tb.proc q).cwd
  state : (tb'.proc q).state = (tb.proc q).state

theorem Beside.refl (q : Nat) (tb : Tabs) : Beside q tb tb := ⟨fun _ _ => rfl, rfl, rfl⟩

theorem Beside.trans {tb1 tb2 : Tabs} (h : Beside q tb tb1) (h' : Beside q tb1 tb2) : Beside q tb tb2 :=
  ⟨fun q' hq => (h'.other q' hq).trans (h.other q' hq), h'.cwd.trans h.cwd, h'.state.trans h.state⟩

/-- A descriptor of `q` changes, in tables with `tb`'s processes. -/
theorem Beside.setFd {t : Tabs} (hproc : t.proc = tb.proc) (fd : Nat) (x : Option Nat) :
    Beside q tb (t.setFd q fd x) := by
  refine ⟨fun q' hq => ?_, ?_, ?_⟩
  · rw [← hproc]
    exact updProc_ne _ hq
  · rw [setFd_cwd, hproc]
  · rw [setFd_state, hproc]

/-- Every descriptor of the list is copied to a process that has none of them. -/
theorem acct_dupFiles (hp : p < NPROC) (hq : q < NPROC) (fds : List Nat)
    (hnodup : fds.Nodup) (acc : Account tb 0 0 free)
    (hfds : ∀ fd ∈ fds, fd < NOFILE ∧ (tb.proc q).ofile fd = none) :
    Acct lim (Settled lim tb) (dupFiles p q fds) fun _ m => ∃ tb', Beside q tb tb' ∧ Settled lim tb' m := by
  induction fds generalizing tb with
  | nil => exact ret fun _ h => ⟨tb, .refl q tb, h⟩
  | cons fd fds ih =>
    obtain ⟨hfd, hnone⟩ := hfds fd mem_cons_self
    obtain ⟨hnot, hnodup⟩ := nodup_cons.mp hnodup
    have hrest := fun fd' h => hfds fd' (mem_cons_of_mem _ h)
    refine acct_read ?_
    cases hf : (tb.proc p).ofile fd with
    | none => exact ih hnodup acc hrest
    | some f =>
      have hlt : f < NFILE := acc.ok.ofile p fd f hf
      refine (acct_filedup acc ?_).seq fun _ => ?_
      · have := fds_pos hp hfd hf
        show 1 ≤ tb.fds f + 0
        omega
      intro m hm
      have acc1 := hm.acc
      revert m
      refine acct_tabs.seq fun t1 => given fun ht1 => ?_
      have hproc : t1.proc = tb.proc := by rw [ht1]; rfl
      rw [← ht1] at acc1 ⊢
      have acc2 : Account (t1.setFd q fd (some f)) 0 0 free := by
        refine acc1.setFd hq hfd (fun j hj => Option.some.inj hj ▸ hlt) fun j => ?_
        rw [hproc, hnone, lend_apply]
        show _ = 0 + _
        omega
      have hB : Beside q tb (t1.setFd q fd (some f)) := .setFd hproc fd (some f)
      refine (acct_setTabs acc2 (by rw [Account.setFd_refs]) (.of_file t1 rfl)).seq fun _ =>
        (ih hnodup acc2 fun fd' h => ?_).post ?_
      · grind [setFd_ofile]
      · rintro - m ⟨tb', hB', h⟩
        exact ⟨tb', hB.trans hB', h⟩

/-- Tables in which process `q` starts with a reference the call owned. -/
theorem acct_fork (acc : Account tb 0 0 free) (hp : Runs tb p) (hB : tb.Buried) (mem : Bool) :
    Acct lim (Settled lim tb) (fork p mem) fun _ => Settles lim tb := by
  refine acct_read ?_
  split
  · exact ret fun _ h => .refl h
  next q hfind =>
  split
  · exact ret fun _ h => .refl h
  have hunused : (tb.proc q).state = .unused := by
    have := find?_some hfind
    simpa using this
  have hq : q < NPROC := mem_range.mp (mem_of_find?_eq_some hfind)
  have hpq : p ≠ q := by
    rintro rfl
    rw [hp.running] at hunused
    cases hunused
  obtain ⟨hcwd, hofile⟩ := hB q (by rw [hunused]; intro h; cases h)
  refine (acct_dupFiles hp.lt hq _ nodup_range acc fun fd h =>
    ⟨mem_range.mp h, hofile fd (mem_range.mp h)⟩).seq fun _ =>
    exists_ fun t1 => given fun hbeside => ?_
  cases hk : (tb.proc p).cwd with
  | none => exact acct_fail (by decide)
  | some k =>
    have hk1 : (t1.proc p).cwd = some k := by rw [hbeside.other p hpq, hk]
    intro m hm
    have acc1 := hm.acc
    revert m
    have hkl : k < NINODE := acc1.ok.cwd p k hk1
    refine (acct_idup hkl ?_).seq fun _ => acct_tabs.seq fun t2 => given fun ht2 => ?_
    · have h1 : 1 ≤ t1.cwds k := tally_pos (Finset.mem_range.mpr hp.lt) hk1
      have h2 : 0 ≤ t1.files k := tally_nonneg _ _ _
      show 1 ≤ t1.files k + t1.cwds k + 0
      omega
    subst ht2
    obtain ⟨acc2, hrefs⟩ : Account _ 0 _ _ ∧ _ := (acc1.lend (some k)).updProc
      (g := fun x => { x with cwd := some k, parent := some p, state := .running }) hq rfl
      (fun j hj => Option.some.inj hj ▸ hkl) fun j => by
        rw [hbeside.cwd, hcwd, lend_apply]
        show point (some k) j + 0 = 0 + (0 + point (some k) j)
        omega
    refine (acct_setTabs acc2 hrefs (.of_file _ rfl)).seq fun _ => ret fun m h => ⟨_, fun hB q' hq' => ?_, h⟩
    have hne : q' ≠ q := by
      rintro rfl
      rw [updProc_self] at hq'
      exact hq' rfl
    rw [updProc_ne _ hne, hbeside.other q' hne] at hq' ⊢
    exact hB q' hq'

/-- Every descriptor of the list is closed, and then cleared. -/
theorem acct_closeFiles (hp : p < NPROC) (fds : List Nat) (hfds : ∀ fd ∈ fds, fd < NOFILE)
    (acc : Account tb 0 0 free) :
    Acct lim (Settled lim tb) (closeFiles p fds) fun _ m => ∃ tb', Beside p tb tb' ∧
      (∀ fd, (tb'.proc p).ofile fd = if fd ∈ fds then none else (tb.proc p).ofile fd) ∧
      Settled lim tb' m := by
  induction fds generalizing tb with
  | nil => exact ret fun _ h => ⟨tb, .refl p tb, fun fd => by rw [if_neg (by simp)], h⟩
  | cons fd fds ih =>
    have hfd := hfds fd mem_cons_self
    have hrest := fun fd' h => hfds fd' (mem_cons_of_mem _ h)
    refine acct_read ?_
    cases hf : (tb.proc p).ofile fd with
    | none =>
      grind
    | some f =>
      have hlt : f < NFILE := acc.ok.ofile p fd f hf
      -- the descriptor still shows the file while it is being closed
      have hback : lend (0 - point (some f)) (some f) = (0 : Nat → Int) := sub_add_cancel ..
      have hclose : Acct lim (Settled lim tb) (fileclose f)
          fun _ => Books lim 0 (tb.closed f) 0 (0 - point (some f)) free := by
        have hpos : 0 ≤ tb.fds f + (0 - point (some f)) f := by
          have := fds_pos hp hfd hf
          show 0 ≤ tb.fds f + (0 - point (some f) f)
          rw [point_self]
          omega
        have h : Acct lim (Books lim 0 tb 0 (lend (0 - point (some f)) (some f)) free) _ _ :=
          acct_fileclose hlt hpos fun _ _ => rfl
        rw [hback] at h
        exact h
      refine hclose.seq fun _ => ?_
      intro m hm
      have acc1 := hm.acc
      revert m
      refine acct_tabs.seq fun t1 => given fun ht1 => ?_
      have hproc : t1.proc = tb.proc := by rw [ht1]; exact closed_proc ..
      rw [← ht1] at acc1 ⊢
      have acc2 : Account (t1.setFd p fd none) 0 0 free := by
        refine acc1.setFd hp hfd (fun j hj => by cases hj) fun j => ?_
        rw [hproc, hf]
        show 0 + 0 = point (some f) j + (0 - point (some f) j)
        omega
      have hB : Beside p tb (t1.setFd p fd none) := .setFd hproc fd none
      refine (acct_setTabs acc2 (by rw [Account.setFd_refs]) (.of_file t1 rfl)).seq fun _ => (ih hrest acc2).post ?_
      rintro - m ⟨tb', hB', hofile, h⟩
      refine ⟨tb', hB.trans hB', fun fd' => ?_, h⟩
      rw [hofile fd', setFd_ofile, hproc]
      by_cases h0 : fd' = fd
      · grind
      · grind

theorem reparent_proc (t : Tabs) (p q : Nat) : ((reparent t p).proc q).cwd = (t.proc q).cwd ∧
    ((reparent t p).proc q).ofile = (t.proc q).ofile ∧
    ((reparent t p).proc q).state = (t.proc q).state := by
  unfold reparent
  dsimp only
  split <;> exact ⟨rfl, rfl, rfl⟩

theorem acct_exitCall (acc : Account tb 0 0 free) (hp : Runs tb p) :
    Acct lim (Settled lim tb) (exit p) fun _ => Settles lim tb := by
  unfold exit
  split
  · exact acct_fail (by decide)
  refine (acct_closeFiles hp.lt _ (fun fd h => mem_range.mp h) acc).seq fun _ =>
    exists_ fun t => given fun hbeside => given fun hofile =>
    acct_beginOp.seq fun _ => ?_
  intro m hm
  have acc1 := hm.acc
  revert m
  refine acct_read ?_
  cases hc : (t.proc p).cwd with
  | none => exact acct_fail (by decide)
  | some c =>
    have hback : lend (0 - point (some c)) (some c) = (0 : Nat → Int) := sub_add_cancel ..
    have acc2 : Account t (0 - point (some c)) 0 free := acc1.ceded hp.lt zero_nonneg hc
    have hput : Acct lim (Books lim (0 + 1) t (lend (0 - point (some c)) (some c)) 0 free) (iput c) _ :=
      acct_iput acc2 (acc1.ok.cwd p c hc)
    rw [hback] at hput
    refine hput.seq fun _ => acct_endOp.seq fun _ => acct_read ?_
    obtain ⟨acc3, hrefs⟩ : Account _ 0 _ _ ∧ _ := acc2.updProc
      (g := fun x => { x with cwd := none, state := .zombie }) hp.lt rfl
      (fun j hj => by cases hj) fun j => by
        rw [hc]
        show 0 + 0 = point (some c) j + (0 - point (some c) j)
        omega
    have hsame := reparent_proc (t.updProc p fun x => { x with cwd := none, state := .zombie }) p
    have hcwds := cwds_congr fun q => (hsame q).1
    have hfiles : (reparent (t.updProc p fun x => { x with cwd := none, state := .zombie }) p).refs =
        (t.updProc p fun x => { x with cwd := none, state := .zombie }).refs := by
      unfold refs
      rw [hcwds]
      rfl
    have hok : (reparent (t.updProc p fun x => { x with cwd := none, state := .zombie }) p).Ok := by
      refine ⟨acc3.ok.idle, acc3.ok.ip, fun q k h => acc3.ok.cwd q k ?_,
        fun q fd f h => acc3.ok.ofile q fd f ?_⟩
      · rw [← (hsame q).1]
        exact h
      · rw [← (hsame q).2.1]
        exact h
    have acc4 := acc3.congr hok hfiles hcwds (fds_congr fun q => (hsame q).2.1) fun _ => rfl
    refine (acct_setTabs acc4 (by rw [hfiles, hrefs]) (.of_file t rfl)).seq fun _ => ret fun m h =>
      ⟨_, fun hB q hq => ?_, h⟩
    rw [(hsame q).2.2] at hq
    rw [(hsame q).1, (hsame q).2.1]
    by_cases hqp : q = p
    · subst hqp
      rw [updProc_self]
      refine ⟨rfl, fun fd hfd => ?_⟩
      rw [hofile fd, if_pos (mem_range.mpr hfd)]
    · rw [updProc_ne _ hqp, hbeside.other q hqp] at hq ⊢
      exact hB q hq

theorem acct_wait (acc : Account tb 0 0 free) (um : UserMem) (addr : Nat) :
    Acct lim (Settled lim tb) (wait p um addr) fun _ => Settles lim tb := by
  refine acct_read ?_
  split
  · next q hfind =>
    split
    · exact ret fun _ h => .refl h
    have hq : q < NPROC := mem_range.mp (mem_of_find?_eq_some hfind)
    have hzombie : (tb.proc q).state = .zombie := by
      have := find?_some hfind
      simp only [Bool.and_eq_true, beq_iff_eq] at this
      exact this.2
    obtain ⟨acc1, hrefs⟩ : Account _ 0 _ _ ∧ _ := acc.updProc
      (g := fun x => { x with parent := none, state := .unused }) hq rfl (acc.ok.cwd q) fun _ => rfl
    refine (acct_setTabs acc1 hrefs (.of_file _ rfl)).seq fun _ => ret fun m h => ⟨_, fun hB q' hq' => ?_, h⟩
    by_cases hne : q' = q
    · subst hne
      rw [updProc_self]
      exact hB q' (by rw [hzombie]; intro h; cases h)
    · rw [updProc_ne _ hne] at hq' ⊢
      exact hB q' hq'
  · split
    · exact acct_fail (by decide)
    · exact ret fun _ h => .refl h

end Process

end Up

/-! ## Every system call -/

/-- A call that has nothing to do with the cache and the tables. -/
theorem acct_aside (o : Icall) (hsafe : ∀ w, Up.Settled lim tb w → Icache.Safe lim o w)
    (hstep : ∀ w r w', Icache.Step lim o w r w' → w' = w) :
    Acct lim (Up.Settled lim tb) (Prog.op o) fun _ => Up.Settled lim tb := by
  intro w h
  refine ⟨hsafe w h, fun r w' hs => ?_⟩
  rw [hstep w r w' hs]
  exact h

/-- A call of the tests, behind the check of its argument. -/
theorem acct_checked {c : Prop} [Decidable c] {x : Up Int}
    (h : Acct lim (Up.Settled lim tb) x fun _ => Up.Settled lim tb) :
    Acct lim (Up.Settled lim tb) (if c then pure (-1) else x) fun _ => Up.Settled lim tb := by
  by_cases hc : c
  · rw [if_pos hc]
    exact ret fun _ h => h
  · rw [if_neg hc]
    exact h

/-- The calls of the tests that may spoil a disk that is to be trusted. -/
def Syscall.spoils : Syscall → Bool
  | .getDiskLbn .. | .rawWrite .. | .forceFail .. | .forceDiskFail .. => true
  | _ => false

open Up in
/-- **Every system call settles its accounts.** -/
theorem Syscall.accounted (c : Syscall) (hroot : Within lim ROOTINO)
    (hc : c.spoils = true → lim = none) (acc : Account tb 0 0 free)
    (hp : Runs tb c.caller) (hB : tb.Buried) :
    Acct lim (Settled lim tb) c.code fun _ => Settles lim tb := by
  have hkeep : ∀ {x : Up Int}, Acct lim (Settled lim tb) x (fun _ => Settled lim tb) →
      Acct lim (Settled lim tb) x fun _ => Settles lim tb := fun h => h.post fun _ _ => .refl
  cases c with
  | «open» p path omode => exact acct_sysOpen acc hp hroot path omode
  | close p fd => exact acct_sysClose acc hp fd
  | dup p fd => exact acct_sysDup acc hp fd
  | read p fd um addr n con => exact acct_sysRead acc fd um addr n con
  | write p fd um addr n con => exact acct_sysWrite acc fd um addr n con
  | fstat p fd um addr => exact acct_sysFstat acc fd um addr
  | link p old new => exact hkeep (acct_sysLink acc hroot zero_nonneg hp.lt old new)
  | unlink p path => exact hkeep (acct_sysUnlink acc hroot zero_nonneg hp.lt path)
  | mkdir p path => exact hkeep (acct_createCall acc hroot zero_nonneg hp.lt path (by decide) 0 0)
  | mknod p path major minor =>
    exact hkeep (acct_createCall acc hroot zero_nonneg hp.lt path (by decide) _ _)
  | symlink p target path => exact hkeep (acct_sysSymlink acc hroot zero_nonneg hp.lt target path)
  | chdir p path => exact acct_sysChdir acc hp hroot path
  | chmod p path mode isAdd recursive depth =>
    cases path with
    | none => exact hkeep (ret fun _ h => h)
    | some path => exact hkeep (acct_chperm hroot hp.lt acc zero_nonneg mode isAdd recursive depth _)
  | pipe p um addr mem => exact acct_sysPipe acc hp um addr mem
  | exec p path argv pt mem ret =>
    exact hkeep (acct_sysExec acc hroot zero_nonneg hp.lt path argv pt mem ret)
  | fork p mem => exact acct_fork acc hp hB mem
  | exit p => exact acct_exitCall acc hp
  | wait p um addr => exact acct_wait acc um addr
  | rawRead p pbn um addr =>
    exact hkeep (acct_checked (acct_aside (.rawRead ..) (fun _ h => h.out) fun _ _ _ h => h))
  | rawWrite p pbn um addr =>
    exact hkeep (acct_checked (acct_aside (.rawWrite ..) (fun _ _ => hc rfl) fun _ _ _ h => h))
  | getDiskLbn p fd lbn => exact acct_sysGetDiskLbn acc (hc rfl) fd lbn
  | forceFail p pbn =>
    exact hkeep (acct_checked ((acct_aside (.forceFail pbn) (fun _ _ => hc rfl)
      fun _ _ _ h => h).seq fun _ => ret fun _ h => h))
  | forceDiskFail p id =>
    exact hkeep (acct_checked ((acct_aside (.forceDiskFail id) (fun _ _ => hc rfl)
      fun _ _ _ h => h).seq fun _ => ret fun _ h => h))

/-! ## Whole histories -/

/-- How many files in use refer to each inode cache entry. -/
def Tabs.openFiles (t : Tabs) : Nat → Int :=
  tally (Finset.range NFILE) fun f => if 0 < (t.file f).ref then (t.file f).target else none

/-- Every count is the number of pointers to what it counts, and nothing is held. -/
structure Kern.Accounted (s : Kern) : Prop where
  files : ∀ f, f < NFILE → (s.mem.tabs.file f).ref = s.mem.tabs.fds f
  inodes : ∀ k, k < NINODE → (s.mem.icache k).ref = s.mem.tabs.openFiles k + s.mem.tabs.cwds k
  unlocked : ∀ k, k < NINODE → (s.mem.icache k).locked = false
  released : ∀ i, i < NBUF → (s.mach.buf i).lock = none
  closed : s.mach.log.outstanding = 0

/-- The books of a kernel between system calls; `type` is what is believed of the disk. -/
structure Mem.Settled (lim : Option Nat) (type : Nat → Nat) (m : Mem) : Prop where
  buried : m.tabs.Buried
  books : Up.Settled lim m.tabs ⟨m, type, 0⟩

/-- The machine between system calls. -/
structure Kern.Settled (s : Kern) : Prop where
  mem : s.mem.Settled none fun _ => 0
  grip : s.mach.Gripped fun _ => False
  closed : s.mach.log.outstanding = 0
  idle : s.mach.log.committing = false

/-- One system call of a running process. -/
theorem Mem.Settled.call {type : Nat → Nat} {m : Mem}
    (h : m.Settled lim type) (hroot : Within lim ROOTINO) (hc : c.spoils = true → lim = none)
    (hp : Up.Runs m.tabs c.caller) : c.code.wp (Icache.spec lim)
      (fun _ w => w.mem.Settled lim w.type ∧ w.out = 0) ⟨m, type, 0⟩ := by
  refine wp_mono (c.accounted hroot hc h.books.acc hp h.buried _ h.books) ?_
  rintro r w ⟨tb, hB, hb⟩
  obtain rfl := hb.tabs
  have hw : w = ⟨w.mem, w.type, 0⟩ := by rw [← hb.out]
  exact ⟨⟨hB h.buried, hw ▸ hb⟩, hb.out⟩

/-- Nothing is open but the root, by the first process. -/
theorem bootMem_settled (hroot : Within lim ROOTINO) (type : Nat → Nat) : bootMem.Settled lim type := by
  have hcwd : ∀ p, (bootMem.tabs.proc p).cwd = if p = 0 then some 0 else none := fun p => by
    show (if p = 0 then _ else _ : Proc).cwd = _
    split <;> rfl
  have hofile : ∀ p fd, (bootMem.tabs.proc p).ofile fd = none := fun p fd => by
    show (if p = 0 then _ else _ : Proc).ofile fd = _
    split <;> rfl
  have hfds : ∀ f, bootMem.tabs.fds f = 0 := fun f => tally_zero fun q _ h => by
    rw [hofile] at h
    cases h
  have hfiles : ∀ k, bootMem.tabs.files k = 0 := fun k => tally_zero fun _ _ h => by
    cases h
  have hcwds : ∀ k, bootMem.tabs.cwds k = if k = 0 then 1 else 0 := fun k => by
    have hpt : ∀ p, point (bootMem.tabs.proc p).cwd k = if p = 0 then (if k = 0 then 1 else 0) else 0 :=
      fun p => by
        rw [hcwd, point_eq]
        split <;> simp [eq_comm]
    rw [cwds, tally_eq_sum, Finset.sum_congr rfl fun p _ => hpt p, Finset.sum_ite_eq']
    rfl
  refine ⟨fun p hp => ⟨?_, fun fd _ => hofile p fd⟩, ⟨rfl, rfl, ⟨⟨fun _ _ => rfl, ?_, ?_, ?_⟩, ?_, ?_,
    fun _ h => absurd rfl h⟩, ?_, fun _ => rfl, ?_, ?_, ?_⟩⟩
  · have hne : p ≠ 0 := by
      rintro rfl
      exact hp rfl
    rw [hcwd, if_neg hne]
  · intro f k h
    cases h
  · intro p k h
    rw [hcwd] at h
    split at h
    · obtain rfl := Option.some.inj h
      decide
    · cases h
  · intro p fd f h
    rw [hofile] at h
    cases h
  · intro f
    rw [hfds]
    rfl
  · intro k
    exact Int.add_nonneg (tally_nonneg _ _ _) (Int.le_refl 0)
  · intro k
    show (if k = 0 then 1 else 0 : Int) = bootMem.tabs.files k + bootMem.tabs.cwds k + 0
    rw [hfiles, hcwds]
    omega
  · intro k t h
    cases h
  · intro k h
    have hk : k = 0 := by
      by_contra hk
      have h : 1 ≤ (if k = 0 then 1 else 0 : Int) := h
      rw [if_neg hk] at h
      omega
    subst hk
    exact hroot
  · rintro - k ⟨f, -, h, -⟩
    cases h

namespace Kern

variable {sb : Superblock} {s s' : Kern}

theorem Settled.accounted (h : s.Settled) : s.Accounted := by
  have hfref : ∀ f, (s.mem.tabs.file f).ref = s.mem.tabs.fds f := fun f =>
    (h.mem.books.acc.fref f).trans (Int.add_zero _)
  -- a file that is not in use has no target, so only files in use are counted
  have hopen : s.mem.tabs.openFiles = s.mem.tabs.files := by
    unfold openFiles files
    congr 1
    funext f
    by_cases hpos : 0 < (s.mem.tabs.file f).ref
    · rw [if_pos hpos]
    · have h0 : 0 ≤ (s.mem.tabs.file f).ref := by
        rw [hfref]
        exact Up.fds_nonneg _ f
      have htype := h.mem.books.acc.ok.idle f (by omega)
      rw [if_neg hpos, File.target, htype]
  refine ⟨fun f _ => hfref f, fun k _ => ?_, fun k _ => h.mem.books.locked k, fun i hi => ?_, h.closed⟩
  · rw [hopen]
    exact (h.mem.books.ref k).trans (Int.add_zero _)
  · by_contra hl
    exact (h.grip.mine i hi hl).2.2

theorem boot_settled (h : bootKern sb d = .ok s) : s.Settled := by
  obtain ⟨m, hm, rfl⟩ : ∃ m, initlog (bootMach 1 d) sb.logstart sb.nlog = .ok m ∧ s = ⟨m, bootMem⟩ := by
    unfold bootKern at h
    cases hm : initlog (bootMach 1 d) sb.logstart sb.nlog with
    | error e =>
      rw [hm] at h
      cases h
    | ok m =>
      rw [hm] at h
      exact ⟨m, rfl, (Except.ok.inj h).symm⟩
  obtain ⟨hgrip, hout, hidle, -⟩ := Mach.boot_gripped hm
  exact ⟨bootMem_settled (fun _ h => by cases h) _, hgrip, hout, hidle⟩

/-- One system call of a running process, whatever is on the disk. -/
theorem Settled.syscall (sb : Superblock) (h : s.Settled) (hc : Live c s) : match s.syscall sb c with
    | .ok (_, s') => s'.Settled
    | .error e => e.misuse = false := by
  have hcode := h.mem.call (c := c) (fun _ h => by cases h) (fun _ => rfl) ⟨hc.1, hc.2⟩
  have hdesk : OnDesk False s ⟨s.mem, fun _ => none, 0⟩ :=
    ⟨rfl, h.grip.iff fun _ => iff_of_false id fun h => h rfl, fun _ _ _ h => (by cases h), h.closed, h.idle,
      False.elim⟩
  have hrefines : Refines (J := Blocks) (Icall.code sb) (Icache.spec none)
      (Desk.spec False) Desk.Idle := fun o t w hI hsafe => Desk.icall_serves sb o hI (.inr hsafe)
  have hserves : Serves serve (fun e => ¬ False ∧ e.misuse = true) (Desk.spec False)
      (OnDesk False) := fun o s t hR hsafe => serve_desk False o s t hR False.elim hsafe
  have hrun := wp_sound hserves hdesk (wp_expand hrefines ⟨rfl, rfl, fun _ => rfl⟩ hcode)
  rw [syscall_eq, Up.code]
  cases hr : (expand (Icall.code sb) c.code).run serve s with
  | error e =>
    rw [hr] at hrun
    exact Bool.not_eq_true _ |>.mp fun he => hrun ⟨id, he⟩
  | ok r =>
    rw [hr] at hrun
    obtain ⟨t, ⟨w, ⟨hm, hw⟩, hI⟩, hd⟩ := hrun
    rw [← hI.mem, ← hd.mem] at hm
    exact ⟨⟨hm.buried, hm.books.retype _⟩, hd.grip.iff fun b => iff_of_false (fun hb => hb (hI.held b)) id,
      hd.out.trans (hI.out.trans hw), hd.idle⟩

theorem History.settled {s0 : Kern} (hboot : bootKern sb d = .ok s0)
    (h : History sb Live s0 s) : s.Settled := by
  refine h.invariant (boot_settled hboot) fun hs hc hr => ?_
  have := hs.syscall sb hc
  rw [hr] at this
  exact this

end Kern

/-- **Between system calls** every file's count is the number of descriptors that show it and every
    inode's the number of files in use and current directories that point to it; no inode, no buffer
    and no operation is left open.  And no call that can follow fails by using a file or an inode that
    its caller does not have. -/
theorem reference_accounting {sb : Superblock} {d : Nat → Block} {s0 s : Kern}
    (hboot : bootKern sb d = .ok s0) (h : Kern.History sb Kern.Live s0 s) :
    s.Accounted ∧ ∀ (c : Syscall) (msg : String), Kern.Live c s →
      s.syscall sb c = .error (.panic msg) → msg ≠ "filedup" ∧ msg ≠ "fileclose" ∧ msg ≠ "iunlock" := by
  have hs := h.settled hboot
  refine ⟨hs.accounted, fun c msg hc hr => ?_⟩
  have hgood := hs.syscall sb hc
  rw [hr] at hgood
  have hmem := of_decide_eq_false hgood
  simp only [mem_cons, not_mem_nil, or_false, not_or] at hmem
  exact hmem

/-- Init opens the file and duplicates the descriptor; its child closes one of the copies and opens a
    pipe. -/
def sharedFile : List Syscall :=
  [.open 0 (some pathA) O_RDWR, .dup 0 0, .fork 0 true, .close 1 1, .pipe 1 onePage 0 true]

def sharedRun : Option Kern := do
  let s ← (bootKern mkfsSb mkfsDisk).toOption
  s.follow mkfsSb Kern.Live sharedFile

theorem sharedRun_eq : (sharedRun.map fun s => ((s.mem.tabs.file 0).ref, (s.mem.tabs.file 1).ref,
    (s.mem.icache 1).ref, (s.mem.icache 0).ref)) = some (3, 1, 1, 2) := by decide +kernel

/-- Three descriptors share the file, and two processes the root. -/
theorem reference_accounting_shared : ∃ s : Kern, s.mem.tabs.fds 0 = 3 ∧
    s.mem.tabs.openFiles 0 + s.mem.tabs.cwds 0 = 2 ∧ s.mach.log.outstanding = 0 := by
  obtain ⟨s, hr, h⟩ := Option.map_eq_some_iff.mp sharedRun_eq
  rw [sharedRun] at hr
  obtain ⟨s0, hs0, hs⟩ := Option.bind_eq_some_iff.mp hr
  obtain ⟨hacc, -⟩ := reference_accounting (toOption_eq_some hs0) (Kern.follow_history Kern.History.nil hs)
  refine ⟨s, ?_, ?_, hacc.closed⟩
  · rw [← hacc.files 0 (by decide)]
    exact congrArg Prod.fst h
  · rw [← hacc.inodes 0 (by decide)]
    exact congrArg (fun x => x.2.2.2) h

end Xv6
