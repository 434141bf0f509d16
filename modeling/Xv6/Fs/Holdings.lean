/-
  FILES AND DESCRIPTORS: the calls that hand references over.

  `filealloc` makes a file that a local variable owns, `fdalloc` hands it to a descriptor, and
  `sys_open` hands the inode it looked up to the file; `fileclose` and `chdir` take references out of
  the tables again.  Each of these is one step of the ledger, and the system calls are sequences of them.
-/
import Xv6.Fs.Accounts

namespace Xv6

open Prog Tally Triple Tabs

variable {g : File → File} {f k p : Nat} {floc floc' loc : Nat → Int} {lk : Nat → Option Nat}
  {lim : Option Nat} {t' tb : Tabs}

/-! ## Steps of the ledger -/

namespace Tabs

theorem filealloc_some (h : tb.filealloc = some (f, t')) :
    f < NFILE ∧ (tb.file f).ref = 0 ∧ t' = tb.updFile f fun x => { x with ref := 1 } := by
  unfold filealloc at h
  split at h
  · grind
  · cases h

theorem fdalloc_some {fd : Nat} (h : tb.fdalloc p f = some (fd, t')) :
    fd < NOFILE ∧ (tb.proc p).ofile fd = none ∧ t' = tb.setFd p fd (some f) := by
  unfold fdalloc at h
  split at h
  · grind
  · cases h

theorem argfd_some {fd' : Nat} {fd : Int} (h : tb.argfd p fd = some (fd', f)) :
    fd' < NOFILE ∧ (tb.proc p).ofile fd' = some f := by
  unfold argfd at h
  split at h
  · cases h
  · next hfd =>
    obtain ⟨f', hf', he⟩ := Option.map_eq_some_iff.mp h
    obtain ⟨rfl, rfl⟩ := Prod.mk.inj he
    exact ⟨by omega, hf'⟩

theorem filealloc_keeps (h : tb.filealloc = some (f, t')) : Books.Keeps lim lk tb t' := by
  obtain ⟨-, -, rfl⟩ := filealloc_some h
  exact .updFile fun _ ht hw => ⟨ht, hw⟩

/-- The file table after `fileclose(f)`. -/
def closed (t : Tabs) (f : Nat) : Tabs :=
  if (t.file f).ref - 1 > 0 then t.updFile f fun x => { x with ref := x.ref - 1 }
  else
    let t' := t.updFile f fun x => { x with ref := 0, type := .none }
    match (t.file f).type with
    | .pipe => t'.pipeclose (t.file f).pipe (t.file f).writable
    | _ => t'

theorem closed_proc (t : Tabs) (f : Nat) : (t.closed f).proc = t.proc := by
  unfold closed
  split
  · rfl
  · dsimp only
    split <;> rfl

end Tabs

namespace Account

variable {fd : Nat}

section

variable (acc : Account tb loc floc lk)
include acc

/-- A file's count changes with what the running call owns of it. -/
theorem recount (hidle : (g (tb.file f)).ref = 0 → (g (tb.file f)).type = .none)
    (hip : ∀ k, (g (tb.file f)).ip = some k → k < NINODE)
    (ht : (g (tb.file f)).target = (tb.file f).target)
    (href : (g (tb.file f)).ref = tb.fds f + floc' f) (hne : ∀ j, j ≠ f → floc' j = floc j) :
    Account (tb.updFile f g) loc floc' lk := by
  refine ⟨acc.ok.updFile hidle hip, fun j => ?_, acc.files, fun j hj => ?_⟩
  · by_cases h : j = f
    · subst h
      rw [updFile_self]
      exact href
    · rw [updFile_ne g h, hne j h]
      exact acc.fref j
  · rw [updFile_refs ht]
    exact acc.lock j hj

theorem filealloc (h : tb.filealloc = some (f, t')) :
    f < NFILE ∧ (t'.file f).target = none ∧ t'.proc = tb.proc ∧ t'.refs = tb.refs ∧
      Account t' loc (Xv6.lend floc (some f)) lk := by
  obtain ⟨hf, href, rfl⟩ := filealloc_some h
  have htype := acc.ok.idle f href
  refine ⟨hf, ?_, rfl, updFile_refs rfl, acc.recount ?_ (acc.ok.ip f) rfl ?_ fun j hj => ?_⟩
  · rw [updFile_self]
    simp [File.target, htype]
  · intro h1
    cases h1
  · have h0 := acc.fref f
    rw [href] at h0
    rw [lend_apply, point_self]
    show (1 : Int) = _
    omega
  · rw [lend_apply, point_ne hj, Int.add_zero]

/-- A descriptor is stored over another, and the running call owns the difference. -/
theorem setFd {x : Option Nat} (hp : p < NPROC) (hfd : fd < NOFILE) (hx : ∀ f, x = some f → f < NFILE)
    (h : ∀ f, point x f + floc' f = point ((tb.proc p).ofile fd) f + floc f) :
    Account (tb.setFd p fd x) loc floc' lk := by
  have hcw : (tb.setFd p fd x).cwds = tb.cwds := cwds_setFd x
  refine ⟨acc.ok.setFd hx, fun f => ?_, fun k => ?_, fun k hk => ?_⟩
  · have hf := acc.fref f
    have hh := h f
    rw [fds_setFd hp hfd]
    show (tb.file f).ref = tb.fds f - point ((tb.proc p).ofile fd) f + point x f + floc' f
    omega
  · rw [hcw]
    exact acc.files k
  · have hr : (tb.setFd p fd x).refs = tb.refs := by
      unfold refs
      rw [hcw]
      rfl
    rw [hr]
    exact acc.lock k hk

omit acc in
theorem setFd_refs (t : Tabs) (p fd : Nat) (x : Option Nat) : (t.setFd p fd x).refs = t.refs := by
  unfold refs
  rw [cwds_setFd]
  rfl

omit acc in
/-- The file a local variable owned goes to a descriptor. -/
theorem fdalloc (acc : Account tb loc (Xv6.lend floc (some f)) lk) (hp : p < NPROC) (hf : f < NFILE)
    (h : tb.fdalloc p f = some (fd, t')) :
    t' = tb.setFd p fd (some f) ∧ t'.refs = tb.refs ∧ Account t' loc floc lk := by
  obtain ⟨hfd, hnone, rfl⟩ := fdalloc_some h
  refine ⟨rfl, setFd_refs .., acc.setFd hp hfd (fun j hj => ?_) fun j => ?_⟩
  · obtain rfl := Option.some.inj hj
    exact hf
  · rw [hnone, lend_apply]
    show _ = 0 + _
    omega

/-- A descriptor is cleared: its file is the running call's. -/
theorem clearFd (hp : p < NPROC) (hfd : fd < NOFILE) (hf : (tb.proc p).ofile fd = some f) :
    Account (tb.setFd p fd none) loc (Xv6.lend floc (some f)) lk := by
  refine acc.setFd hp hfd (fun _ h => by cases h) fun j => ?_
  rw [hf, lend_apply]
  show 0 + _ = _
  omega

/-- An inode a local variable owned goes to a file. -/
theorem give (hf : f < NFILE) (hk : k < NINODE)
    (hnone : (tb.file f).target = none) (ht : (g (tb.file f)).target = some k)
    (hip : (g (tb.file f)).ip = some k) (hidle : (g (tb.file f)).ref ≠ 0)
    (href : (g (tb.file f)).ref = (tb.file f).ref) :
    (tb.updFile f g).refs = tb.refs + point (some k) ∧ Account (tb.updFile f g) loc floc lk := by
  have hrefs : (tb.updFile f g).refs = tb.refs + point (some k) := by
    unfold refs
    rw [files_updFile hf, hnone, ht, cwds_updFile, point_none, sub_zero]
    exact add_right_comm ..
  refine ⟨hrefs, acc.ok.updFile (fun h => absurd h hidle) (fun j hj => ?_), fun j => ?_, acc.files,
    fun j hj => ?_⟩
  · obtain rfl := Option.some.inj (hip.symm.trans hj)
    exact hk
  · by_cases h : j = f
    · subst h
      rw [updFile_self, href]
      exact acc.fref j
    · rw [updFile_ne g h]
      exact acc.fref j
  · obtain ⟨hlt, h⟩ := acc.lock j hj
    have hpos := point_nonneg (some k) j
    rw [hrefs]
    refine ⟨hlt, ?_⟩
    show 1 ≤ tb.refs j + point (some k) j + loc j
    omega

omit acc in
/-- The last reference to a file goes, and with it the file's reference to its inode becomes the
    running call's. -/
theorem retire (acc : Account tb loc (Xv6.lend floc (some f)) lk) (hf : f < NFILE)
    (hone : (tb.file f).ref = 1) (hfree : ∀ k, (tb.file f).target = some k → lk k = none) :
    (tb.updFile f fun x => { x with ref := 0, type := .none }).refs +
        Xv6.lend loc (tb.file f).target = tb.refs + loc ∧
      Account (tb.updFile f fun x => { x with ref := 0, type := .none }) loc floc lk := by
  have htarget : ({ tb.file f with ref := 0, type := FdType.none } : File).target = none := rfl
  have hrefs : (tb.updFile f fun x => { x with ref := 0, type := .none }).refs =
      tb.refs - point (tb.file f).target := by
    unfold refs
    rw [files_updFile hf, htarget, cwds_updFile, point_none, add_zero]
    exact sub_add_eq_add_sub ..
  refine ⟨?_, acc.ok.updFile (fun _ => rfl) (acc.ok.ip f), fun j => ?_, acc.files, fun j hj => ?_⟩
  · funext j
    rw [hrefs]
    show tb.refs j - point (tb.file f).target j + Xv6.lend loc (tb.file f).target j = tb.refs j + loc j
    rw [lend_apply]
    omega
  · have hj := acc.fref j
    rw [lend_apply] at hj
    by_cases h : j = f
    · subst h
      rw [point_self, hone] at hj
      rw [updFile_self]
      show (0 : Int) = tb.fds j + floc j
      omega
    · rw [point_ne h] at hj
      rw [updFile_ne _ h]
      show _ = tb.fds j + floc j
      omega
  · obtain ⟨hlt, h⟩ := acc.lock j hj
    rw [hrefs]
    refine ⟨hlt, ?_⟩
    show 1 ≤ tb.refs j - point (tb.file f).target j + loc j
    have hz : point (tb.file f).target j = 0 := by
      rw [point_eq, if_neg]
      intro ht
      exact hj (hfree j ht)
    omega

omit acc in
/-- The account after `fileclose`. -/
theorem closed (acc : Account tb loc (Xv6.lend floc (some f)) lk) (hf : f < NFILE)
    (hpos : 0 ≤ tb.fds f + floc f) (hfree : ∀ k, (tb.file f).target = some k → lk k = none) :
    Account (tb.closed f) loc floc lk := by
  have href := acc.fref f
  rw [lend_apply, point_self] at href
  unfold Tabs.closed
  split
  · refine acc.recount (fun h => ?_) (acc.ok.ip f) rfl ?_ fun j hj => ?_
    · have h : (tb.file f).ref - 1 = 0 := h
      omega
    · show (tb.file f).ref - 1 = _
      omega
    · rw [lend_apply, point_ne hj, Int.add_zero]
  · obtain ⟨-, acc'⟩ := acc.retire hf (by omega) hfree
    split
    · exact acc'.updPipe _ _
    · exact acc'

/-- A process's current directory is replaced, and the running call owns the difference. -/
theorem updProc {g : Proc → Proc} {loc' : Nat → Int} (hp : p < NPROC)
    (hofile : (g (tb.proc p)).ofile = (tb.proc p).ofile)
    (hcwd : ∀ k, (g (tb.proc p)).cwd = some k → k < NINODE)
    (h : ∀ k, point (g (tb.proc p)).cwd k + loc' k = point (tb.proc p).cwd k + loc k) :
    Account (tb.updProc p g) loc' floc lk ∧ (tb.updProc p g).refs + loc' = tb.refs + loc := by
  have hcwds : ∀ k, (tb.updProc p g).cwds k + loc' k = tb.cwds k + loc k := fun k => by
    have hk := h k
    rw [cwds_updProc hp]
    show tb.cwds k - point (tb.proc p).cwd k + point (g (tb.proc p)).cwd k + loc' k = _
    omega
  have hrefs : (tb.updProc p g).refs + loc' = tb.refs + loc := by
    funext k
    have hk := hcwds k
    show tb.files k + (tb.updProc p g).cwds k + loc' k = tb.files k + tb.cwds k + loc k
    omega
  have hfd : ∀ q, ((tb.updProc p g).proc q).ofile = (tb.proc q).ofile := fun q => by
    by_cases hq : q = p
    · subst hq
      rw [updProc_self]
      exact hofile
    · rw [updProc_ne _ hq]
  refine ⟨⟨⟨acc.ok.idle, acc.ok.ip, fun q j => ?_, fun q fd f => ?_⟩, fun f => ?_, fun k => ?_,
    fun k hk => ⟨(acc.lock k hk).1, ?_⟩⟩, hrefs⟩
  · by_cases hq : q = p
    · subst hq
      rw [updProc_self]
      exact hcwd j
    · rw [updProc_ne _ hq]
      exact acc.ok.cwd q j
  · rw [hfd q]
    exact acc.ok.ofile q fd f
  · rw [fds_congr hfd]
    exact acc.fref f
  · rw [hcwds]
    exact acc.files k
  · have := congrFun hrefs k
    have hl := (acc.lock k hk).2
    show 1 ≤ ((tb.updProc p g).refs + loc') k
    rw [this]
    exact hl

end

/-- The running call may give away the reference of the current directory before it replaces the
    directory. -/
theorem ceded {c : Nat} (acc : Account tb loc floc fun _ => none) (hp : p < NPROC)
    (hloc : ∀ k, 0 ≤ loc k) (hc : (tb.proc p).cwd = some c) :
    Account tb (loc - point (some c)) floc fun _ => none := by
  refine ⟨acc.ok, acc.fref, fun j => ?_, fun j hj => absurd rfl hj⟩
  show 0 ≤ tb.cwds j + (loc j - point (some c) j)
  have h1 := hloc j
  by_cases hj : j = c
  · subst hj
    have h2 : 1 ≤ tb.cwds j := tally_pos (Finset.mem_range.mpr hp) hc
    rw [point_self]
    omega
  · have h2 : 0 ≤ tb.cwds j := tally_nonneg _ _ _
    rw [point_ne hj]
    omega

end Account

namespace Up

section Files

variable {n : Int} {w : Icache} {d : Nat}

/-- `ip->ref` of a file somebody has. -/
theorem acct_filedup (acc : Account tb loc floc lk) (hpos : 1 ≤ tb.fds f + floc f) :
    Acct lim (Books lim n tb loc floc lk) (filedup f) fun _ =>
      Books lim n (tb.updFile f fun x => { x with ref := x.ref + 1 }) loc (lend floc (some f)) lk := by
  refine acct_read ?_
  have href := acc.fref f
  rw [if_neg (by omega)]
  refine acct_setTabs (acc.recount (fun h => ?_) (acc.ok.ip f) rfl ?_ fun j hj => ?_) ?_
    (.updFile fun _ ht hw => ⟨ht, hw⟩)
  · have h : (tb.file f).ref + 1 = 0 := h
    omega
  · show (tb.file f).ref + 1 = _
    rw [lend_apply, point_self]
    omega
  · rw [lend_apply, point_ne hj, Int.add_zero]
  · rw [updFile_refs rfl]

/-- A file the running call owns is closed. -/
theorem acct_fileclose (hf : f < NFILE) (hpos : 0 ≤ tb.fds f + floc f)
    (hfree : ∀ k, (tb.file f).target = some k → lk k = none) :
    Acct lim (Books lim n tb loc (lend floc (some f)) lk) (fileclose f)
      fun _ => Books lim n (tb.closed f) loc floc lk := by
  intro m h
  have acc := h.acc
  revert m
  refine acct_read ?_
  have href := acc.fref f
  rw [lend_apply, point_self] at href
  have hclosed := acc.closed hf hpos hfree
  unfold Tabs.closed at hclosed ⊢
  rw [if_neg (by omega)]
  split
  · -- others have it too
    next hmany =>
    rw [if_pos hmany] at hclosed
    refine acct_setTabs hclosed ?_ (.updFile fun _ ht hw => ⟨ht, hw⟩)
    rw [updFile_refs rfl]
  · next hlast =>
    have hone : (tb.file f).ref = 1 := by omega
    obtain ⟨hrefs, acc'⟩ := acc.retire hf hone hfree
    have hput : ∀ x, Entry x →
        Acct lim (Books lim n (tb.updFile f fun x => { x with ref := 0, type := .none }) (lend loc x) floc lk)
          (do beginOp; let k ← deref x; iput k; endOp)
          fun _ => Books lim n (tb.updFile f fun x => { x with ref := 0, type := .none }) loc floc lk := by
      intro x hx
      refine acct_beginOp.seq fun _ => (acct_deref x).seq fun k => given fun hk => ?_
      subst hk
      exact (acct_iput acc' (hx k rfl)).seq fun _ => acct_endOp
    refine (acct_setTabs (acc'.lend (tb.file f).target) hrefs
      (.updFile fun _ ht _ => (by cases ht))).seq fun _ => ?_
    cases htype : (tb.file f).type with
    | none =>
      rw [show (tb.file f).target = none by simp [File.target, htype]]
      exact ret fun _ h => h
    | pipe =>
      rw [show (tb.file f).target = none by simp [File.target, htype]]
      refine acct_read ?_
      exact acct_setTabs (acc'.updPipe _ _) rfl fun _ h => .inl h
    | inode =>
      rw [show (tb.file f).target = (tb.file f).ip by simp [File.target, htype]]
      exact hput _ (acc.ok.ip f)
    | device =>
      rw [show (tb.file f).target = (tb.file f).ip by simp [File.target, htype]]
      exact hput _ (acc.ok.ip f)

/-- Tables in which, as before, a process that is not running has nothing. -/
def Later (lim : Option Nat) (n : Int) (tb : Tabs) (loc floc : Nat → Int) (lk : Nat → Option Nat)
    (w : Icache) : Prop :=
  ∃ tb' : Tabs, (tb.Buried → tb'.Buried) ∧ Books lim n tb' loc floc lk w

theorem Later.refl (h : Books lim n tb loc floc lk w) : Later lim n tb loc floc lk w := ⟨tb, id, h⟩

theorem Likewise.later (h : Likewise lim n tb loc floc lk w) : Later lim n tb loc floc lk w := by
  obtain ⟨tb', hproc, hb⟩ := h
  exact ⟨tb', fun hB => Tabs.Buried.congr hB hproc, hb⟩

/-! ## Descriptors -/

/-- The caller is a running process. -/
structure Runs (tb : Tabs) (p : Nat) : Prop where
  lt : p < NPROC
  running : (tb.proc p).state = .running

theorem Runs.congr {tb' : Tabs} (h : Runs tb p) (hproc : tb'.proc = tb.proc) : Runs tb' p :=
  ⟨h.lt, by rw [hproc]; exact h.running⟩

/-- The descriptor's own reference. -/
theorem fds_pos {fd : Nat} (hp : p < NPROC) (hfd : fd < NOFILE)
    (hf : (tb.proc p).ofile fd = some f) : 1 ≤ tb.fds f := by
  refine tally_pos (i := ((p, fd) : Nat × Nat)) ?_ hf
  rw [Finset.mem_product]
  exact ⟨Finset.mem_range.mpr hp, Finset.mem_range.mpr hfd⟩

theorem fds_nonneg (tb : Tabs) (f : Nat) : 0 ≤ tb.fds f := tally_nonneg _ _ _

variable (acc : Account tb loc floc lk) (hp : Runs tb p)

include acc in
theorem acct_openFail (hk : k < NINODE) (hlk : lk k = none) :
    Acct lim (Books lim (n + 1) tb (lend loc (some k)) floc (lock lk k d)) (openFail k)
      fun _ => Books lim n tb loc floc lk :=
  (acct_iunlockput acc hk hlk).seq acct_exit

include acc hp in
/-- The inode that was looked up goes to the new file, or is given back. -/
theorem acct_openInode (hk : k < NINODE) (hlk : lk k = none) (omode : Nat)
    (hdir : (omode &&& O_WRONLY != 0 || omode &&& O_RDWR != 0) = true → lim ≠ none → d ≠ T_DIR)
    (hfloc : ∀ f, 0 ≤ floc f) :
    Acct lim (Books lim (n + 1) tb (lend loc (some k)) floc (lock lk k d)) (openInode p k omode)
      fun _ => Later lim n tb loc floc lk := by
  refine (acct_inode k).seq fun ip => ?_
  split
  · exact (acct_openFail acc hk hlk).post fun _ _ h => .refl h
  refine acct_read ?_
  cases hfa : tb.filealloc with
  | none => exact (acct_openFail acc hk hlk).post fun _ _ h => .refl h
  | some r =>
    obtain ⟨f, t'⟩ := r
    obtain ⟨hf, htarget, hproc, hrefs, acc'⟩ := (acc.hold hk).filealloc hfa
    obtain ⟨-, -, acc0⟩ := (acc.filealloc hfa).2.2
    dsimp only
    cases hfd : t'.fdalloc p f with
    | none =>
      -- no descriptor: the file is closed again, then the inode is put back
      have hpos : 0 ≤ t'.fds f + floc f := by
        have h1 := fds_nonneg t' f
        have h2 := hfloc f
        omega
      refine (acct_setTabs acc' (by rw [hrefs]) (filealloc_keeps hfa)).seq fun _ =>
        (acct_fileclose hf hpos ?_).seq fun _ => ?_
      · intro j hj
        rw [htarget] at hj
        cases hj
      · have hclosed : (t'.closed f).proc = tb.proc := (closed_proc t' f).trans hproc
        intro m h
        have hfree : Account (t'.closed f) loc floc lk := acc0.closed hf hpos fun j hj => by
          rw [htarget] at hj
          cases hj
        exact (acct_openFail hfree hk hlk).post (fun _ _ h => ⟨_, fun hB => Tabs.Buried.congr hB hclosed, h⟩) m h
    | some r =>
      obtain ⟨fd, t''⟩ := r
      obtain ⟨rfl, hrefs'', acc''⟩ := acc0.fdalloc hp.lt hf hfd
      have href1 : (t'.file f).ref = 1 := by
        obtain ⟨-, -, rfl⟩ := filealloc_some hfa
        rw [updFile_self]
      obtain ⟨hgive, acc3⟩ := acc''.give (f := f) (k := k) (g := fun x =>
          { x with
            type := if ip.type = T_DEVICE then .device else .inode
            major := if ip.type = T_DEVICE then ip.major else x.major
            off := if ip.type = T_DEVICE then x.off else 0
            ip := some k
            readable := omode &&& O_WRONLY == 0
            writable := omode &&& O_WRONLY != 0 || omode &&& O_RDWR != 0 }) hf hk htarget
        (by by_cases hd : ip.type = T_DEVICE <;> simp [File.target, hd]) rfl
        (by show (t'.file f).ref ≠ 0; rw [href1]; decide) rfl
      dsimp only
      generalize hT : updFile (t'.setFd p fd (some f)) f _ = T at hgive acc3 ⊢
      have hTrefs : T.refs = tb.refs + point (some k) := by
        rw [hgive, hrefs'', (acc.filealloc hfa).2.2.2.1]
      have hTproc : T.proc = (t'.setFd p fd (some f)).proc := by
        rw [← hT]
        rfl
      have hown : 1 ≤ T.refs k + loc k := by
        have h0 := acc.refs_nonneg k
        rw [hTrefs]
        show 1 ≤ tb.refs k + point (some k) k + loc k
        rw [point_self]
        omega
      -- what the new file may write to is no directory
      have hkeep : Books.Keeps lim (lock lk k d) tb T := by
        rintro k' ⟨f', hf', ht', hw'⟩
        by_cases hff : f' = f
        · grind [updFile_self, File.target, lock_self]
        · rw [← hT, updFile_ne _ hff] at ht' hw'
          exact (filealloc_keeps hfa) k' ⟨f', hf', ht', hw'⟩
      refine (acct_setTabs (acc3.lockAt hk hown) ?_ hkeep).seq fun _ => ?_
      · rw [hTrefs]
        exact (add_right_comm ..).trans (add_assoc ..)
      have hB : tb.Buried → T.Buried := fun hB =>
        Tabs.Buried.congr ((Tabs.Buried.congr hB hproc).setFd
          ((congrArg Proc.state (congrFun hproc p)).trans hp.running)) hTproc
      have hend : Acct lim (Books lim (n + 1) T loc floc (lock lk k d)) (do iunlock k; endOp; pure (fd : Int))
          fun _ => Later lim n tb loc floc lk :=
        (acct_iunlock_lock hlk).seq fun _ => acct_endOp.seq fun _ => ret fun _ h => ⟨T, hB, h⟩
      split
      · exact (acct_entry (o := .itrunc k) rfl (lock_self lk k d)).seq fun _ => hend
      · exact hend

end Files

/-! ## The system calls

Between system calls no local variable owns anything and nothing is locked. -/

section Calls

/-- Nothing is locked. -/
def free : Nat → Option Nat := fun _ => none

/-- The ledger between system calls. -/
abbrev Settled (lim : Option Nat) (tb : Tabs) (w : Icache) : Prop := Books lim 0 tb 0 0 free w

/-- A settled ledger, if the old tables bury their dead. -/
abbrev Settles (lim : Option Nat) (tb : Tabs) (w : Icache) : Prop := Later lim 0 tb 0 0 free w

theorem zero_nonneg (k : Nat) : 0 ≤ (0 : Nat → Int) k := Int.le_refl 0

variable (acc : Account tb 0 0 free)

include acc

theorem acct_sysOpen (hp : Runs tb p) (hroot : Within lim ROOTINO) (path : Option Path) (omode : Nat) :
    Acct lim (Settled lim tb) (sysOpen p path omode) fun _ => Settles lim tb := by
  cases path with
  | none => exact ret fun _ h => .refl h
  | some path =>
    refine acct_beginOp.seq fun _ => ?_
    split
    · refine (acct_create acc hroot zero_nonneg hp.lt path (by decide) 0 0).seq fun r => ?_
      cases r with
      | none => exact (acct_exit _).post fun _ _ h => .refl h
      | some k =>
        exact exists_ fun t => given fun hk => acct_openInode acc hp hk.1 hk.2.1 omode
          (fun _ hl => hk.2.2 hl (by decide)) zero_nonneg
    · refine acct_lookup acc hroot zero_nonneg hp.lt _ ((acct_exit _).post fun _ _ h => .refl h)
        fun k t hk hlk => (acct_fields (lock_self ..)).seq fun f => given fun hf => ?_
      split
      · exact (acct_openFail acc hk hlk).post fun _ _ h => .refl h
      next hmode =>
      refine acct_openInode acc hp hk hlk omode (fun hw _ ht => hmode ⟨hf.1.trans ht, ?_⟩) zero_nonneg
      rintro rfl
      cases hw

/-- A call that begins by fetching a descriptor. -/
theorem acct_argfd (fd : Int) {body : Tabs → Nat → Nat → Up Int}
    (h : ∀ fd' f, fd' < NOFILE → (tb.proc p).ofile fd' = some f → f < NFILE →
      Acct lim (Settled lim tb) (body tb fd' f) fun _ => Settles lim tb) :
    Acct lim (Settled lim tb) (do
      let t ← tabs
      match t.argfd p fd with
      | none => pure (-1)
      | some (fd', f) => body t fd' f) fun _ => Settles lim tb := by
  refine acct_read ?_
  split
  · exact ret fun _ h => .refl h
  · next fd' f hfd =>
    obtain ⟨hlt, hf⟩ := argfd_some hfd
    exact h fd' f hlt hf (acc.ok.ofile p fd' f hf)

/-- The descriptor is there before the reference is counted. -/
theorem acct_sysDup (hp : Runs tb p) (fd : Int) :
    Acct lim (Settled lim tb) (sysDup p fd) fun _ => Settles lim tb := by
  refine acct_argfd acc fd fun fd' f hfd' hf hlt => ?_
  split
  · exact ret fun _ h => .refl h
  · next fd1 t' halloc =>
    obtain ⟨hfd1, hnone, rfl⟩ := fdalloc_some halloc
    have acc' : Account (tb.setFd p fd1 (some f)) 0 (0 - point (some f)) free := by
      refine acc.setFd hp.lt hfd1 (fun j hj => ?_) fun j => ?_
      · obtain rfl := Option.some.inj hj
        exact hlt
      · rw [hnone]
        show point (some f) j + (0 - point (some f) j) = 0 + 0
        omega
    have hpos : 1 ≤ (tb.setFd p fd1 (some f)).fds f + (0 - point (some f)) f := by
      have h1 := fds_pos hp.lt hfd' hf
      rw [fds_setFd hp.lt hfd1, hnone]
      show 1 ≤ tb.fds f - 0 + point (some f) f + (0 - point (some f) f)
      omega
    have hback : lend (0 - point (some f)) (some f) = (0 : Nat → Int) := sub_add_cancel ..
    refine (acct_setTabs acc' (by rw [Account.setFd_refs]) (.of_file tb rfl)).seq fun _ =>
      (acct_filedup acc' hpos).seq fun _ => ret fun m h => ?_
    rw [hback] at h
    refine ⟨_, fun hB => ?_, h⟩
    exact Tabs.Buried.congr (t := tb.setFd p fd1 (some f)) (Tabs.Buried.setFd hB hp.running) rfl

theorem acct_sysClose (hp : Runs tb p) (fd : Int) :
    Acct lim (Settled lim tb) (sysClose p fd) fun _ => Settles lim tb := by
  refine acct_argfd acc fd fun fd' f hfd' hf hlt => ?_
  refine (acct_setTabs (acc.clearFd hp.lt hfd' hf) (by rw [Account.setFd_refs])
    (.of_file tb rfl)).seq fun _ => (acct_fileclose hlt ?_ fun _ _ => rfl).seq fun _ =>
      ret fun m h => ?_
  · have h0 := fds_nonneg (tb.setFd p fd' none) f
    show 0 ≤ _ + (0 : Int)
    omega
  · exact ⟨_, fun hB => Tabs.Buried.congr (Tabs.Buried.setFd hB hp.running) (closed_proc ..), h⟩

theorem acct_sysRead (fd : Int) (um : UserMem) (addr : Nat) (n con : Int) :
    Acct lim (Settled lim tb) (sysRead p fd um addr n con) fun _ => Settles lim tb := by
  refine acct_argfd acc fd fun fd' f hfd' hf hlt => (acct_deref _).seq fun k =>
    given fun _ => (acct_inode k).seq fun ip => ?_
  split
  · exact ret fun _ h => .refl h
  · exact (acct_fileread acc f um addr n con).post fun _ _ h => h.later

theorem acct_sysWrite (fd : Int) (um : UserMem) (addr : Nat) (n con : Int) :
    Acct lim (Settled lim tb) (sysWrite p fd um addr n con) fun _ => Settles lim tb := by
  refine acct_argfd acc fd fun fd' f hfd' hf hlt => (acct_deref _).seq fun k =>
    given fun _ => (acct_inode k).seq fun ip => ?_
  split
  · exact ret fun _ h => .refl h
  · exact (acct_filewrite acc hlt um addr n con).post fun _ _ h => h.later

theorem acct_sysFstat (fd : Int) (um : UserMem) (addr : Nat) :
    Acct lim (Settled lim tb) (sysFstat p fd um addr) fun _ => Settles lim tb := by
  have hstat : ∀ (x : Option Nat) (r : Int), Entry x →
      Acct lim (Settled lim tb) (do let k ← ilockPtr x; let _ ← inode k; iunlock k; pure r)
        fun _ => Settles lim tb := fun x r hx =>
    (acct_ilockPtr hx).seq fun k => exists_ fun t => given fun hk => (acct_inode k).seq fun _ =>
      (acct_iunlock_lock hk.2.1).seq fun _ => ret fun _ h => .refl h
  refine acct_argfd acc fd fun fd' f hfd' hf hlt => ?_
  split
  · exact ret fun _ h => .refl h
  · exact ret fun _ h => .refl h
  · exact hstat _ _ (acc.ok.ip f)
  · exact hstat _ _ (acc.ok.ip f)

theorem acct_sysGetDiskLbn (hlim : lim = none) (fd lbn : Int) :
    Acct lim (Settled lim tb) (sysGetDiskLbn p fd lbn) fun _ => Settles lim tb := by
  refine acct_argfd acc fd fun fd' f hfd' hf hlt => ?_
  split
  · exact ret fun _ h => .refl h
  · refine (acct_ilockPtr (acc.ok.ip f)).seq fun k => exists_ fun t => given fun hk =>
      seq (Q := fun _ => Books lim 0 tb 0 0 (lock free k t)) ?_ fun _ =>
        (acct_iunlock_lock hk.2.1).seq fun _ => ret fun _ h => .refl h
    exact fun w h => ⟨⟨h.held (lock_self free k t), hlim⟩, fun r w' hw => h.drifted hw⟩

/-- The old directory is given back while the process table still shows it. -/
theorem acct_sysChdir (hp : Runs tb p) (hroot : Within lim ROOTINO) (path : Option Path) :
    Acct lim (Settled lim tb) (sysChdir p path) fun _ => Settles lim tb := by
  refine acct_beginOp.seq fun _ => ?_
  split
  · exact (acct_exit _).post fun _ _ h => .refl h
  refine acct_lookup acc hroot zero_nonneg hp.lt _ ((acct_exit _).post fun _ _ h => .refl h)
    fun k t hk hlk => (acct_inode k).seq fun f => ?_
  split
  · exact ((acct_iunlockput acc hk hlk).seq acct_exit).post fun _ _ h => .refl h
  refine (acct_iunlock_lock hlk).seq fun _ => acct_read ?_
  split
  · exact acct_fail (by decide)
  next c hcwd =>
  have hc : c < NINODE := acc.ok.cwd p c hcwd
  -- what the call owns: the new directory, less the old one
  have hback : lend (point (some k) - point (some c)) (some c) = lend (0 : Nat → Int) (some k) :=
    (sub_add_cancel ..).trans (zero_add _).symm
  have acc' : Account tb (point (some k) - point (some c)) 0 free :=
    Account.ceded ⟨acc.ok, acc.fref, fun j => Int.add_nonneg (tally_nonneg _ _ _)
      (point_nonneg _ j), fun j hj => absurd rfl hj⟩ hp.lt (fun j => point_nonneg _ j) hcwd
  rw [← hback]
  refine (acct_iput acc' hc).seq fun _ => acct_endOp.seq fun _ => acct_read ?_
  obtain ⟨acc'', hrefs⟩ : Account _ 0 _ _ ∧ _ := acc'.updProc (g := fun x => { x with cwd := some k }) hp.lt
    rfl (fun j hj => Option.some.inj hj ▸ hk) fun j => by
      rw [hcwd]
      show point (some k) j + 0 = point (some c) j + (point (some k) j - point (some c) j)
      omega
  refine (acct_setTabs acc'' hrefs (.of_file _ rfl)).seq fun _ =>
    ret fun m h => ⟨_, fun hB q hq => ?_, h⟩
  have hqp : q ≠ p := by
    rintro rfl
    rw [updProc_self] at hq
    exact hq hp.running
  rw [updProc_ne _ hqp] at hq ⊢
  exact hB q hq

/-- Two files the call owns, and nothing else. -/
theorem acct_pipealloc (mem : Bool) : Acct lim (Settled lim tb) (pipealloc mem) fun r m =>
    match r with
    | none => Likewise lim 0 tb 0 0 free m
    | some (rf, wf) => ∃ tb' : Tabs, tb'.proc = tb.proc ∧ (rf < NFILE ∧ wf < NFILE) ∧
        Books lim 0 tb' 0 (lend (lend 0 (some rf)) (some wf)) free m := by
  refine acct_read ?_
  cases h0 : tb.filealloc with
  | none => exact ret fun _ h => .refl h
  | some r =>
    obtain ⟨f0, t1⟩ := r
    obtain ⟨hf0, htarget0, hproc1, hrefs1, acc1⟩ := acc.filealloc h0
    refine (acct_setTabs acc1 (by rw [hrefs1]) (filealloc_keeps h0)).seq fun _ => ?_
    cases h1 : t1.filealloc with
    | none =>
      refine (acct_fileclose hf0 ?_ fun _ _ => rfl).seq fun _ => ret fun m h =>
        ⟨_, (closed_proc ..).trans hproc1, h⟩
      exact Int.add_nonneg (fds_nonneg t1 f0) (zero_nonneg f0)
    | some r =>
      obtain ⟨f1, t2⟩ := r
      obtain ⟨hf1, htarget1, hproc2, hrefs2, acc2⟩ := acc1.filealloc h1
      refine (acct_setTabs acc2 (by rw [hrefs2]) (filealloc_keeps h1)).seq fun _ => ?_
      cases hpage : if mem then t2.pipepage else none with
      | none =>
        rw [lend_comm]
        refine (acct_fileclose hf0 ?_ fun _ _ => rfl).seq fun _ =>
          (acct_fileclose hf1 ?_ fun _ _ => rfl).seq fun _ => ret fun m h =>
            ⟨_, (closed_proc ..).trans ((closed_proc ..).trans (hproc2.trans hproc1)), h⟩
        · exact Int.add_nonneg (fds_nonneg t2 f0) (lend_nonneg zero_nonneg _ f0)
        · exact Int.add_nonneg (fds_nonneg _ f1) (zero_nonneg f1)
      | some i =>
        -- the two files become the ends of the pipe; neither refers to an inode, before or after
        have hpipe : ∀ {T : Tabs} {floc : Nat → Int} {f : Nat} {g : File → File},
            Account T 0 floc free → (T.file f).ref ≠ 0 → (T.file f).target = none →
            (g (T.file f)).ref = (T.file f).ref → (g (T.file f)).ip = (T.file f).ip →
            (g (T.file f)).type = .pipe → Account (T.updFile f g) 0 floc free ∧
              (T.updFile f g).refs = T.refs := by
          intro T floc f g accT href hnone hgref hgip hgtype
          have ht : (g (T.file f)).target = (T.file f).target := by
            rw [hnone]
            simp [File.target, hgtype]
          refine ⟨accT.recount ?_ ?_ ht ?_ fun _ _ => rfl, updFile_refs ht⟩
          · rw [hgref]
            exact fun h => absurd h href
          · rw [hgip]
            exact accT.ok.ip f
          · rw [hgref]
            exact accT.fref f
        obtain ⟨-, hfree0, ht1⟩ := filealloc_some h0
        obtain ⟨-, hfree1, ht2⟩ := filealloc_some h1
        have hone0 : (t1.file f0).ref = 1 := by rw [ht1, updFile_self]
        have hne : f0 ≠ f1 := by
          rintro rfl
          rw [hone0] at hfree1
          cases hfree1
        have hfile0 : t2.file f0 = t1.file f0 := by rw [ht2, updFile_ne _ hne]
        have hone1 : (t2.file f1).ref = 1 := by rw [ht2, updFile_self]
        have accp := acc2.updPipe i fun x =>
          { x with nread := 0, nwrite := 0, readopen := true, writeopen := true }
        obtain ⟨acc3, hrefs3⟩ := hpipe (f := f0) (g := fun x =>
            { x with type := .pipe, readable := true, writable := false, pipe := i }) accp
          (by show (t2.file f0).ref ≠ 0; rw [hfile0, hone0]; decide)
          (by show (t2.file f0).target = none; rw [hfile0]; exact htarget0) rfl rfl rfl
        obtain ⟨acc4, hrefs4⟩ := hpipe (f := f1) (g := fun x =>
            { x with type := .pipe, readable := false, writable := true, pipe := i }) acc3
          (by rw [updFile_ne _ hne.symm]; show (t2.file f1).ref ≠ 0; rw [hone1]; decide)
          (by rw [updFile_ne _ hne.symm]; exact htarget1) rfl rfl rfl
        refine (acct_setTabs acc4 ?_ fun k h => .inl ?_).seq fun _ => ret fun m h => ?_
        · rw [hrefs4, hrefs3]
          rfl
        · have h' := h.of_updFile fun _ ht _ => (by cases ht)
          exact Tabs.Writes.of_updFile (t := t2.updPipe i _) (fun _ ht _ => (by cases ht)) h'
        · refine ⟨_, ?_, ⟨hf0, hf1⟩, h⟩
          exact hproc2.trans hproc1

omit acc in
theorem acct_pipeFail {rf wf : Nat} (hrf : rf < NFILE) (hwf : wf < NFILE) :
    Acct lim (Books lim 0 tb 0 (lend (lend 0 (some rf)) (some wf)) free) (pipeFail rf wf)
      fun _ => Likewise lim 0 tb 0 0 free := by
  rw [lend_comm]
  refine (acct_fileclose hrf ?_ fun _ _ => rfl).seq fun _ =>
    (acct_fileclose hwf ?_ fun _ _ => rfl).seq fun _ => ret fun m h =>
      ⟨_, (closed_proc ..).trans (closed_proc ..), h⟩
  · exact Int.add_nonneg (fds_nonneg tb rf) (lend_nonneg zero_nonneg _ rf)
  · exact Int.add_nonneg (fds_nonneg _ wf) (zero_nonneg wf)

theorem acct_sysPipe (hp : Runs tb p) (um : UserMem) (addr : Nat) (mem : Bool) :
    Acct lim (Settled lim tb) (sysPipe p um addr mem) fun _ => Settles lim tb := by
  refine (acct_pipealloc acc mem).seq fun r => ?_
  cases r with
  | none => exact ret fun _ h => h.later
  | some r =>
    obtain ⟨rf, wf⟩ := r
    refine exists_ fun t => given fun hproc => given fun hlt => ?_
    have hlater : ∀ {T : Tabs} {w : Icache}, (t.Buried → T.Buried) → Likewise lim 0 T 0 0 free w →
        Settles lim tb w := by
      rintro T w hB ⟨T', hT', h⟩
      exact ⟨T', fun hb => Tabs.Buried.congr (hB (Tabs.Buried.congr hb hproc)) hT', h⟩
    have hp' : Runs t p := hp.congr hproc
    intro m hm
    have acc0 := hm.acc
    revert m
    refine acct_read ?_
    cases h0 : t.fdalloc p rf with
    | none => exact (acct_pipeFail hlt.1 hlt.2).post fun _ _ h => hlater id h
    | some r =>
      obtain ⟨fd0, t1⟩ := r
      rw [lend_comm] at acc0
      obtain ⟨hfd0, hnone0, -⟩ := fdalloc_some h0
      obtain ⟨rfl, hrefs1, acc1⟩ := acc0.fdalloc hp.lt hlt.1 h0
      have hB1 : t.Buried → (t.setFd p fd0 (some rf)).Buried := fun hB => hB.setFd hp'.running
      have hrun1 : ((t.setFd p fd0 (some rf)).proc p).state = .running := by
        rw [setFd_state]
        exact hp'.running
      have hofile0 : ((t.setFd p fd0 (some rf)).proc p).ofile fd0 = some rf := by
        rw [setFd_ofile, if_pos ⟨rfl, rfl⟩]
      dsimp only
      cases h1 : (t.setFd p fd0 (some rf)).fdalloc p wf with
      | none =>
        have acc2 := acc1.clearFd hp.lt hfd0 hofile0
        rw [lend_comm] at acc2
        refine (acct_setTabs acc2 ?_ (.of_file t rfl)).seq fun _ => (acct_pipeFail hlt.1 hlt.2).post fun _ _ h =>
          hlater (fun hB => (hB1 hB).setFd hrun1) h
        rw [Account.setFd_refs, hrefs1]
      | some r =>
        obtain ⟨fd1, t2⟩ := r
        obtain ⟨hfd1, hnone1, -⟩ := fdalloc_some h1
        obtain ⟨rfl, hrefs2, acc2⟩ := acc1.fdalloc hp.lt hlt.2 h1
        have hB2 : t.Buried → ((t.setFd p fd0 (some rf)).setFd p fd1 (some wf)).Buried :=
          fun hB => (hB1 hB).setFd hrun1
        dsimp only
        split
        · refine (acct_setTabs acc2 (by rw [hrefs2, hrefs1]) (.of_file t rfl)).seq fun _ =>
            ret fun m h => ?_
          exact ⟨_, fun hb => hB2 (Tabs.Buried.congr hb hproc), h⟩
        · -- both descriptors are cleared again
          have hne : fd0 ≠ fd1 := by
            rintro rfl
            rw [hofile0] at hnone1
            cases hnone1
          have hrun2 : ∀ x fd, (((t.setFd p fd0 (some rf)).setFd p fd x).proc p).state =
              .running := fun x fd => by
            rw [setFd_state]
            exact hrun1
          have acc3 := acc2.clearFd hp.lt hfd0 (f := rf) (by
            rw [setFd_ofile, if_neg fun h => hne h.2]
            exact hofile0)
          have acc4 := acc3.clearFd hp.lt hfd1 (f := wf) (by
            rw [setFd_ofile, if_neg fun h => hne h.2.symm, setFd_ofile, if_pos ⟨rfl, rfl⟩])
          refine (acct_setTabs acc4 ?_ (.of_file t rfl)).seq fun _ => (acct_pipeFail hlt.1 hlt.2).post fun _ _ h =>
            hlater (fun hB => ((hB2 hB).setFd (hrun2 _ _)).setFd ?_) h
          · rw [Account.setFd_refs, Account.setFd_refs, hrefs2, hrefs1]
          · rw [setFd_state]
            exact hrun2 _ _

end Calls

end Up

end Xv6
