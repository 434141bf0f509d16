/-
  THE LEDGER: who owns each reference.

  A reference count is owed to two kinds of owners: pointers in the tables (open files and current
  directories refer to inodes, descriptors refer to files), and local variables of the system call
  that is running.  `loc` and `floc` say what the running call owns — they may be NEGATIVE, when it
  has given back a reference that a table still shows — and `lk` which inodes it has locked, each with
  the type it was found to have.

  `Books` says that every count is what its owners add up to, and that `n` operations are open; on a disk
  that can be trusted, also that no file is open for writing on a directory.  The rules below say how
  each call of the inode layer moves the ledger; the walk through the system calls is in
  `Xv6.Fs.Accounts`.
-/
import Xv6.Fs.Icache

namespace Xv6

open Function Prog Tally Option Up

variable {g : File → File} {n : Int} {f i k len t : Nat} {floc floc' loc loc' : Nat → Int}
  {lk : Nat → Option Nat} {lim x : Option Nat} {src : Src} {t' tb tb' : Tabs}

/-! ## Pointers in the tables -/

namespace Tabs

variable {t : Tabs} {p fd : Nat}

/-- What the tables owe to inodes. -/
def refs (t : Tabs) : Nat → Int := t.files + t.cwds

theorem files_updFile (hf : f < NFILE) (g : File → File) :
    (t.updFile f g).files = t.files - point (t.file f).target + point (g (t.file f)).target := by
  have hptr : (fun f' => ((t.updFile f g).file f').target) =
      update (fun f' => (t.file f').target) f (g (t.file f)).target := by
    funext f'
    by_cases h : f' = f
    · subst h
      simp [updFile]
    · simp [updFile, h]
  rw [files, hptr, tally_update (Finset.mem_range.mpr hf)]
  rfl

theorem cwds_updProc (hp : p < NPROC) (g : Proc → Proc) :
    (t.updProc p g).cwds = t.cwds - point (t.proc p).cwd + point (g (t.proc p)).cwd := by
  have hptr : (fun p' => ((t.updProc p g).proc p').cwd) =
      update (fun p' => (t.proc p').cwd) p (g (t.proc p)).cwd := by
    funext p'
    by_cases h : p' = p
    · subst h
      simp [updProc]
    · simp [updProc, h]
  rw [cwds, hptr, tally_update (Finset.mem_range.mpr hp)]
  rfl

theorem fds_setFd (hp : p < NPROC) (hfd : fd < NOFILE) (x : Option Nat) :
    (t.setFd p fd x).fds = t.fds - point ((t.proc p).ofile fd) + point x := by
  have hptr : (fun q : Nat × Nat => ((t.setFd p fd x).proc q.1).ofile q.2) =
      update (fun q : Nat × Nat => (t.proc q.1).ofile q.2) (p, fd) x := by
    funext q
    by_cases h : q = (p, fd)
    · subst h
      simp [setFd, updProc]
    · rw [update_of_ne h]
      by_cases hq : q.1 = p
      · have hq2 : q.2 ≠ fd := fun h2 => h (Prod.ext hq h2)
        simp [setFd, updProc, hq, hq2]
      · simp [setFd, updProc, hq]
  rw [fds, hptr, tally_update (Finset.mem_product.mpr ⟨Finset.mem_range.mpr hp, Finset.mem_range.mpr hfd⟩)]
  rfl

@[simp] theorem cwds_updFile (f : Nat) (g : File → File) : (t.updFile f g).cwds = t.cwds := rfl
/-- A change that leaves what the files refer to. -/
theorem files_congr (h : ∀ f, (t'.file f).target = (t.file f).target) : t'.files = t.files := by
  unfold files
  rw [show (fun f => (t'.file f).target) = fun f => (t.file f).target from funext h]

/-- A change that leaves the current directories. -/
theorem cwds_congr (h : ∀ p, (t'.proc p).cwd = (t.proc p).cwd) : t'.cwds = t.cwds := by
  unfold cwds
  rw [show (fun p => (t'.proc p).cwd) = fun p => (t.proc p).cwd from funext h]

/-- A change that leaves the descriptors. -/
theorem fds_congr (h : ∀ p, (t'.proc p).ofile = (t.proc p).ofile) : t'.fds = t.fds := by
  unfold fds
  rw [show (fun q : Nat × Nat => (t'.proc q.1).ofile q.2) = fun q => (t.proc q.1).ofile q.2 from
    funext fun q => by rw [h]]

@[simp] theorem setFd_cwd (q : Nat) (x : Option Nat) : ((t.setFd p fd x).proc q).cwd = (t.proc q).cwd := by
  by_cases h : q = p
  · subst h
    simp [setFd, updProc]
  · simp [setFd, updProc, h]

@[simp] theorem setFd_state (q : Nat) (x : Option Nat) :
    ((t.setFd p fd x).proc q).state = (t.proc q).state := by
  by_cases h : q = p
  · subst h
    simp [setFd, updProc]
  · simp [setFd, updProc, h]

@[simp] theorem cwds_setFd (x : Option Nat) : (t.setFd p fd x).cwds = t.cwds :=
  cwds_congr fun q => setFd_cwd q x

theorem setFd_ofile (q fd' : Nat) (x : Option Nat) : ((t.setFd p fd x).proc q).ofile fd' =
    if q = p ∧ fd' = fd then x else (t.proc q).ofile fd' := by
  by_cases h : q = p
  · subst h
    by_cases hfd : fd' = fd
    · subst hfd
      simp [setFd, updProc]
    · simp [setFd, updProc, hfd]
  · simp [setFd, updProc, h]

@[simp] theorem updFile_self (g : File → File) : (t.updFile f g).file f = g (t.file f) :=
  update_self ..

theorem updFile_id (t : Tabs) (f : Nat) : (t.updFile f fun x => x) = t := by
  show { t with file := update t.file f (t.file f) } = t
  rw [update_eq_self]

theorem updFile_ne {f' : Nat} (g : File → File) (h : f' ≠ f) :
    (t.updFile f g).file f' = t.file f' := update_of_ne h ..

@[simp] theorem updProc_self (g : Proc → Proc) : (t.updProc p g).proc p = g (t.proc p) :=
  update_self ..

theorem updProc_ne {q : Nat} (g : Proc → Proc) (h : q ≠ p) : (t.updProc p g).proc q = t.proc q :=
  update_of_ne h ..

/-- The pointers of the tables point to entries, and a file that is not in use points nowhere. -/
structure Ok (t : Tabs) : Prop where
  idle : ∀ f, (t.file f).ref = 0 → (t.file f).type = .none
  ip : ∀ f k, (t.file f).ip = some k → k < NINODE
  cwd : ∀ p k, (t.proc p).cwd = some k → k < NINODE
  ofile : ∀ p fd f, (t.proc p).ofile fd = some f → f < NFILE

/-- Somebody may write to entry `k`. -/
def Writes (t : Tabs) (k : Nat) : Prop :=
  ∃ f, f < NFILE ∧ (t.file f).target = some k ∧ (t.file f).writable = true

theorem Writes.files_pos (h : t.Writes k) : 1 ≤ t.files k := by
  obtain ⟨f, hf, ht, -⟩ := h
  exact tally_pos (Finset.mem_range.mpr hf) ht

/-- A change to one file that opens nothing for writing. -/
theorem Writes.of_updFile (hg : ∀ k, (g (t.file f)).target = some k →
    (g (t.file f)).writable = true → (t.file f).target = some k ∧ (t.file f).writable = true)
    (h : (t.updFile f g).Writes k) : t.Writes k := by
  obtain ⟨f', hf', ht, hw⟩ := h
  refine ⟨f', hf', ?_⟩
  by_cases hff : f' = f
  · subst hff
    rw [updFile_self] at ht hw
    exact hg k ht hw
  · rw [updFile_ne g hff] at ht hw
    exact ⟨ht, hw⟩

/-- A process that is not running has neither descriptors nor a current directory. -/
def Buried (t : Tabs) : Prop := ∀ p, (t.proc p).state ≠ .running →
  (t.proc p).cwd = none ∧ ∀ fd, fd < NOFILE → (t.proc p).ofile fd = none

/-- A change to one file. -/
theorem Ok.updFile (h : t.Ok) (hidle : (g (t.file f)).ref = 0 → (g (t.file f)).type = .none)
    (hip : ∀ k, (g (t.file f)).ip = some k → k < NINODE) : (t.updFile f g).Ok := by
  refine ⟨fun f' => ?_, fun f' k => ?_, h.cwd, h.ofile⟩
  · by_cases hf : f' = f
    · subst hf
      rw [updFile_self]
      exact hidle
    · rw [updFile_ne g hf]
      exact h.idle f'
  · by_cases hf : f' = f
    · subst hf
      rw [updFile_self]
      exact hip k
    · rw [updFile_ne g hf]
      exact h.ip f' k

theorem Ok.updPipe (h : t.Ok) (i : Nat) (g : Pipe → Pipe) : (t.updPipe i g).Ok :=
  ⟨h.idle, h.ip, h.cwd, h.ofile⟩

/-- A descriptor is stored or cleared. -/
theorem Ok.setFd (h : t.Ok) (hx : ∀ f, x = some f → f < NFILE) : (t.setFd p fd x).Ok := by
  refine ⟨h.idle, h.ip, fun q k => ?_, fun q fd' f => ?_⟩
  · rw [setFd_cwd]
    exact h.cwd q k
  · rw [setFd_ofile]
    split
    · exact hx f
    · exact h.ofile q fd' f

theorem Buried.congr (h : t.Buried) (hproc : t'.proc = t.proc) : t'.Buried := by
  intro q hq
  rw [hproc] at hq ⊢
  exact h q hq

theorem Buried.setFd (h : t.Buried) (hrun : (t.proc p).state = .running) : (t.setFd p fd x).Buried := by
  intro q hq
  rw [setFd_state] at hq
  obtain ⟨hcwd, hofile⟩ := h q hq
  refine ⟨by rw [setFd_cwd]; exact hcwd, fun fd' hfd' => ?_⟩
  have hne : ¬ (q = p ∧ fd' = fd) := by
    rintro ⟨rfl, -⟩
    exact hq hrun
  rw [setFd_ofile, if_neg hne]
  exact hofile fd' hfd'

end Tabs

/-! ## The ledger -/

/-- The tables' side of the ledger: descriptors and local variables own the references to files, and
    what the running call has locked is referenced. -/
structure Account (tb : Tabs) (loc floc : Nat → Int) (lk : Nat → Option Nat) : Prop where
  ok : tb.Ok
  fref : ∀ f, (tb.file f).ref = tb.fds f + floc f
  files : ∀ k, 0 ≤ tb.cwds k + loc k
  lock : ∀ k, lk k ≠ none → k < NINODE ∧ 1 ≤ tb.refs k + loc k

/-- Every count is what its owners add up to. -/
structure Books (lim : Option Nat) (n : Int) (tb : Tabs) (loc floc : Nat → Int)
    (lk : Nat → Option Nat) (w : Icache) : Prop where
  tabs : w.mem.tabs = tb
  out : w.out = n
  acc : Account tb loc floc lk
  ref : ∀ k, (w.mem.icache k).ref = tb.refs k + loc k
  locked : ∀ k, (w.mem.icache k).locked = (lk k).isSome
  valid : ∀ k t, lk k = some t → (w.mem.icache k).valid = true ∧ (w.mem.icache k).din.type = t
  num : ∀ k, 1 ≤ (w.mem.icache k).ref → Within lim (w.mem.icache k).inum
  writes : lim ≠ none → ∀ k, tb.Writes k → (w.mem.icache k).valid = true ∧ (w.mem.icache k).din.type ≠ T_DIR

/-- One more reference, if there is a pointer. -/
def lend (loc : Nat → Int) : Option Nat → Nat → Int
  | none => loc
  | some k => loc + point (some k)

theorem lend_apply (loc : Nat → Int) (x : Option Nat) (k : Nat) : lend loc x k = loc k + point x k := by
  cases x with
  | none => exact (Int.add_zero _).symm
  | some j => rfl

theorem lend_comm (loc : Nat → Int) (j k : Nat) :
    lend (lend loc (some j)) (some k) = lend (lend loc (some k)) (some j) := add_right_comm ..

/-- Entry `k` locked, with an inode of type `t`. -/
def lock (lk : Nat → Option Nat) (k t : Nat) : Nat → Option Nat := update lk k (some t)

section Lock

variable {j u : Nat}

@[simp] theorem lock_self (lk : Nat → Option Nat) (k t : Nat) : lock lk k t k = some t :=
  update_self ..

theorem unlock_lock (h : lk k = none) : update (lock lk k t) k none = lk := by
  rw [lock, update_idem, ← h, update_eq_self]

theorem lock_ne (h : j ≠ k) : lock lk k t j = lk j := update_of_ne h ..

theorem lock_comm (h : j ≠ k) : lock (lock lk j t) k u = lock (lock lk k u) j t :=
  update_comm h ..

/-- An entry that is not locked after another was locked is not that one. -/
theorem ne_of_lock (h : lock lk j t k = none) : k ≠ j := by
  rintro rfl
  rw [lock_self] at h
  cases h

end Lock

namespace Account

section

variable (acc : Account tb loc floc lk)
include acc

/-- The pointers and the counts of the files are what they were. -/
theorem congr (hok : tb'.Ok) (hrefs : tb'.refs = tb.refs)
    (hcwds : tb'.cwds = tb.cwds) (hfds : tb'.fds = tb.fds)
    (href : ∀ f, (tb'.file f).ref = (tb.file f).ref) : Account tb' loc floc lk := by
  refine ⟨hok, fun f => ?_, fun k => ?_, fun k hk => ?_⟩
  · rw [href, hfds]
    exact acc.fref f
  · rw [hcwds]
    exact acc.files k
  · rw [hrefs]
    exact acc.lock k hk

theorem refs_nonneg (k : Nat) : 0 ≤ tb.refs k + loc k := by
  have hf : 0 ≤ tb.files k := tally_nonneg _ _ _
  have hc := acc.files k
  show 0 ≤ tb.files k + tb.cwds k + loc k
  omega

theorem lend (x : Option Nat) : Account tb (lend loc x) floc lk := by
  refine ⟨acc.ok, acc.fref, fun k => ?_, fun k hk => ?_⟩
  · have h := acc.files k
    have hp := point_nonneg x k
    rw [lend_apply]
    omega
  · obtain ⟨hlt, h⟩ := acc.lock k hk
    have hp := point_nonneg x k
    rw [lend_apply]
    exact ⟨hlt, by omega⟩

/-- Locking an entry that is referenced. -/
theorem lockAt (hk : k < NINODE) (href : 1 ≤ tb.refs k + loc k) :
    Account tb loc floc (Xv6.lock lk k t) := by
  refine ⟨acc.ok, acc.fref, acc.files, fun j hj => ?_⟩
  by_cases h : j = k
  · subst h
    exact ⟨hk, href⟩
  · rw [lock_ne h] at hj
    exact acc.lock j hj

/-- A local pointer keeps its entry. -/
theorem own (k : Nat) : 1 ≤ tb.refs k + Xv6.lend loc (some k) k := by
  have h := acc.refs_nonneg k
  rw [lend_apply, point_self]
  omega

/-- A local pointer that is locked. -/
theorem hold (hk : k < NINODE) : Account tb (Xv6.lend loc (some k)) floc (Xv6.lock lk k t) :=
  (acc.lend (some k)).lockAt hk (acc.own k)

theorem unlock (k : Nat) : Account tb loc floc (update lk k none) := by
  refine ⟨acc.ok, acc.fref, acc.files, fun j hj => ?_⟩
  by_cases h : j = k
  · subst h
    rw [update_self] at hj
    exact absurd rfl hj
  · rw [update_of_ne h] at hj
    exact acc.lock j hj

end

end Account

/-! ## The calls -/

namespace Books

variable {lk' : Nat → Option Nat} {w w' : Icache}

/-- What a change to one entry must respect. -/
structure Entry (lim : Option Nat) (tb : Tabs) (loc : Nat → Int) (lk : Nat → Option Nat) (k : Nat)
    (ip : Inode) : Prop where
  ref : ip.ref = tb.refs k + loc k
  locked : ip.locked = (lk k).isSome
  valid : ∀ t, lk k = some t → ip.valid = true ∧ ip.din.type = t
  num : 1 ≤ ip.ref → Within lim ip.inum
  writes : lim ≠ none → tb.Writes k → ip.valid = true ∧ ip.din.type ≠ T_DIR

section

variable (h : Books lim n tb loc floc lk w)
include h

theorem held (hk : lk k = some t) : Icache.Held w.mem k := by
  obtain ⟨hlt, href⟩ := h.acc.lock k (by rw [hk]; exact some_ne_none t)
  exact ⟨hlt, by rw [h.ref]; exact href, by rw [h.locked, hk]; rfl, (h.valid k t hk).1⟩

theorem entry (k : Nat) : Entry lim tb loc lk k (w.mem.icache k) :=
  ⟨h.ref k, h.locked k, h.valid k, h.num k, fun hl => h.writes hl k⟩

/-- The books do not show the types on the disk. -/
theorem retype (type : Nat → Nat) : Books lim n tb loc floc lk { w with type := type } :=
  { h with }

/-- A change to one entry that moves its count or its lock. -/
theorem upd {g : Inode → Inode} (acc : Account tb loc' floc lk')
    (hent : Entry lim tb loc' lk' k (g (w.mem.icache k))) (hloc : ∀ j, j ≠ k → loc' j = loc j)
    (hlk : ∀ j, j ≠ k → lk' j = lk j) : Books lim n tb loc' floc lk' (w.upd k g) := by
  have hall : ∀ j, Entry lim tb loc' lk' j ((w.mem.upd k g).icache j) := fun j => by
    by_cases hj : j = k
    · subst hj
      rw [Mem.upd_self]
      exact hent
    · have he := h.entry j
      rw [Mem.upd_ne w.mem g hj]
      refine ⟨?_, ?_, ?_, he.num, he.writes⟩
      · rw [hloc j hj]
        exact he.ref
      · rw [hlk j hj]
        exact he.locked
      · rw [hlk j hj]
        exact he.valid
  exact ⟨h.tabs, h.out, acc, fun j => (hall j).ref, fun j => (hall j).locked,
    fun j => (hall j).valid, fun j => (hall j).num, fun hl j => (hall j).writes hl⟩

/-- A change that moves neither count nor lock, and keeps the type. -/
theorem touch {g : Inode → Inode}
    (hg : ∀ ip, (g ip).ref = ip.ref ∧ (g ip).locked = ip.locked ∧ (g ip).valid = ip.valid ∧
      (g ip).inum = ip.inum) (htype : (g (w.mem.icache k)).din.type = (w.mem.icache k).din.type) :
    Books lim n tb loc floc lk (w.upd k g) := by
  have he := h.entry k
  obtain ⟨href, hlocked, hvalid, hinum⟩ := hg (w.mem.icache k)
  refine h.upd h.acc ⟨?_, ?_, ?_, ?_, ?_⟩ (fun _ _ => rfl) fun _ _ => rfl
  · rw [href]
    exact he.ref
  · rw [hlocked]
    exact he.locked
  · rw [hvalid, htype]
    exact he.valid
  · rw [href, hinum]
    exact he.num
  · rw [hvalid, htype]
    exact he.writes

theorem drifted (hw : Icache.Drifted k w w') : Books lim n tb loc floc lk w' := by
  obtain ⟨m, ⟨x, hx, rfl⟩, rfl⟩ := hw
  exact h.touch (fun _ => ⟨rfl, rfl, rfl, rfl⟩) hx

/-- `iget` finds an entry or recycles one that nobody refers to. -/
theorem iget {m : Mem} (hi : Within lim i) (hg : w.mem.iget i = some (k, m)) :
    k < NINODE ∧ (m.icache k).inum = i ∧ Books lim n tb (lend loc (some k)) floc lk (w.withMem m) := by
  have hne : ∀ j, j ≠ k → lend loc (some k) j = loc j := fun j hj => by
    rw [lend_apply, point_ne hj, Int.add_zero]
  have hself : lend loc (some k) k = loc k + 1 := by rw [lend_apply, point_self]
  unfold Mem.iget at hg
  split at hg
  · next j hj =>
    obtain ⟨rfl, rfl⟩ := Prod.mk.inj (some.inj hg)
    have hfound := List.find?_some hj
    simp only [Bool.and_eq_true, beq_iff_eq] at hfound
    have he := h.entry j
    refine ⟨List.mem_range.mp (List.mem_of_find?_eq_some hj), ?_, ?_⟩
    · rw [Mem.upd_self]
      exact hfound.2
    refine h.upd (h.acc.lend _) ⟨?_, he.locked, he.valid, fun _ => ?_, he.writes⟩ hne fun _ _ => rfl
    · have := he.ref
      show (w.mem.icache j).ref + 1 = _
      omega
    · show Within lim (w.mem.icache j).inum
      rw [hfound.2]
      exact hi
  · split at hg
    · next j hj =>
      obtain ⟨rfl, rfl⟩ := Prod.mk.inj (some.inj hg)
      have href : (w.mem.icache j).ref = 0 := by simpa using List.find?_some hj
      have he := h.entry j
      have hfree := he.ref
      rw [href] at hfree
      refine ⟨List.mem_range.mp (List.mem_of_find?_eq_some hj), by rw [Mem.upd_self], ?_⟩
      refine h.upd (h.acc.lend _) ⟨?_, he.locked, fun t hl => ?_, fun _ => hi, fun _ hw => ?_⟩
        hne fun _ _ => rfl
      · show (1 : Int) = _
        omega
      · obtain ⟨-, hpos⟩ := h.acc.lock j (by rw [hl]; exact some_ne_none t)
        omega
      · -- a file that is open on the entry would be a reference
        have hfiles := hw.files_pos
        have hc := h.acc.files j
        have hs : tb.refs j = tb.files j + tb.cwds j := rfl
        omega
    · cases hg

end

/-- New tables open for writing what was open before, and locked inodes that are not directories. -/
def Keeps (lim : Option Nat) (lk : Nat → Option Nat) (tb tb' : Tabs) : Prop :=
  ∀ k, tb'.Writes k → tb.Writes k ∨ (lim ≠ none → ∃ t, lk k = some t ∧ t ≠ T_DIR)

theorem Keeps.updFile (hg : ∀ k, (g (tb.file f)).target = some k →
    (g (tb.file f)).writable = true → (tb.file f).target = some k ∧ (tb.file f).writable = true) :
    Keeps lim lk tb (tb.updFile f g) := fun _ h => .inl (Tabs.Writes.of_updFile hg h)

theorem Keeps.of_file (tb : Tabs) (h : tb'.file = tb.file) : Keeps lim lk tb tb' := by
  rintro k ⟨f, hf, ht⟩
  rw [h] at ht
  exact .inl ⟨f, hf, ht⟩

/-- The tables change: the count of every inode has the same owners, or the references moved. -/
theorem setTabs (h : Books lim n tb loc floc lk w) (acc : Account tb' loc' floc' lk)
    (href : tb'.refs + loc' = tb.refs + loc) (hkeep : Keeps lim lk tb tb') :
    Books lim n tb' loc' floc' lk (w.withMem { w.mem with tabs := tb' }) := by
  refine ⟨rfl, h.out, acc, fun k => (h.ref k).trans ?_, h.locked, h.valid, h.num, fun hl k hw => ?_⟩
  · exact (congrFun href k).symm
  · rcases hkeep k hw with hold | hnew
    · exact h.writes hl k hold
    · obtain ⟨t, ht, hdir⟩ := hnew hl
      obtain ⟨hv, htype⟩ := h.valid k t ht
      exact ⟨hv, htype ▸ hdir⟩

/-- Every open file has its reference. -/
theorem files_le (h : Books lim n tb loc floc lk w) (k : Nat) : tb.files k ≤ (w.mem.icache k).ref := by
  have hr := h.ref k
  have hc := h.acc.files k
  have hs : tb.refs k = tb.files k + tb.cwds k := rfl
  omega

end Books

section Calls

/-- What a piece of code does to the ledger. -/
abbrev Acct {α : Type} (lim : Option Nat) (P : Icache → Prop) (p : Up α) (Q : α → Icache → Prop) : Prop :=
  Triple (Icache.spec lim) P p Q

/-- The code keeps the books as they are. -/
abbrev Kept {α : Type} (lim : Option Nat) (n : Int) (tb : Tabs) (loc floc : Nat → Int) (lk : Nat → Option Nat)
    (p : Up α) : Prop :=
  Acct lim (Books lim n tb loc floc lk) p fun _ => Books lim n tb loc floc lk

/-- A failure that is not one of the code's own. -/
theorem acct_fail {α : Type} {e : Err} (h : e.ours = false) {P : Icache → Prop}
    {Q : α → Icache → Prop} : Acct lim P (Prog.call (.fail e) Empty.elim : Up α) Q :=
  fun _ _ => ⟨h, fun r _ _ => nomatch r⟩

theorem acct_iget (hi : Within lim i) : Acct lim (Books lim n tb loc floc lk) (iget i)
    fun k w => k < NINODE ∧ Books lim n tb (lend loc (some k)) floc lk w := by
  intro w h
  refine ⟨hi, ?_⟩
  rintro k w' ⟨m, hg, rfl⟩
  obtain ⟨hk, -, h'⟩ := h.iget hi hg
  exact ⟨hk, h'⟩

/-- The new inode has the type that was asked for. -/
theorem acct_ialloc {type : Nat} (ht : 0 < type ∧ type < 65536) :
    Acct lim (Books lim n tb loc floc lk) (ialloc type) fun k w => k < NINODE ∧
      w.type (w.mem.icache k).inum = type ∧ Books lim n tb (lend loc (some k)) floc lk w := by
  intro w h
  refine ⟨ht, ?_⟩
  rintro k w' ⟨i, m, hi, hg, rfl⟩
  obtain ⟨hk, hnum, h'⟩ := h.iget hi hg
  refine ⟨hk, ?_, h'.retype _⟩
  show update w.type i type (m.icache k).inum = type
  rw [hnum, update_self]

theorem acct_idup (hk : k < NINODE) (href : 1 ≤ tb.refs k + loc k) :
    Acct lim (Books lim n tb loc floc lk) (idup k) fun _ => Books lim n tb (lend loc (some k)) floc lk := by
  intro w h
  have he := h.entry k
  refine ⟨⟨hk, by rw [h.ref]; exact href⟩, ?_⟩
  rintro r w' rfl
  refine h.upd (h.acc.lend _) ⟨?_, he.locked, he.valid, fun _ => he.num ?_, he.writes⟩
    (fun j hj => ?_) fun _ _ => rfl
  · have := he.ref
    show (w.mem.icache k).ref + 1 = _
    rw [lend_apply, point_self]
    omega
  · rw [he.ref]
    exact href
  · rw [lend_apply, point_ne hj, Int.add_zero]

/-- The inode that is locked has the type the disk has. -/
theorem acct_ilockAs (P : Nat → Prop) (hk : k < NINODE) :
    Acct lim (fun w => P (w.type (w.mem.icache k).inum) ∧ Books lim n tb loc floc lk w) (ilock k)
      fun _ w => ∃ t, (lk k = none ∧ 1 ≤ tb.refs k + loc k) ∧ (lim ≠ none → P t) ∧
        Books lim n tb loc floc (lock lk k t) w := by
  rintro w ⟨hP, h⟩
  have he := h.entry k
  refine ⟨hk, ?_⟩
  rintro r w' ⟨href, hfree, x, hx, htype, rfl⟩
  have hlk : lk k = none := by
    have := he.locked
    rw [hfree] at this
    exact isSome_eq_false_iff.mp this.symm |> isNone_iff_eq_none.mp
  have hpos : 1 ≤ tb.refs k + loc k := by rw [← he.ref]; exact href
  refine ⟨x.type, ⟨hlk, hpos⟩, fun hl => htype hl ▸ hP, ?_⟩
  refine h.upd (h.acc.lockAt hk hpos) ⟨he.ref, ?_, fun t ht => ⟨rfl, ?_⟩, he.num, fun hl hw => ?_⟩
    (fun _ _ => rfl) fun j hj => lock_ne hj
  · rw [lock_self]
    rfl
  · rw [lock_self] at ht
    exact some.inj ht
  · obtain ⟨hv, hdir⟩ := he.writes hl hw
    exact ⟨rfl, hx hv ▸ hdir⟩

theorem acct_ilock (hk : k < NINODE) : Acct lim (Books lim n tb loc floc lk) (ilock k)
    fun _ w => ∃ t, (lk k = none ∧ 1 ≤ tb.refs k + loc k) ∧ Books lim n tb loc floc (lock lk k t) w := by
  intro w h
  refine wp_mono (acct_ilockAs (fun _ => True) hk w ⟨trivial, h⟩) ?_
  rintro r w' ⟨t, hlk, -, h'⟩
  exact ⟨t, hlk, h'⟩

theorem acct_iunlock (hk : lk k = some t) : Acct lim (Books lim n tb loc floc lk) (iunlock k)
    fun _ => Books lim n tb loc floc (update lk k none) := by
  intro w h
  have hH := h.held hk
  have he := h.entry k
  refine ⟨⟨hH.lt, hH.locked, hH.ref⟩, ?_⟩
  rintro r w' rfl
  refine h.upd (h.acc.unlock k) ⟨he.ref, ?_, fun t ht => ?_, he.num, he.writes⟩
    (fun _ _ => rfl) fun j hj => update_of_ne hj ..
  · rw [update_self]
    rfl
  · rw [update_self] at ht
    cases ht

/-- Unlocking what was locked last. -/
theorem acct_iunlock_lock (hk : lk k = none) : Acct lim (Books lim n tb loc floc (lock lk k t)) (iunlock k)
      fun _ => Books lim n tb loc floc lk := by
  have h : Acct lim (Books lim n tb loc floc (lock lk k t)) (iunlock k)
      fun _ => Books lim n tb loc floc (update (lock lk k t) k none) :=
    acct_iunlock (lock_self lk k t)
  rw [unlock_lock hk] at h
  exact h

/-- A local pointer is given back. -/
theorem acct_iput (acc : Account tb loc floc lk) (hk : k < NINODE) :
    Acct lim (Books lim n tb (lend loc (some k)) floc lk) (iput k) fun _ => Books lim n tb loc floc lk := by
  intro w h
  have he := h.entry k
  have href := he.ref
  rw [lend_apply, point_self] at href
  have hne : ∀ j, j ≠ k → loc j = lend loc (some k) j := fun j hj => by
    rw [lend_apply, point_ne hj, Int.add_zero]
  have hc := acc.files k
  have hs : tb.refs k = tb.files k + tb.cwds k := rfl
  refine ⟨⟨hk, ?_⟩, ?_⟩
  · rw [h.tabs]
    omega
  · rintro r w' (rfl | ⟨hone, hfree, x, rfl⟩)
    · refine h.upd acc ⟨?_, he.locked, he.valid, fun hpos => he.num ?_, he.writes⟩ hne fun _ _ => rfl
      · show (w.mem.icache k).ref - 1 = _
        omega
      · have hpos : 1 ≤ (w.mem.icache k).ref - 1 := hpos
        omega
    · have hlk : (lk k).isSome = false := he.locked.symm.trans hfree
      refine Books.retype (h.upd acc ⟨?_, hlk.symm, fun t ht => ?_, fun hpos => ?_, fun _ hw => ?_⟩ hne
        fun _ _ => rfl) _
      · show (0 : Int) = _
        omega
      · rw [ht] at hlk
        cases hlk
      · have hpos : (1 : Int) ≤ 0 := hpos
        omega
      · have hfiles := hw.files_pos
        omega

/-- What the caller reads of an entry. -/
theorem acct_inode (k : Nat) : Kept lim n tb loc floc lk (inode k) := by
  intro w h
  refine ⟨trivial, ?_⟩
  rintro r w' ⟨-, rfl⟩
  exact h

/-- Of a locked one: the type is known, and the number is within the limit. -/
theorem acct_fields (hk : lk k = some t) : Acct lim (Books lim n tb loc floc lk) (inode k)
    fun f w => (f.type = t ∧ Within lim f.inum) ∧ Books lim n tb loc floc lk w := by
  intro w h
  refine ⟨trivial, ?_⟩
  rintro r w' ⟨rfl, rfl⟩
  exact ⟨⟨(h.valid k t hk).2, h.num k (h.held hk).ref⟩, h⟩

/-- Calls that may change the disk inode in a locked entry, and nothing else of it. -/
def Icall.onEntry : Icall → Option Nat
  | .updNlink k x | .updPerm k x => if x < 65536 then some k else none
  | .updNew k _ _ | .itrunc k | .readi k _ _ _ => some k
  | _ => none

theorem acct_entry {o : Icall} (ho : o.onEntry = some k) (hk : lk k = some t) :
    Kept lim n tb loc floc lk (Prog.op o) := by
  intro w h
  have hH := h.held hk
  cases o with
  | updNlink j x | updPerm j x =>
    obtain ⟨hx, hj⟩ := ite_none_right_eq_some.mp ho
    obtain rfl := some.inj hj
    exact ⟨⟨hH, hx⟩, fun r w' hw => h.drifted hw⟩
  | updNew j major minor =>
    obtain rfl := some.inj ho
    refine ⟨hH, ?_⟩
    rintro r w' ⟨y, hy, rfl⟩
    exact h.touch (fun _ => ⟨rfl, rfl, rfl, rfl⟩) hy
  | itrunc j =>
    obtain rfl := some.inj ho
    exact ⟨hH, fun r w' hw => h.drifted hw⟩
  | readi j _ _ _ =>
    obtain rfl := some.inj ho
    exact ⟨hH, fun r w' hw => h.drifted hw.1⟩
  | _ => cases ho

/-- A directory entry that is read names an inode within the limit. -/
theorem acct_readEntry (hk : lk k = some T_DIR) (e : Nat) :
    Acct lim (Books lim n tb loc floc lk) (readi k .kernel (DIRENT * e) DIRENT)
      fun r w => (r.1 = DIRENT → Within lim (deInum r.2)) ∧ Books lim n tb loc floc lk w := by
  intro w h
  refine ⟨h.held hk, ?_⟩
  rintro r w' ⟨hw, hdir⟩
  exact ⟨hdir (h.valid k _ hk).2 (Nat.mul_mod_right ..) rfl, h.drifted hw⟩

theorem acct_writei {off : Nat} (hk : lk k = some t) (hdir : t = T_DIR → OneEntry lim src off len) :
    Kept lim n tb loc floc lk (writei k src off len) := by
  intro w h
  refine ⟨⟨h.held hk, fun ht => hdir ?_⟩, fun r w' hw => h.drifted hw⟩
  rw [← (h.valid k t hk).2]
  exact ht

/-- A file that is open for writing is no directory. -/
theorem acct_writeFile {off : Nat} (hk : lk k = some t) (hw : tb.Writes k) :
    Kept lim n tb loc floc lk (writei k src off len) := by
  intro w h
  refine acct_writei hk (fun ht N hN => absurd ?_ (h.writes (by rw [hN]; exact some_ne_none N) k hw).2) w h
  rw [(h.valid k t hk).2]
  exact ht

theorem acct_beginOp : Acct lim (Books lim n tb loc floc lk) beginOp
    fun _ => Books lim (n + 1) tb loc floc lk := by
  intro w h
  refine ⟨trivial, ?_⟩
  rintro r w' rfl
  exact { h with out := congrArg (· + 1) h.out }

theorem acct_endOp : Acct lim (Books lim (n + 1) tb loc floc lk) endOp
    fun _ => Books lim n tb loc floc lk := by
  intro w h
  refine ⟨trivial, ?_⟩
  rintro r w' rfl
  refine { h with out := ?_ }
  rw [h.out, Int.add_sub_cancel]

theorem acct_tabs : Acct lim (Books lim n tb loc floc lk) tabs
    fun t w => t = tb ∧ Books lim n tb loc floc lk w := by
  intro w h
  refine ⟨trivial, ?_⟩
  rintro r w' ⟨rfl, rfl⟩
  exact ⟨h.tabs, h⟩

/-- Code that reads the tables finds those of the books. -/
theorem acct_read {α : Type} {c : Tabs → Up α} {Q : α → Icache → Prop}
    (h : Acct lim (Books lim n tb loc floc lk) (c tb) Q) :
    Acct lim (Books lim n tb loc floc lk) (tabs >>= c) Q :=
  acct_tabs.seq fun _ => Triple.given fun ht => ht ▸ h

theorem acct_setTabs (acc : Account tb' loc' floc' lk) (href : tb'.refs + loc' = tb.refs + loc)
    (hkeep : Books.Keeps lim lk tb tb') : Acct lim (Books lim n tb loc floc lk) (setTabs tb')
      fun _ => Books lim n tb' loc' floc' lk := by
  intro w h
  have h' := h.setTabs acc href hkeep
  refine ⟨h'.files_le, ?_⟩
  rintro r w' rfl
  exact h'

/-- Common idiom: unlock, then put. -/
theorem acct_iunlockput (acc : Account tb loc floc lk) (hk : k < NINODE) (hlk : lk k = none) :
    Acct lim (Books lim n tb (lend loc (some k)) floc (lock lk k t)) (iunlockput k)
      fun _ => Books lim n tb loc floc lk :=
  (acct_iunlock_lock hlk).seq fun _ => acct_iput acc hk

end Calls

end Xv6
