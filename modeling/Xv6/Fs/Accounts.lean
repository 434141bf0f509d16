/-
  EVERY SYSTEM CALL KEEPS ITS ACCOUNTS, on every path through it.

  The proofs follow the programs of `Xv6.Fs.Dir` and `Xv6.Fs.Sysfile` line by line, with the ledger of
  `Xv6.Fs.Ledger` beside them: a lookup comes back owning one reference more, a failure exit gives
  back what the call took, and `sys_open`'s last store hands the reference over to the file table.

  `Syscall.accounted`: between system calls no local variable owns anything and nothing is locked.
-/
import Xv6.Fs.Ledger

namespace Xv6

open Prog Tally Triple

variable {n : Int} {dp f k p t : Nat} {floc loc : Nat → Int} {lk : Nat → Option Nat} {lim : Option Nat}
  {tb : Tabs} {α : Type}

variable {off type : Nat} {g : File → File}

/-- A pointer that, if there is one, points into the inode cache. -/
def Entry (x : Option Nat) : Prop := ∀ k, x = some k → k < NINODE

theorem Entry.none : Entry none := fun _ h => (by cases h)

theorem Entry.some (h : k < NINODE) : Entry (some k) := fun j hj => by
  obtain rfl := Option.some.inj hj
  exact h

/-- What a lookup in a directory found: a pointer, and where its entry is. -/
def Hit (r : Option (Nat × Nat)) : Prop := ∀ x, r = some x → x.1 < NINODE ∧ x.2 % DIRENT = 0

/-- The entries that the code stores. -/
theorem oneEntry_dirent {inum off : Nat} (hi : Within lim inum) (name : Name)
    (hoff : off % DIRENT = 0) : OneEntry lim (.kernel (dirent inum name)) off DIRENT := by
  intro N hN
  have hnum : deInum (dirent inum name) = inum % 65536 := le16_digits fun i hlt => by
    rw [Nat.zero_add, dirent, if_pos hlt]
  exact ⟨_, rfl, rfl, hoff, lt_of_le_of_lt (hnum ▸ Nat.mod_le ..) (hi N hN)⟩

theorem oneEntry_zero (hroot : Within lim ROOTINO)
    (hoff : off % DIRENT = 0) : OneEntry lim (.kernel fun _ => 0) off DIRENT := fun N hN =>
  ⟨_, rfl, rfl, hoff, Nat.zero_lt_of_lt (hroot N hN)⟩

namespace Up

section Lookup

/-! ## Directories -/

/-- The caller gets a reference to what was found. -/
theorem acct_dirlookupFrom (hdp : lk dp = some T_DIR) (name : Name) (es : List Nat) :
    Acct lim (Books lim n tb loc floc lk) (dirlookupFrom dp name es) fun r w =>
      Hit r ∧ Books lim n tb (lend loc (r.map Prod.fst)) floc lk w := by
  induction es with
  | nil => exact Triple.ret fun m h => ⟨fun _ h => (by cases h), h⟩
  | cons e es ih =>
    refine (acct_readEntry hdp e).seq fun r => given fun hr => ?_
    split
    · exact acct_fail (by decide)
    next hlen =>
    split
    · exact ih
    split
    · refine (acct_iget (hr (not_not.mp hlen))).seq fun k => given fun hk =>
        Triple.ret fun m h => ⟨?_, h⟩
      rintro x hx
      obtain rfl := Option.some.inj hx
      exact ⟨hk, Nat.mul_mod_right ..⟩
    · exact ih

/-- Only a directory is searched. -/
theorem acct_dirlookup (hdp : lk dp = some t) (name : Name) :
    Acct lim (Books lim n tb loc floc lk) (dirlookup dp name) fun r w =>
      Hit r ∧ Books lim n tb (lend loc (r.map Prod.fst)) floc lk w := by
  refine (acct_fields hdp).seq fun f => given fun hf => ?_
  split
  · exact acct_fail (by decide)
  next hdir =>
  refine acct_dirlookupFrom ?_ name _
  rw [hdp, ← hf.1, not_not.mp hdir]

theorem acct_freeDirent (hdp : lk dp = some t) {last : Nat} (hlast : last % DIRENT = 0) (es : List Nat) :
    Acct lim (Books lim n tb loc floc lk) (freeDirent dp last es)
      fun off w => off % DIRENT = 0 ∧ Books lim n tb loc floc lk w := by
  induction es with
  | nil => exact Triple.ret fun m h => ⟨hlast, h⟩
  | cons e es ih =>
    refine (acct_entry (o := .readi ..) rfl hdp).seq fun r => ?_
    split
    · exact acct_fail (by decide)
    split
    · exact Triple.ret fun m h => ⟨Nat.mul_mod_right .., h⟩
    · exact ih

/-- `dirlink` puts what its lookup got. -/
theorem acct_dirlink (acc : Account tb loc floc lk) (hdp : lk dp = some t) (name : Name) {inum : Nat}
    (hi : Within lim inum) : Kept lim n tb loc floc lk (dirlink dp name inum) := by
  refine (acct_dirlookup hdp name).seq fun r => given fun hr => ?_
  cases r with
  | some x => exact (acct_iput acc (hr x rfl).1).seq fun _ => skip
  | none =>
    refine (acct_inode dp).seq fun f => (acct_freeDirent hdp (Nat.mul_mod_right ..) _).seq fun off =>
      given fun hoff => (acct_writei hdp fun _ => oneEntry_dirent hi name hoff).seq fun r => ?_
    split
    · exact acct_fail (by decide)
    · exact skip

theorem acct_isdiremptyFrom (hdp : lk dp = some t) (es : List Nat) :
    Kept lim n tb loc floc lk (isdiremptyFrom dp es) := by
  induction es with
  | nil => exact skip
  | cons e es ih =>
    refine (acct_entry (o := .readi ..) rfl hdp).seq fun r => ?_
    split
    · exact acct_fail (by decide)
    split
    · exact skip
    · exact ih

/-! ## Paths -/

variable (acc : Account tb loc floc lk)

include acc

/-- One reference in, one out: each element is put when the next one is there. -/
theorem acct_namexFrom (hk : k < NINODE) (parent : Bool) (fuel : Nat) (path : List UInt8) :
    Acct lim (Books lim n tb (lend loc (some k)) floc lk) (namexFrom parent fuel k path) fun r w =>
      Entry (r.map Prod.fst) ∧ Books lim n tb (lend loc (r.map Prod.fst)) floc lk w := by
  have hend : ∀ {k : Nat}, k < NINODE → Acct lim (Books lim n tb (lend loc (some k)) floc lk)
      (if parent then do iput k; pure none else pure (some (k, ([] : Name)))) fun r w =>
        Entry (r.map Prod.fst) ∧ Books lim n tb (lend loc (r.map Prod.fst)) floc lk w := by
    intro k hk
    split
    · exact (acct_iput acc hk).seq fun _ => Triple.ret fun m h => ⟨Entry.none, h⟩
    · exact Triple.ret fun m h => ⟨Entry.some hk, h⟩
  induction fuel generalizing k path with
  | zero => exact hend hk
  | succ fuel ih =>
    rw [namexFrom]
    split
    · exact hend hk
    refine (acct_ilock hk).seq fun _ => exists_ fun t => given fun hlk =>
      (acct_inode k).seq fun f => ?_
    split
    · exact (acct_iunlockput acc hk hlk.1).seq fun _ => Triple.ret fun m h => ⟨Entry.none, h⟩
    split
    · exact (acct_iunlock_lock hlk.1).seq fun _ => Triple.ret fun m h => ⟨Entry.some hk, h⟩
    refine (acct_dirlookup (lock_self lk k t) _).seq fun r => given fun hr => ?_
    cases r with
    | none => exact (acct_iunlockput acc hk hlk.1).seq fun _ => Triple.ret fun m h => ⟨Entry.none, h⟩
    | some x =>
      -- two references, the directory's and its entry's
      show Acct lim (Books lim n tb (lend (lend loc (some k)) (some x.1)) floc (lock lk k t)) _ _
      rw [lend_comm]
      exact (acct_iunlockput (acc.lend _) hk hlk.1).seq fun _ => ih (hr x rfl).1 _

theorem acct_namex (hroot : Within lim ROOTINO) (hloc : ∀ k, 0 ≤ loc k) (hp : p < NPROC)
    (path : List UInt8) (parent : Bool) :
    Acct lim (Books lim n tb loc floc lk) (namex p path parent) fun r w =>
      Entry (r.map Prod.fst) ∧ Books lim n tb (lend loc (r.map Prod.fst)) floc lk w := by
  rw [namex]
  split
  · exact (acct_iget hroot).seq fun k => given fun hk => acct_namexFrom acc hk parent _ path
  · refine acct_read ?_
    split
    · exact acct_fail (by decide)
    · next k hcwd =>
      -- the process's own reference is there while it is copied
      have href : 1 ≤ tb.refs k + loc k := by
        have hc : 1 ≤ tb.cwds k := tally_pos (Finset.mem_range.mpr hp) hcwd
        have hf : 0 ≤ tb.files k := tally_nonneg _ _ _
        have hl := hloc k
        show 1 ≤ tb.files k + tb.cwds k + loc k
        omega
      have hk := acc.ok.cwd p k hcwd
      exact (acct_idup hk href).seq fun _ => acct_namexFrom acc hk parent _ path

theorem acct_namei (hroot : Within lim ROOTINO) (hloc : ∀ k, 0 ≤ loc k) (hp : p < NPROC)
    (path : List UInt8) : Acct lim (Books lim n tb loc floc lk) (namei p path) fun r w =>
      Entry r ∧ Books lim n tb (lend loc r) floc lk w :=
  (acct_namex acc hroot hloc hp path false).seq fun _ => Triple.ret fun _ h => h

end Lookup

end Up

/-! ## Changes to the tables -/

namespace Tabs

/-- A change to a file that is neither its count nor what it refers to and how. -/
structure Same (g : File → File) (x : File) : Prop where
  ref : (g x).ref = x.ref
  type : (g x).type = x.type
  ip : (g x).ip = x.ip
  writable : (g x).writable = x.writable

theorem Same.target {x : File} (h : Same g x) : (g x).target = x.target := by
  unfold File.target
  rw [h.type, h.ip]

theorem Same.keeps (h : Same g (tb.file f)) : Books.Keeps lim lk tb (tb.updFile f g) :=
  .updFile fun _ ht hw => ⟨h.target ▸ ht, h.writable ▸ hw⟩

theorem updFile_refs (h : (g (tb.file f)).target = (tb.file f).target) :
    (tb.updFile f g).refs = tb.refs := by
  have hfiles : (tb.updFile f g).files = tb.files := by
    refine files_congr fun f' => ?_
    by_cases hf : f' = f
    · subst hf
      rw [updFile_self, h]
    · rw [updFile_ne g hf]
  unfold refs
  rw [hfiles]
  rfl

end Tabs

/-- A file keeps its references when only its offset changes. -/
theorem Account.updFile (acc : Account tb loc floc lk) (h : Tabs.Same g (tb.file f)) :
    Account (tb.updFile f g) loc floc lk := by
  refine acc.congr (acc.ok.updFile ?_ ?_) (Tabs.updFile_refs h.target) rfl rfl fun f' => ?_
  · rw [h.ref, h.type]
    exact acc.ok.idle f
  · rw [h.ip]
    exact acc.ok.ip f
  · by_cases hf : f' = f
    · subst hf
      rw [Tabs.updFile_self, h.ref]
    · rw [Tabs.updFile_ne g hf]

theorem Account.updPipe (acc : Account tb loc floc lk) (i : Nat) (g : Pipe → Pipe) :
    Account (tb.updPipe i g) loc floc lk :=
  acc.congr (acc.ok.updPipe i g) rfl rfl rfl fun _ => rfl

namespace Up

section Files

variable {w : Icache}

/-- The ledger with the same processes: the call has touched files and pipes only. -/
def Likewise (lim : Option Nat) (n : Int) (tb : Tabs) (loc floc : Nat → Int) (lk : Nat → Option Nat)
    (w : Icache) : Prop :=
  ∃ tb' : Tabs, tb'.proc = tb.proc ∧ Books lim n tb' loc floc lk w

theorem Likewise.refl (h : Books lim n tb loc floc lk w) : Likewise lim n tb loc floc lk w :=
  ⟨tb, rfl, h⟩

/-- Code after which only files and pipes have changed, then more of it. -/
theorem acct_likewise {β : Type} {p : Up α} {f : α → Up β} {P : Icache → Prop} {Q : β → Icache → Prop}
    (hp : Acct lim P p fun _ => Likewise lim n tb loc floc lk)
    (hf : ∀ a tb', tb'.proc = tb.proc → Acct lim (Books lim n tb' loc floc lk) (f a) Q) :
    Acct lim P (p >>= f) Q :=
  hp.seq fun a => exists_ fun tb' => given fun h => hf a tb' h

theorem acct_setPipe (acc : Account tb loc floc lk) (i : Nat) (g : Pipe → Pipe) :
    Acct lim (Books lim n tb loc floc lk) (setTabs (tb.updPipe i g)) fun _ => Likewise lim n tb loc floc lk := by
  have href : (tb.updPipe i g).refs + loc = tb.refs + loc := rfl
  exact (acct_setTabs (acc.updPipe i g) href fun _ h => .inl h).post fun _ _ h' =>
    ⟨tb.updPipe i g, rfl, h'⟩

theorem acct_setFile (acc : Account tb loc floc lk) (h : Tabs.Same g (tb.file f)) :
    Acct lim (Books lim n tb loc floc lk) (setTabs (tb.updFile f g)) fun _ => Likewise lim n tb loc floc lk := by
  refine (acct_setTabs (acc.updFile h) ?_ h.keeps).post fun _ _ h' => ⟨tb.updFile f g, rfl, h'⟩
  rw [Tabs.updFile_refs h.target]

theorem acct_ilockPtr {x : Option Nat} (hx : Entry x) :
    Acct lim (Books lim n tb loc floc lk) (ilockPtr x) fun k w => ∃ t,
      (k < NINODE ∧ lk k = none ∧ 1 ≤ tb.refs k + loc k ∧ x = some k) ∧
        Books lim n tb loc floc (lock lk k t) w := by
  cases x with
  | none => exact acct_fail (by decide)
  | some k =>
    exact (acct_ilock (hx k rfl)).seq fun _ => exists_ fun t => given fun h =>
      Triple.ret fun m hb => ⟨t, ⟨hx k rfl, h.1, h.2, rfl⟩, hb⟩

theorem acct_deref (x : Option Nat) : Acct lim (Books lim n tb loc floc lk) (deref x)
      fun k w => x = some k ∧ Books lim n tb loc floc lk w := by
  cases x with
  | none => exact acct_fail (by decide)
  | some k => exact Triple.ret fun m h => ⟨rfl, h⟩

variable (acc : Account tb loc floc lk)

include acc

theorem acct_piperead (i : Nat) (um : UserMem) (addr : Nat) (len : Int) :
    Acct lim (Books lim n tb loc floc lk) (piperead i um addr len) fun _ => Likewise lim n tb loc floc lk := by
  refine acct_read ?_
  dsimp only
  split
  · exact acct_fail (by decide)
  · exact (acct_setPipe acc i _).seq fun _ => skip

theorem acct_pipewrite (i : Nat) (um : UserMem) (addr : Nat) (len : Int) :
    Acct lim (Books lim n tb loc floc lk) (pipewrite i um addr len) fun _ => Likewise lim n tb loc floc lk := by
  refine acct_read ?_
  dsimp only
  split
  · exact acct_fail (by decide)
  · exact (acct_setPipe acc i _).seq fun _ => skip

/-- Whatever kind of file it is. -/
theorem acct_fileread (f : Nat) (um : UserMem) (addr : Nat) (len con : Int) :
    Acct lim (Books lim n tb loc floc lk) (fileread f um addr len con) fun _ => Likewise lim n tb loc floc lk := by
  refine acct_read ?_
  dsimp only
  split
  · exact Triple.ret fun _ h => .refl h
  split
  · exact acct_piperead acc _ um addr len
  · split <;> exact Triple.ret fun _ h => .refl h
  · refine (acct_ilockPtr (acc.ok.ip f)).seq fun k => exists_ fun tb => given fun hk =>
      (acct_entry (o := .readi ..) rfl (lock_self lk k tb)).seq fun r => ?_
    refine acct_likewise (acct_setFile (acc.lockAt hk.1 hk.2.2.1) ⟨rfl, rfl, rfl, rfl⟩) fun _ tb' htb' => ?_
    exact (acct_iunlock_lock hk.2.1).seq fun _ => Triple.ret fun _ h => ⟨tb', htb', h⟩
  · exact acct_fail (by decide)

omit acc in
/-- The file stays open for writing while its offset moves. -/
theorem acct_filewriteFrom (hf : f < NFILE) (htype : (tb.file f).type = .inode)
    (hw : (tb.file f).writable = true) (um : UserMem) (addr len fuel i : Nat) :
    Acct lim (Books lim n tb loc floc lk) (filewriteFrom f um addr len fuel i)
      fun _ => Likewise lim n tb loc floc lk := by
  induction fuel generalizing tb i with
  | zero => exact Triple.ret fun _ h => .refl h
  | succ fuel ih =>
    rw [filewriteFrom]
    split
    · refine fun m h => seq acct_beginOp (fun _ => acct_tabs.seq fun t =>
        given fun ht => ?_) m h
      subst ht
      refine (acct_ilockPtr (h.acc.ok.ip f)).seq fun k => exists_ fun d => given fun hk => ?_
      have hwrites : t.Writes k := ⟨f, hf, by rw [File.target, htype]; exact hk.2.2.2, hw⟩
      refine (acct_writeFile (lock_self lk k d) hwrites).seq fun (r : Int) => ?_
      -- the offset moves if something was written
      generalize hT : (if r > 0 then
        t.updFile f fun x => { x with off := (x.off + r.toNat) % 4294967296 } else t) = T
      obtain ⟨g, hsame, rfl⟩ : ∃ g, Tabs.Same g (t.file f) ∧ T = t.updFile f g := by
        rw [← hT]
        split
        · exact ⟨_, ⟨rfl, rfl, rfl, rfl⟩, rfl⟩
        · exact ⟨fun x => x, ⟨rfl, rfl, rfl, rfl⟩, (Tabs.updFile_id t f).symm⟩
      refine (acct_setTabs ((h.acc.lockAt hk.1 hk.2.2.1).updFile hsame)
        (by rw [Tabs.updFile_refs hsame.target]) hsame.keeps).seq fun _ =>
        (acct_iunlock_lock hk.2.1).seq fun _ => acct_endOp.seq fun _ => ?_
      split
      · exact Triple.ret fun _ h => ⟨t.updFile f g, rfl, h⟩
      split
      · exact acct_fail (by decide)
      · refine (ih ?_ ?_ (i + _)).post ?_
        · rw [Tabs.updFile_self, hsame.type]
          exact htype
        · rw [Tabs.updFile_self, hsame.writable]
          exact hw
        · rintro a m' ⟨tb'', h'', hb⟩
          exact ⟨tb'', h'', hb⟩
    · exact Triple.ret fun _ h => .refl h

theorem acct_filewrite (hf : f < NFILE) (um : UserMem) (addr : Nat) (len con : Int) :
    Acct lim (Books lim n tb loc floc lk) (filewrite f um addr len con) fun _ => Likewise lim n tb loc floc lk := by
  refine acct_read ?_
  dsimp only
  split
  · exact Triple.ret fun _ h => .refl h
  next hwr =>
  split
  · exact acct_pipewrite acc _ um addr len
  · split <;> exact Triple.ret fun _ h => .refl h
  · next htype =>
    split
    · exact Triple.ret fun _ h => .refl h
    · exact acct_filewriteFrom hf htype (by simpa using hwr) um addr _ _ _
  · exact acct_fail (by decide)

end Files

/-! ## Names -/

section Names

variable {d : Nat}

/-- The exit `end_op(); return r;`. -/
theorem acct_exit (a : α) : Acct lim (Books lim (n + 1) tb loc floc lk) (do endOp; pure a)
    fun _ => Books lim n tb loc floc lk :=
  acct_endOp.seq fun _ => skip

variable (acc : Account tb loc floc lk) (hroot : Within lim ROOTINO) (hloc : ∀ k, 0 ≤ loc k)
  (hp : p < NPROC)

theorem lend_nonneg (hloc : ∀ k, 0 ≤ loc k) (x : Option Nat) (k : Nat) : 0 ≤ lend loc x k := by
  have h := hloc k
  have hx := point_nonneg x k
  rw [lend_apply]
  omega

theorem mod16 (n : Nat) : n % 65536 < 65536 := Nat.mod_lt n (by decide)

/-- A store to `nlink` or `perm` of a locked inode. -/
theorem acct_updNlink (hk : lk k = some t) (x : Nat) : Kept lim n tb loc floc lk (updNlink k (x % 65536)) :=
  acct_entry (o := .updNlink k (x % 65536)) (if_pos (mod16 x)) hk

include acc hroot hloc hp in
/-- What a path names is looked up and locked. -/
theorem acct_lookup (path : List UInt8) {Q : α → Icache → Prop} {bad : Up α} {good : Nat → Up α}
    (hbad : Acct lim (Books lim n tb loc floc lk) bad Q)
    (hgood : ∀ k t, k < NINODE → lk k = none →
      Acct lim (Books lim n tb (lend loc (some k)) floc (lock lk k t)) (good k) Q) :
    Acct lim (Books lim n tb loc floc lk) (do
      match ← namei p path with
      | none => bad
      | some k => do
        ilock k
        good k) Q := by
  refine (acct_namei acc hroot hloc hp path).seq fun r => given fun hr => ?_
  cases r with
  | none => exact hbad
  | some k =>
    exact (acct_ilock (hr k rfl)).seq fun _ => exists_ fun t => given fun h => hgood k t (hr k rfl) h.1

include acc in
/-- `bad:` of `sys_link` gives the reference back. -/
theorem acct_linkBad (hk : k < NINODE) :
    Acct lim (Books lim (n + 1) tb (lend loc (some k)) floc lk) (linkBad k)
      fun _ => Books lim n tb loc floc lk :=
  (acct_ilock hk).seq fun _ => exists_ fun t => given fun hlk => (acct_inode k).seq fun _ =>
    (acct_updNlink (lock_self lk k t) _).seq fun _ => (acct_iunlockput acc hk hlk.1).seq fun _ =>
      acct_exit _

include acc hroot hloc hp in
theorem acct_sysLink (old new : Option Path) : Kept lim n tb loc floc lk (sysLink p old new) := by
  unfold sysLink
  split
  · refine acct_beginOp.seq fun _ => acct_lookup acc hroot hloc hp _ (acct_exit _) fun k t hk hlk =>
      (acct_fields (lock_self lk k t)).seq fun f => given fun hf => ?_
    split
    · exact (acct_iunlockput acc hk hlk).seq acct_exit
    refine (acct_updNlink (lock_self lk k t) _).seq fun _ => (acct_iunlock_lock hlk).seq fun _ =>
      (acct_namex (acc.lend _) hroot (lend_nonneg hloc _) hp _ true).seq fun r =>
        given fun hr => ?_
    cases r with
    | none => exact acct_linkBad acc hk
    | some x =>
      have hx : x.1 < NINODE := hr _ rfl
      refine (acct_ilock hx).seq fun _ => exists_ fun d => given fun hlx =>
        (acct_dirlink ((acc.lend _).hold hx) (lock_self lk x.1 d) _ hf.2).seq fun r => ?_
      split
      · exact (acct_iunlockput (acc.lend _) hx hlx.1).seq fun _ => acct_linkBad acc hk
      · exact (acct_iunlockput (acc.lend _) hx hlx.1).seq fun _ => (acct_iput acc hk).seq fun _ =>
          acct_exit _
  · exact skip

include acc in
theorem acct_unlinkBad (hdp : dp < NINODE) (hlk : lk dp = none) :
    Acct lim (Books lim (n + 1) tb (lend loc (some dp)) floc (lock lk dp d)) (unlinkBad dp)
      fun _ => Books lim n tb loc floc lk :=
  (acct_iunlockput acc hdp hlk).seq acct_exit

include acc hroot in
/-- Both the directory and the inode are locked. -/
theorem acct_unlinkEntry (hdp : dp < NINODE) (hk : k < NINODE) (hldp : lk dp = none)
    (hlk : lock lk dp d k = none) (hoff : off % DIRENT = 0) :
    Acct lim (Books lim (n + 1) tb (lend (lend loc (some dp)) (some k)) floc (lock (lock lk dp d) k t))
      (unlinkEntry dp k off) fun _ => Books lim n tb loc floc lk := by
  have hne : k ≠ dp := ne_of_lock hlk
  have hlk' : lk k = none := (lock_ne hne).symm.trans hlk
  have hdpl : lock (lock lk dp d) k t dp = some d := by rw [lock_ne (Ne.symm hne), lock_self]
  have htail : Acct lim (Books lim (n + 1) tb (lend (lend loc (some dp)) (some k)) floc
      (lock (lock lk dp d) k t)) (unlinkTail dp k) fun _ => Books lim n tb loc floc lk := by
    rw [lend_comm, lock_comm (Ne.symm hne)]
    refine (acct_iunlockput (acc.hold hk) hdp ?_).seq fun _ => (acct_inode k).seq fun _ =>
      (acct_updNlink (lock_self lk k t) _).seq fun _ => (acct_iunlockput acc hk hlk').seq fun _ =>
        acct_exit _
    rw [lock_ne (Ne.symm hne)]
    exact hldp
  refine (acct_writei hdpl fun _ => oneEntry_zero hroot hoff).seq fun r => ?_
  split
  · exact acct_fail (by decide)
  refine (acct_inode k).seq fun f => ?_
  split
  · exact (acct_inode dp).seq fun _ => (acct_updNlink hdpl _).seq fun _ => htail
  · exact htail

include acc hroot hloc hp in
theorem acct_sysUnlink (path : Option Path) : Kept lim n tb loc floc lk (sysUnlink p path) := by
  cases path with
  | none => exact skip
  | some path =>
    refine acct_beginOp.seq fun _ => (acct_namex acc hroot hloc hp _ true).seq fun r =>
      given fun hr => ?_
    cases r with
    | none => exact acct_exit _
    | some x =>
      have hdp : x.1 < NINODE := hr _ rfl
      refine (acct_ilock hdp).seq fun _ => exists_ fun d => given fun hldp => ?_
      split
      · exact acct_unlinkBad acc hdp hldp.1
      refine (acct_dirlookup (lock_self lk x.1 d) _).seq fun r => given fun hr => ?_
      cases r with
      | none => exact acct_unlinkBad acc hdp hldp.1
      | some y =>
        obtain ⟨hk, hoff⟩ := hr y rfl
        refine (acct_ilock hk).seq fun _ => exists_ fun t => given fun hlk =>
          (acct_inode _).seq fun f => ?_
        split
        · exact acct_fail (by decide)
        split
        · refine seq ((acct_inode _).seq fun _ => acct_isdiremptyFrom (lock_self ..) _) fun empty => ?_
          split
          · exact acct_unlinkEntry acc hroot hdp hk hldp.1 hlk.1 hoff
          · exact (acct_iunlockput (acc.hold hdp) hk hlk.1).seq fun _ =>
              acct_unlinkBad acc hdp hldp.1
        · exact acct_unlinkEntry acc hroot hdp hk hldp.1 hlk.1 hoff

/-- An inode that a call has made or found for itself, and locked. -/
def Made (lim : Option Nat) (n : Int) (tb : Tabs) (loc floc : Nat → Int) (lk : Nat → Option Nat)
    (type k : Nat) (w : Icache) : Prop :=
  ∃ t, (k < NINODE ∧ lk k = none ∧ (lim ≠ none → type ≠ T_DIR → t ≠ T_DIR)) ∧
    Books lim n tb (lend loc (some k)) floc (lock lk k t) w

include acc in
/-- `create`'s new inode: it comes back locked and the directory does not. -/
theorem acct_createNew (hdp : dp < NINODE) (hldp : lk dp = none) (name : Name)
    (ht : 0 < type ∧ type < 65536) (major minor : Nat) :
    Acct lim (Books lim n tb (lend loc (some dp)) floc (lock lk dp d))
      (createNew dp name type major minor) (Made lim n tb loc floc lk type) := by
  refine (acct_ialloc ht).seq fun k => given fun hk => (acct_ilockAs (· = type) hk).seq fun _ =>
    exists_ fun t => given fun hlk => given fun htype => ?_
  have hne : k ≠ dp := ne_of_lock hlk.1
  have hlk' : lk k = none := (lock_ne hne).symm.trans hlk.1
  have hdpl : lock (lock lk dp d) k t dp = some d := by rw [lock_ne (Ne.symm hne), lock_self]
  have acc' : Account tb (lend (lend loc (some dp)) (some k)) floc (lock (lock lk dp d) k t) :=
    (acc.hold hdp).hold hk
  have hentry : ∀ inum, Within lim inum → Acct lim (Books lim n tb (lend (lend loc (some dp)) (some k))
      floc (lock (lock lk dp d) k t)) (createEntry dp name k inum) (Made lim n tb loc floc lk type) := by
    intro inum hi
    refine (acct_dirlink acc' hdpl name hi).seq fun r => ?_
    split
    · exact acct_fail (by decide)
    · rw [lend_comm, lock_comm (Ne.symm hne)]
      refine (acct_iunlockput (acc.hold hk) hdp ?_).seq fun _ =>
        Triple.ret fun _ h => ⟨t, ⟨hk, hlk', fun hl hd => htype hl ▸ hd⟩, h⟩
      rw [lock_ne (Ne.symm hne)]
      exact hldp
  refine (acct_entry (o := .updNew ..) rfl (lock_self (lock lk dp d) k t)).seq fun _ =>
    (acct_fields (lock_self ..)).seq fun f => given fun hf => ?_
  split
  · refine (acct_fields hdpl).seq fun e => given fun he => (acct_updNlink hdpl _).seq fun _ =>
      (acct_dirlink acc' (lock_self ..) _ hf.2).seq fun r => ?_
    split
    · exact acct_fail (by decide)
    refine (acct_dirlink acc' (lock_self ..) _ he.2).seq fun r => ?_
    split
    · exact acct_fail (by decide)
    · exact hentry _ hf.2
  · exact hentry _ hf.2

include acc hroot hloc hp in
/-- A new inode comes back locked, with a reference. -/
theorem acct_create (path : Path) (ht : 0 < type ∧ type < 65536) (major minor : Nat) :
    Acct lim (Books lim n tb loc floc lk) (create p path type major minor) fun r w =>
      match r with
      | none => Books lim n tb loc floc lk w
      | some k => Made lim n tb loc floc lk type k w := by
  refine (acct_namex acc hroot hloc hp _ true).seq fun r => given fun hr => ?_
  cases r with
  | none => exact Triple.ret fun _ h => h
  | some x =>
    have hdp : x.1 < NINODE := hr _ rfl
    refine (acct_ilock hdp).seq fun _ => exists_ fun d => given fun hldp =>
      (acct_dirlookup (lock_self lk x.1 d) _).seq fun r => given fun hr => ?_
    cases r with
    | none =>
      exact (acct_createNew acc hdp hldp.1 _ ht major minor).seq fun k => Triple.ret fun _ h => h
    | some y =>
      have hk := (hr y rfl).1
      show Acct lim (Books lim n tb (lend (lend loc (some x.1)) (some y.1)) floc (lock lk x.1 d)) _ _
      rw [lend_comm]
      refine (acct_iunlockput (acc.lend _) hdp hldp.1).seq fun _ => (acct_ilock hk).seq fun _ =>
        exists_ fun t => given fun hlk => (acct_fields (lock_self ..)).seq fun f =>
          given fun hf => ?_
      split
      · next hfile =>
        -- an existing file or device
        refine Triple.ret fun _ h => ⟨t, ⟨hk, hlk.1, fun _ _ => ?_⟩, h⟩
        rw [← hf.1]
        rcases hfile.2 with h1 | h1 <;> rw [h1] <;> decide
      · exact (acct_iunlockput acc hk hlk.1).seq fun _ => Triple.ret fun _ h => h

include acc hroot hloc hp in
theorem acct_createCall (path : Option Path) (ht : 0 < type ∧ type < 65536)
    (major minor : Nat) : Kept lim n tb loc floc lk (createCall p path type major minor) := by
  refine acct_beginOp.seq fun _ => ?_
  split
  · exact acct_exit _
  refine (acct_create acc hroot hloc hp _ ht major minor).seq fun r => ?_
  cases r with
  | none => exact acct_exit _
  | some k =>
    exact exists_ fun t => given fun hk => (acct_iunlockput acc hk.1 hk.2.1).seq fun _ =>
      acct_exit _

include acc hroot hloc hp in
theorem acct_sysSymlink (target path : Option Path) :
    Kept lim n tb loc floc lk (sysSymlink p target path) := by
  unfold sysSymlink
  split
  · refine acct_beginOp.seq fun _ => (acct_create acc hroot hloc hp _ (by decide) 0 0).seq fun r => ?_
    cases r with
    | none => exact acct_exit _
    | some k =>
      refine exists_ fun t => given fun hk => (acct_writei (lock_self lk k t) ?_).seq fun _ =>
        (acct_iunlockput acc hk.1 hk.2.1).seq acct_exit
      -- the new inode is no directory
      exact fun hdir N hN => absurd hdir (hk.2.2 (by rw [hN]; exact Option.some_ne_none N) (by decide))
  · exact skip

/-! ## Programs and permissions -/

theorem acct_loadsegFrom (hk : lk k = some t) (offset sz : Nat) (js : List Nat) :
    Kept lim n tb loc floc lk (loadsegFrom k offset sz js) := by
  induction js with
  | nil => exact skip
  | cons j js ih =>
    refine (acct_entry (o := .readi ..) rfl hk).seq fun r => ?_
    split
    · exact skip
    · exact ih

theorem acct_loadHeaders (hk : lk k = some t) (phoff : Nat) (mem : Nat → Bool) (is : List Nat) :
    Kept lim n tb loc floc lk (loadHeaders k phoff mem is) := by
  induction is with
  | nil => exact skip
  | cons i is ih =>
    refine (acct_entry (o := .readi ..) rfl hk).seq fun r => ?_
    dsimp only
    split
    · exact skip
    split
    · exact ih
    split
    · exact skip
    refine (acct_loadsegFrom hk _ _ _).seq fun ok => ?_
    split
    · exact ih
    · exact skip

include acc hroot hloc hp in
theorem acct_sysExec (path : Option Path) (argv pt : Bool) (mem : Nat → Bool) (ret : Int) :
    Kept lim n tb loc floc lk (sysExec p path argv pt mem ret) := by
  cases path with
  | none => exact skip
  | some path =>
    rw [sysExec]
    split
    · refine acct_beginOp.seq fun _ => acct_lookup acc hroot hloc hp _ (acct_exit _) fun k t hk hlk =>
        seq ?_ fun ok => (acct_iunlockput (t := t) acc hk hlk).seq acct_exit
      refine (acct_entry (o := .readi ..) rfl (lock_self lk k t)).seq fun r => ?_
      split
      · exact skip
      · exact acct_loadHeaders (lock_self lk k t) _ _ _
    · exact skip

/-- The directory is unlocked for each entry and locked again. -/
theorem acct_chpermEntries {rec : List UInt8 → Up Int}
    (hrec : ∀ c, Acct lim (Books lim n tb (lend loc (some k)) floc lk) (rec c)
      fun _ => Books lim n tb (lend loc (some k)) floc lk)
    (hk : k < NINODE) (hlk : lk k = none) (path : List UInt8) (es : List Nat) :
    Acct lim (Books lim n tb (lend loc (some k)) floc (lock lk k t)) (chpermEntries rec path k es)
      fun _ w => ∃ t, Books lim n tb (lend loc (some k)) floc (lock lk k t) w := by
  induction es generalizing t with
  | nil => exact Triple.ret fun _ h => ⟨t, h⟩
  | cons e es ih =>
    refine (acct_entry (o := .readi ..) rfl (lock_self lk k t)).seq fun r => ?_
    split
    · exact ih
    split
    · exact acct_fail (by decide)
    · exact (acct_iunlock_lock hlk).seq fun _ => (hrec _).seq fun _ => (acct_ilock hk).seq fun _ =>
        exists_ fun t => given fun _ => ih

include hroot hp in
/-- By induction on the depth; each child is put before the next one. -/
theorem acct_chperm (acc : Account tb loc floc lk) (hloc : ∀ k, 0 ≤ loc k) (mode : Nat)
    (isAdd recursive : Bool) (depth : Nat) (path : List UInt8) :
    Kept lim n tb loc floc lk (chperm p mode isAdd recursive depth path) := by
  induction depth generalizing n loc path with
  | zero => exact acct_fail (by decide)
  | succ depth ih =>
    refine acct_beginOp.seq fun _ => acct_lookup acc hroot hloc hp _ (acct_exit _) fun k t hk hlk =>
      (acct_inode k).seq fun f =>
      (acct_entry (o := .updPerm ..) (if_pos (newPerm_lt ..)) (lock_self lk k t)).seq fun _ => ?_
    split
    · exact (acct_chpermEntries (fun c => ih (acc.lend _) (lend_nonneg hloc _) c) hk hlk path
        _).seq fun _ => exists_ fun t => (acct_iunlockput acc hk hlk).seq acct_exit
    · exact (acct_iunlockput acc hk hlk).seq acct_exit

end Names

end Up

end Xv6
