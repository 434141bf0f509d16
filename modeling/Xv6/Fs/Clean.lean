/-
  UNLOGGED CACHED BLOCKS EQUAL THE DISK.

  The desk of `Xv6.Fs.Discipline` is served by the machine (`serve_desk`) and used by the inode layer
  (`Desk.icall_serves`); on a neat run neither asks its caller for anything, so that EVERY program above
  the inode layer clears its desk, whatever is on the disk and in memory.  What the machine keeps on the
  way is the clean cache: `unlogged_clean`.

  The discipline has one exception, `either_copyin` failing after it has copied something, and
  `torn_copy_dirties_cache` shows what happens then.
-/
import Xv6.Fs.Icache
import Xv6.Fs.Image

namespace Xv6

open Prog Option

/-! ## Every program above the inode layer -/

/-- On a neat run no call is ever unsafe. -/
def Icache.neat : Spec Inodes Icache := ⟨fun _ _ => True, Icache.Step none⟩

/-- Every program clears its desk. -/
theorem Up.disciplined {α : Type} (sb : Superblock) (p : Up α) {t : Desk} (ht : ∀ b, t.held b = none) :
    (p.code sb).wp (Desk.spec True) (fun _ t' => ∀ b, t'.held b = none) t := by
  have hrefines : Refines (J := Blocks) (Icall.code sb) Icache.neat (Desk.spec True)
      Desk.Idle := fun o t w hI _ => Desk.icall_serves sb o hI (.inl trivial)
  have hI : Desk.Idle t ⟨t.mem, fun _ => 0, t.out⟩ := ⟨rfl, rfl, ht⟩
  refine wp_mono (wp_expand hrefines hI (wp_true fun _ _ => trivial)) ?_
  rintro a t' ⟨w', -, hI'⟩
  exact hI'.held

/-! ## Boot, and every run from it -/

/-- An empty desk beside a machine with a clean cache. -/
structure Kern.Tidy (s : Kern) : Prop where
  grip : s.mach.Gripped fun _ => False
  idle : s.mach.log.committing = false
  tidy : s.mach.Tidy s.mach.log.lh

theorem Kern.Tidy.onDesk {s : Kern} (h : s.Tidy) :
    OnDesk True s ⟨s.mem, fun _ => none, s.mach.log.outstanding⟩ :=
  ⟨rfl, h.grip.iff fun _ => (iff_of_false id fun h => h rfl), fun _ _ _ h => (by cases h), rfl, h.idle,
    fun _ => h.tidy⟩

/-- With an empty desk, memory and disk agree again. -/
theorem OnDesk.tidied {s : Kern} {t : Desk} (h : OnDesk True s t) (ht : ∀ b, t.held b = none) : s.Tidy :=
  ⟨h.grip.iff fun b => iff_of_false (fun hb => hb (ht b)) id, h.idle, h.tidy trivial⟩

/-- The machine keeps the discipline while no copy is torn. -/
theorem serve_neat : ServesWhen Kern.serve Untorn (fun e => ¬ True ∧ e.misuse = true)
    (Desk.spec True) (OnDesk True) :=
  fun o s t hR hG => serve_desk True o s t hR fun _ => hG

/-- Completed system calls keep the cache clean. -/
theorem Kern.Runs.tidy {sb : Superblock} {s s' : Kern} (h : Kern.Runs sb Untorn s s') (hT : s.Tidy) :
    s'.Tidy := by
  induction h with
  | nil => exact hT
  | @call s1 s' c r _ hG hr ih =>
    have hsound := wp_sound_guarded serve_neat ih.onDesk hG (c.code.disciplined sb fun _ => rfl)
    rw [Kern.syscall_eq] at hr
    rw [hr] at hsound
    obtain ⟨t', ht', hR'⟩ := hsound
    exact hR'.tidied ht'

/-- **Unlogged cached blocks equal the disk.**  In every state that a booted machine reaches by
    system calls whose copies are not torn, a valid buffer that nobody holds and that is not listed
    has the bytes of its disk block. -/
theorem unlogged_clean {sb : Superblock} {me : Nat} {d : Nat → Block} {m : Mach} {mem : Mem}
    {s : Kern} (hboot : initlog (bootMach me d) sb.logstart sb.nlog = .ok m)
    (hreach : Kern.Reaches sb Untorn ⟨m, mem⟩ s) {i : Nat} (hi : i < NBUF)
    (hvalid : (s.mach.buf i).valid = true) (hfree : (s.mach.buf i).lock = none)
    (hunlisted : (s.mach.buf i).blockno ∉ s.mach.log.lh) :
    (s.mach.buf i).data = s.mach.disk (s.mach.buf i).blockno := by
  obtain ⟨s1, c, hruns, hvisits⟩ := hreach
  obtain ⟨hgrip, -, hidle, htidy⟩ := Mach.boot_gripped hboot
  have hT := hruns.tidy ⟨hgrip, hidle, htidy⟩
  obtain ⟨t', hR'⟩ := wp_visits serve_neat hT.onDesk (c.code.disciplined sb fun _ => rfl) hvisits
  exact (hR'.tidy trivial).clean i hi hvalid hfree hunlisted

/-- A free, unlisted, valid buffer of block `b`. -/
def Mach.cleanBuf (s : Mach) (b : Nat) : Option Nat :=
  (List.range NBUF).find? fun i => (s.buf i).valid && (s.buf i).lock == none &&
    (s.buf i).blockno == b && !s.log.lh.contains b

theorem Mach.cleanBuf_some {s : Mach} {b i : Nat} (h : s.cleanBuf b = some i) :
    i < NBUF ∧ (s.buf i).valid = true ∧ (s.buf i).lock = none ∧ (s.buf i).blockno = b ∧ b ∉ s.log.lh := by
  have hi := List.mem_range.mp (List.mem_of_find?_eq_some h)
  have hp := List.find?_some h
  simp only [Bool.and_eq_true, beq_iff_eq, Bool.not_eq_true', List.contains_eq_mem,
    decide_eq_false_iff_not] at hp
  exact ⟨hi, hp.1.1.1, hp.1.1.2, hp.1.2, hp.2⟩

/-- A test that a call is not torn. -/
def untorn : Bcall → Kern → Bool
  | .copyin src tot d off m, _ => (src.copy tot d off m).2
  | .rawWrite .., _ | .forceFail _, _ | .forceDiskFail _, _ => false
  | _, _ => true

theorem untorn_sound (o : Bcall) (s : Kern) (h : untorn o s = true) : Untorn o s := by
  cases o with
  | copyin src tot d off m => exact .inl h
  | rawWrite | forceFail | forceDiskFail => cases h
  | _ => trivial

/-- Write one mapped byte to the file. -/
def wholeWrite : List Syscall :=
  [.open 0 (some pathA) O_RDWR, .write 0 0 onePage 0 1 0]

/-- The machine boots, and the write runs untorn. -/
def wholeRun : Option (Mach × Kern) := do
  let m ← (initlog (bootMach 1 mkfsDisk) mkfsSb.logstart mkfsSb.nlog).toOption
  let s ← Kern.checkAll mkfsSb untorn wholeWrite ⟨m, bootMem⟩
  pure (m, s)

theorem wholeRun_eq : (wholeRun.bind fun r => (r.2.mach.cleanBuf 47).map fun i =>
    (r.2.mach.buf i).data 0) = some 66 := by decide +kernel

theorem unlogged_clean_written : ∃ (s : Kern) (i : Nat), i < NBUF ∧ (s.mach.buf i).blockno = 47 ∧
    (s.mach.buf i).data 0 = 66 ∧ (s.mach.buf i).data = s.mach.disk 47 := by
  obtain ⟨⟨m, s⟩, hr, h⟩ := bind_eq_some_iff.mp wholeRun_eq
  obtain ⟨i, hi, hdata⟩ := map_eq_some_iff.mp h
  rw [wholeRun] at hr
  obtain ⟨m', hm, hr⟩ := bind_eq_some_iff.mp hr
  obtain ⟨s', hs, hr⟩ := bind_eq_some_iff.mp hr
  obtain ⟨rfl, rfl⟩ := Prod.mk.inj (some.inj hr)
  obtain ⟨hlt, hv, hl, hb, hn⟩ := Mach.cleanBuf_some hi
  have hruns := Kern.checkAll_runs untorn_sound (Kern.Runs.nil _) hs
  refine ⟨s', i, hlt, hb, hdata, ?_⟩
  have hclean := unlogged_clean (toOption_eq_some hm)
    ⟨s', .exit 0, hruns, .here _ _⟩ hlt hv hl (by rwa [hb])
  rwa [hb] at hclean

/-- Write two bytes to the file, the second one on a page that is not mapped. -/
def tornWrite : List Syscall :=
  [.open 0 (some pathA) O_RDWR, .write 0 0 onePage 4095 2 0]

def tornRun : Option (List Int × Kern) := do
  let s ← (bootKern mkfsSb mkfsDisk).toOption
  (s.syscalls mkfsSb tornWrite).toOption

theorem tornRun_eq : (tornRun.bind fun r => (r.2.mach.cleanBuf 47).map fun i =>
    (r.1, (r.2.mach.buf i).data 0, r.2.mach.disk 47 0)) = some ([0, 2], 66, 65) := by
  decide +kernel

/-- With the hooks off, a write whose second byte is not mapped reports success and leaves the
    file's block changed in the cache only: valid, free, unlisted, and not what the disk has. -/
theorem torn_copy_dirties_cache : ∃ (s s' : Kern) (i : Nat),
    bootKern mkfsSb mkfsDisk = .ok s ∧ s.syscalls mkfsSb tornWrite = .ok ([0, 2], s') ∧
    i < NBUF ∧ (s'.mach.buf i).valid = true ∧ (s'.mach.buf i).lock = none ∧
    (s'.mach.buf i).blockno ∉ s'.mach.log.lh ∧
    (s'.mach.buf i).data ≠ s'.mach.disk (s'.mach.buf i).blockno := by
  obtain ⟨⟨rs, s'⟩, hr, h⟩ := bind_eq_some_iff.mp tornRun_eq
  obtain ⟨i, hi, hdata⟩ := map_eq_some_iff.mp h
  rw [tornRun] at hr
  obtain ⟨s, hs, hcalls⟩ := bind_eq_some_iff.mp hr
  obtain ⟨rfl, hbytes⟩ := Prod.mk.inj hdata
  obtain ⟨hcache, hdisk⟩ := Prod.mk.inj hbytes
  obtain ⟨hlt, hv, hl, hb, hn⟩ := Mach.cleanBuf_some hi
  refine ⟨s, s', i, toOption_eq_some hs, toOption_eq_some hcalls, hlt, hv, hl, by rwa [hb], ?_⟩
  intro heq
  have h0 := congrFun heq 0
  rw [hb, hcache, hdisk] at h0
  exact absurd h0 (by decide)

end Xv6
