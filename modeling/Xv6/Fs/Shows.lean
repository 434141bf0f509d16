/-
  WHAT A KERNEL STATE SHOWS: the layers from the machine to the volume, put together.

  A kernel state `s` SHOWS a volume `v` when the machine backs a block store that represents it.  Code
  above the inode layer that is proved on volumes then speaks about the machine (`Shows.up`), and what
  it says about inodes and bytes is what the next `bread`s of the machine would find: `Kern.dinode` and
  `Kern.byteAt` read the caches and the disk, and no volume is in their definition.

  The kernel that boots from a SOUND disk shows that disk (`boot_shows`).
-/
import Xv6.Fs.Image
import Xv6.Fs.VolSound
import Xv6.LogCrash

namespace Xv6

open Prog Bytes Owner Kern

variable {g : Goal} {s : Kern} {i : Nat} {sb : Superblock} {v : Vol}

/-! ## Files of a kernel state -/

namespace Kern

variable (sb : Superblock) (s : Kern)

/-- Inode `i`, as the next `bread` of its block finds it. -/
def dinode (i : Nat) : Dinode := inodeAt sb s.mach.view i

/-- Byte `o` of inode `i`, as the next `bread`s find it. -/
def byteAt (i o : Nat) : UInt8 := content s.mach.view (dinode sb s i) o

/-- The state shows the volume. -/
def Shows (v : Vol) : Prop := ∃ t, BackedQuiet sb s t ∧ Rep sb t v

/-- The state shows a volume in which no write has been cut short. -/
def Coherent : Prop := ∃ v, s.Shows sb v ∧ ∀ i, ¬ v.torn i

/-- File `f` is open on the inode in slot `k`.  Directories are not opened for writing. -/
structure OpenInode (f k : Nat) : Prop where
  type : (s.mem.tabs.file f).type = .inode
  ip : (s.mem.tabs.file f).ip = some k
  slot : k < NINODE
  ref : 1 ≤ (s.mem.icache k).ref
  alloc : (s.dinode sb (s.mem.icache k).inum).type ≠ 0
  dir : (s.mem.tabs.file f).writable = true → (s.dinode sb (s.mem.icache k).inum).type ≠ T_DIR

end Kern

/-- Exclude no failure and assume nothing, but that the hooks stay off. -/
def Goal.lenient : Goal := ⟨fun _ => False, False, True, False, fun _ _ h => h⟩

/-- Exclude every failure but those of `ok`. -/
def Goal.but (ok : Err → Prop) : Goal := ⟨fun e => ¬ ok e, True, True, False, fun _ _ _ => trivial⟩

theorem serve_quiet (hsb : sb.Wf) (hq : g.quiet) (hw : ¬ g.whole) :
    Serves serve g.bad (Store.spec sb g) (BackedQuiet sb) := fun o s t hR hsafe =>
  serve_store_quiet hsb.logsize hq o s t hR (fun h => absurd h hw) hsafe

namespace Kern.Shows

variable {s' : Kern} {α : Type}

/-- **From volumes to the machine.**  A call that comes back does what its specification says, and none
    fails in a way that is to be excluded. -/
theorem run (hsb : sb.Wf) (hq : g.quiet) (hw : ¬ g.whole) (h : s.Shows sb v) {p : Up α}
    {Q : α → Vol → Prop} (hp : p.wp (Vol.spec sb g) Q v) :
    match p.run (icall sb) s with
    | .ok (a, s') => ∃ v', Q a v' ∧ s'.Shows sb v'
    | .error e => ¬ g.bad e := by
  obtain ⟨t, hB, hR⟩ := h
  have hcode := wp_expand (J := Blocks) (icall_refines hsb) hR hp
  have hsound := wp_sound (serve_quiet hsb hq hw) hB hcode
  rw [run_expand (J := Blocks) serve (Icall.code sb) p s] at hsound
  rw [show p.run (icall sb) s = p.run (fun o s => (Icall.code sb o).run serve s) s from rfl]
  cases hr : p.run (fun o s => (Icall.code sb o).run serve s) s with
  | error e =>
    rw [hr] at hsound
    exact hsound
  | ok r =>
    rw [hr] at hsound
    obtain ⟨t', ⟨v', hQ, hR'⟩, hB'⟩ := hsound
    exact ⟨v', hQ, t', hB', hR'⟩

theorem up (hsb : sb.Wf) (h : s.Shows sb v) {p : Up α} {Q : α → Vol → Prop} {a : α}
    (hp : p.wp (Vol.spec sb .lenient) Q v)
    (hr : p.run (icall sb) s = .ok (a, s')) : ∃ v', Q a v' ∧ s'.Shows sb v' := by
  have h := h.run hsb trivial id hp
  rw [hr] at h
  exact h

/-- One call. -/
theorem call (hsb : sb.Wf) (hq : g.quiet) (hw : ¬ g.whole) (h : s.Shows sb v) {o : Icall}
    (hsafe : Vol.Safe sb g o v) :
    match icall sb o s with
    | .ok (r, s') => ∃ v', (Vol.Effect sb g o v r v' ∧ v'.Ok sb) ∧ s'.Shows sb v'
    | .error e => ¬ g.bad e := by
  have hp : (Prog.op (I := Inodes) o).wp (Vol.spec sb g)
      (fun (r : o.Res) v' => Vol.Effect sb g o v r v' ∧ v'.Ok sb) v := ⟨hsafe, fun r v' hstep => hstep⟩
  have hrun := h.run hsb hq hw hp
  rw [run_op (I := Inodes) (icall sb) o s] at hrun
  cases hs : icall sb o s with
  | error e =>
    rw [hs] at hrun
    exact hrun
  | ok r =>
    rw [hs] at hrun
    exact hrun

/-- Between operations the inodes of the volume are on the disk. -/
theorem onDisk (hsb : sb.Wf) (h : s.Shows sb v) (hout : s.mach.log.outstanding ≤ 0)
    (hi : i < sb.ninodes) : inodeAt sb s.mach.disk i = s.dinode sb i := by
  obtain ⟨t, ⟨⟨H, hB⟩, -⟩, hR⟩ := h
  have hrange := hsb.iblock hi
  have hlow := hsb.inode_lt
  have hclean : ¬ t.taint (sb.iblock i) := hR.fs.meta_clean (by omega)
  have hidle : t.lh = [] := hB.idle (by rw [hB.log] at hout; exact hout)
  unfold Kern.dinode inodeAt
  rw [hB.view _ (hsb.not_inLog hrange.1) (.inr hclean),
    hB.disk _ (hsb.not_inLog hrange.1) (by rw [hidle]; exact List.not_mem_nil) hclean]

/-- The inodes of the volume are those of the machine. -/
theorem dinode (hsb : sb.Wf) (h : s.Shows sb v) (hi : i < sb.ninodes) : s.dinode sb i = v.ino i := by
  obtain ⟨t, ⟨⟨H, hB⟩, -⟩, hR⟩ := h
  have hrange := hsb.iblock hi
  have hlow := hsb.inode_lt
  have hview : s.mach.view (sb.iblock i) = t.blk (sb.iblock i) :=
    hB.view _ (hsb.not_inLog hrange.1) (.inr (hR.fs.meta_clean (by omega)))
  unfold Kern.dinode inodeAt
  rw [hview]
  exact hR.fs.table i hi (by simp)

/-- The bytes of a file that is not torn are those of the machine. -/
theorem byteAt (hsb : sb.Wf) (h : s.Shows sb v) {o : Nat} (hi : i < sb.ninodes)
    (ht : (v.ino i).type ≠ 0) (ho : o < (v.ino i).size) (hn : ¬ v.torn i) :
    s.byteAt sb i o = v.byte i o := by
  have hino := h.dinode hsb hi
  obtain ⟨t, ⟨⟨H, hB⟩, -⟩, hR⟩ := h
  have hlow := hsb.inode_lt
  have hmax := hR.ok.size i hi ht
  have hbn : o / BSIZE < MAXFILE := by
    unfold BSIZE at hmax ⊢
    omega
  -- the machine and the store agree on blocks that the inode refers to
  have hagree : ∀ p b, Refers sb v.ino t.blk (i, p) b → s.mach.view b = t.blk b := by
    intro p b hr
    have hdata := (hR.fs.refers_data hr).1
    exact hB.view b (hsb.not_inLog (by omega)) (.inr fun hT => hn (hR.torn i p b hr hT))
  have haddr : ∀ p, addrAt s.mach.view (v.ino i) p = addrAt t.blk (v.ino i) p := fun p =>
    addrAt_congr fun hx => hagree NDIRECT _ (refers_indirect hi ht hx)
  have hne : addrAt t.blk (v.ino i) (place (o / BSIZE)) ≠ 0 := by
    rw [hR.addr i _ hi ht (place_lt hbn).1]
    refine hR.ok.full i hi ht _ ?_
    unfold BSIZE
    omega
  rw [Kern.byteAt, hino, ← hR.byte i o hi ht ho hn]
  exact content_congr (haddr _) (hagree _ _ ⟨hi, ht, (place_lt hbn).1, rfl, hne⟩)

/-- The memory of the kernel is the volume's. -/
theorem mem (h : s.Shows sb v) : s.mem = v.mem := by
  obtain ⟨t, ⟨⟨H, hB⟩, -⟩, hR⟩ := h
  exact hB.mem.trans hR.mem

/-- The bound on the log may be taken to be what is in it. -/
theorem exact (h : s.Shows sb v) : s.mach.log.outstanding = v.out ∧ s.mach.log.lh.length ≤ v.lh ∧
    s.mach.log.lh.length < NBUF ∧ s.Shows sb { v with lh := s.mach.log.lh.length } := by
  obtain ⟨t, ⟨⟨H, hB⟩, hq⟩, hR⟩ := h
  have hlog := hB.log
  have hlh : s.mach.log.lh = t.lh := by rw [hlog]
  refine ⟨?_, ?_, ?_, t, ⟨⟨H, hB⟩, hq⟩, ?_⟩
  · rw [hlog]
    exact hR.out
  · rw [hlh]
    exact hR.lh
  · rw [hlh]
    exact hB.fits.max
  · rw [hlh]
    exact { hR with ok := { hR.ok with }, lh := le_rfl }

theorem tight (h : s.Shows sb v) : ∃ n, n < NBUF ∧ s.Shows sb { v with lh := n } :=
  ⟨_, h.exact.2.2⟩

theorem ok (h : s.Shows sb v) : v.Ok sb := by
  obtain ⟨t, -, hR⟩ := h
  exact hR.ok

/-- The files that a volume and a later one have in common. -/
theorem same {v' : Vol} (hsb : sb.Wf) (hv : s.Shows sb v) (hv' : s'.Shows sb v')
    (hi : i < sb.ninodes) (hino : v'.ino i = v.ino i) (hbyte : v'.byte i = v.byte i)
    (htorn : ¬ v.torn i) (htorn' : ¬ v'.torn i) : s'.dinode sb i = s.dinode sb i ∧
    ((s.dinode sb i).type ≠ 0 → ∀ o, o < (s.dinode sb i).size → s'.byteAt sb i o = s.byteAt sb i o) := by
  rw [hv.dinode hsb hi, hv'.dinode hsb hi]
  refine ⟨hino, fun ht o ho => ?_⟩
  rw [hv.byteAt hsb hi ht ho htorn, hv'.byteAt hsb hi (by rwa [hino]) (by rwa [hino]) htorn', hbyte]

end Kern.Shows

/-- The inode of an open file, in the volume. -/
theorem Kern.OpenInode.shown {f k : Nat} (ho : s.OpenInode sb f k) (hsb : sb.Wf) (hv : s.Shows sb v) :
    v.inum k < sb.ninodes ∧ (v.ino (v.inum k)).type ≠ 0 := by
  have href := ho.ref
  have halloc := ho.alloc
  rw [hv.mem] at href halloc
  have hi : v.inum k < sb.ninodes := hv.ok.slots.inum k ho.slot href
  refine ⟨hi, ?_⟩
  rw [← hv.dinode hsb hi]
  exact halloc

/-! ## Booting -/

/-- A disk that the kernel can work on: an empty log, every block in use owned once, and no file with a
    hole or too long. -/
structure Sound (sb : Superblock) (d : Nat → Block) : Prop where
  log : readHdr (d sb.logstart) = some []
  owned : Owned (Used sb d) (Refers sb (inodeAt sb d) d) fun b => b < sb.data
  size : ∀ i, i < sb.ninodes → (inodeAt sb d i).type ≠ 0 → (inodeAt sb d i).size ≤ MAXFILE * BSIZE
  full : ∀ i, i < sb.ninodes → (inodeAt sb d i).type ≠ 0 → ∀ bn, bn * BSIZE < (inodeAt sb d i).size →
    addrAt d (inodeAt sb d i) (place bn) ≠ 0

/-- The volume on a disk. -/
def diskVol (sb : Superblock) (d : Nat → Block) (mem : Mem) : Vol where
  ino := inodeAt sb d
  addr i p := addrAt d (inodeAt sb d i) p
  byte i := content d (inodeAt sb d i)
  torn _ := False
  mem := mem
  out := 0
  lh := 0
  free := freeBlocks sb d

/-- **The kernel that boots from a sound disk shows it.** -/
theorem boot_shows {d : Nat → Block} {mem : Mem} (hsb : sb.Wf) (hd : Sound sb d)
    (hmem : Slots sb (inodeAt sb d) none mem) (me : Nat) :
    ∃ m, initlog (bootMach me d) sb.logstart sb.nlog = .ok m ∧
      Kern.Shows sb ⟨m, mem⟩ (diskVol sb d mem) := by
  obtain ⟨m, (hboot : initlog (bootMach me d) sb.logstart sb.nlog = .ok m), hquiet, -, hdisk⟩ :=
    boot_quiet _ _ me hd.log
  have hlow := hsb.inode_lt
  -- recovery rewrites the log's header, and nothing else
  have hsame : ∀ b, ¬ sb.layout.InLog b → m.disk b = d b := by
    intro b hb
    rw [hdisk, Function.update_of_ne]
    rintro rfl
    exact hb ⟨le_rfl, Nat.le_add_right ..⟩
  refine ⟨m, hboot, ⟨d, [], fun _ => False, [], 0, (-1, -1), mem⟩, ⟨⟨[], ?_⟩, rfl⟩, ?_⟩
  · refine ⟨hquiet.log, ?_, rfl, hquiet.pinned, rfl, hquiet.off.calm [], ?_, sb.layout.fits_nil,
      fun _ => rfl, ?_, ?_, ?_⟩
    · rw [hquiet.off.1, hquiet.off.2]
    · rintro b (hb | hb)
      · exact absurd hb List.not_mem_nil
      · exact absurd hb List.not_mem_nil
    · intro b hb _
      rw [hquiet.view]
      exact hsame b hb
    · intro b hb _ _
      exact hsame b hb
    · show sb.layout.dec (m.disk sb.logstart) = []
      rw [hdisk, Function.update_self]
      exact (sb.layout.dec_enc (d sb.logstart) sb.layout.fits_nil)
  · have hok : ∀ i, i < sb.ninodes → (inodeAt sb d i).Ok := fun i _ => Dinode.get_ok ..
    refine ⟨⟨fun _ _ _ => rfl, hok, ?_, fun _ h => h.elim, hmem⟩,
      ⟨hok, hmem, hd.size, hd.full, fun _ h => h.elim⟩, fun _ _ _ _ _ => rfl, fun _ _ _ _ _ _ => rfl,
      fun _ _ _ _ h => h, rfl, rfl, rfl, le_rfl, le_rfl⟩
    exact hd.owned.congr (fun _ => Iff.rfl) (fun _ _ => Iff.rfl) fun b => ⟨fun h => h.elim id False.elim, .inl⟩

end Xv6
