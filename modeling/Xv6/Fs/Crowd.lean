/-
  A CROWDED INODE CACHE: every entry is in use.

  Files that are open and have been unlinked keep their inodes, and their entries of the inode cache.
  `withOrphans` puts such inodes on a disk: they are empty files without a link, so that they refer to no
  block, and a sound disk stays sound (`sound_withOrphans`).  With the root and 49 of them referenced
  the `NINODE` entries are all taken, and no other inode can be had.

  Both this disk and that of `OneFile` have the root as their only directory, with one file (`Lone`).
-/
import Xv6.Fs.OneFile
import Xv6.Fs.Tree

namespace Xv6

open Bytes Owner Dinode

/-- An empty file without a link. -/
def orphan : Dinode := ⟨T_FILE, 0, 0, fun _ => 0, 3, 3⟩

/-- The disk `d`, but the inodes from `lo` up to `top` are orphans. -/
def withOrphans (sb : Superblock) (lo top : Nat) (d : Nat → Block) : Nat → Block := fun b o =>
  if sb.inodestart ≤ b ∧ o < BSIZE ∧ lo ≤ (b - sb.inodestart) * IPB + o / 64 ∧
      (b - sb.inodestart) * IPB + o / 64 < top then orphan.bytes (o % 64)
  else d b o

theorem orphan_ok : orphan.Ok := by
  constructor
  · exact (by decide : T_FILE < 65536)
  · exact (by decide : 0 < 65536)
  · exact (by decide : 0 < 4294967296)
  · intro j
    exact (by decide : 0 < 4294967296)
  · intro j _
    rfl
  · exact (by decide : 3 < 65536)
  · exact (by decide : 3 < 65536)

theorem addrAt_orphan (blk : Nat → Block) (p : Nat) : addrAt blk orphan p = 0 := by
  unfold addrAt
  split
  · rfl
  · exact if_pos rfl

section Sound

variable {sb : Superblock} {lo top : Nat} {d : Nat → Block}

/-- The inode table. -/
theorem inodeAt_withOrphans (i : Nat) : inodeAt sb (withOrphans sb lo top d) i =
    if lo ≤ i ∧ i < top then orphan else inodeAt sb d i := by
  have hI : IPB = 16 := rfl
  have hB : BSIZE = 1024 := rfl
  -- byte `o` of the inode
  have hbyte : ∀ o, o < 64 → withOrphans sb lo top d (sb.iblock i) (64 * (i % IPB) + o) =
      if lo ≤ i ∧ i < top then orphan.bytes o else d (sb.iblock i) (64 * (i % IPB) + o) := by
    intro o ho
    have hblk : sb.iblock i - sb.inodestart = i / IPB := Nat.add_sub_cancel ..
    have hle : sb.inodestart ≤ sb.iblock i := Nat.le_add_left ..
    have hdiv : i / IPB * IPB + (64 * (i % IPB) + o) / 64 = i := by
      rw [hI]
      omega
    have hmod : (64 * (i % IPB) + o) % 64 = o := by omega
    have hlt : 64 * (i % IPB) + o < BSIZE := by
      rw [hI, hB]
      omega
    unfold withOrphans
    rw [hblk, hdiv, hmod]
    simp only [hle, hlt, true_and]
  unfold inodeAt
  by_cases hin : lo ≤ i ∧ i < top
  · rw [if_pos hin]
    refine Eq.trans ?_ (get_put (fun _ => 0) 0 orphan_ok)
    refine get_congr fun o ho => ?_
    rw [hbyte o ho, if_pos hin]
    show _ = blit (fun _ => 0) (64 * 0) 64 orphan.bytes (64 * 0 + o)
    rw [blit_in (by omega) (by omega), Nat.add_sub_cancel_left]
  · rw [if_neg hin]
    refine get_congr fun o ho => ?_
    rw [hbyte o ho, if_neg hin]

/-- The other blocks. -/
theorem withOrphans_other (hsb : sb.Wf) (htop : top ≤ sb.ninodes) {b : Nat}
    (hb : b < sb.inodestart ∨ sb.bmapstart ≤ b) : withOrphans sb lo top d b = d b := by
  funext o
  refine if_neg ?_
  rintro ⟨hle, -, -, hlt⟩
  have hbm := hsb.bmap
  have hI : IPB = 16 := rfl
  rw [hI] at hlt hbm
  omega

/-- References are as before: an orphan has none. -/
theorem refers_withOrphans (hsb : sb.Wf) (hd : Sound sb d) (htop : top ≤ sb.ninodes)
    (hfree : ∀ i, lo ≤ i → i < top → (inodeAt sb d i).type = 0) (ip : Nat × Nat) (b : Nat) :
    Refers sb (inodeAt sb (withOrphans sb lo top d)) (withOrphans sb lo top d) ip b ↔
      Refers sb (inodeAt sb d) d ip b := by
  have hlow := hsb.inode_lt
  have hsame : ∀ i b, Refers sb (inodeAt sb d) d (i, NDIRECT) b → withOrphans sb lo top d b = d b := by
    intro i b hr
    have hdata := hd.owned.apart hr
    exact withOrphans_other hsb htop (.inr (by omega))
  rw [← refers_congr hsame ip b]
  obtain ⟨i, p⟩ := ip
  have hino : inodeAt sb (withOrphans sb lo top d) i =
      if lo ≤ i ∧ i < top then orphan else inodeAt sb d i := inodeAt_withOrphans i
  constructor
  · grind [Refers, addrAt_orphan]
  · grind [Refers]

/-- **Orphans in place of free inodes keep a disk sound.** -/
theorem sound_withOrphans (hsb : sb.Wf) (hd : Sound sb d) (htop : top ≤ sb.ninodes)
    (hfree : ∀ i, lo ≤ i → i < top → (inodeAt sb d i).type = 0) :
    Sound sb (withOrphans sb lo top d) := by
  have hlow := hsb.inode_lt
  have hlog := hsb.inode
  have hnlog := hsb.nlog
  have hrefers := refers_withOrphans hsb hd htop hfree
  constructor
  · rw [withOrphans_other hsb htop (.inl (by omega))]
    exact hd.log
  · refine hd.owned.congr (fun b => ?_) hrefers fun b => Iff.rfl
    unfold Used mapBit
    refine and_congr_right fun hb => ?_
    rw [withOrphans_other hsb htop (.inr (Superblock.bblock_range hb).1)]
  · intro i hi ht
    rw [inodeAt_withOrphans] at ht ⊢
    split
    · exact Nat.zero_le _
    · next hin =>
      rw [if_neg hin] at ht
      exact hd.size i hi ht
  · intro i hi ht bn hbn
    have hin : ¬ (lo ≤ i ∧ i < top) := by
      intro hin
      rw [inodeAt_withOrphans, if_pos hin] at hbn
      exact absurd hbn (Nat.not_lt_zero _)
    rw [inodeAt_withOrphans, if_neg hin] at ht hbn ⊢
    have hne := hd.full i hi ht bn hbn
    rwa [addrAt_congr fun hx =>
      withOrphans_other hsb htop (.inr (by have := hd.owned.apart (refers_indirect hi ht hx); omega))]

/-- So do its directories. -/
theorem dirs_withOrphans {mem : Mem} (hsb : sb.Wf) (hd : Sound sb d) (htop : top ≤ sb.ninodes)
    (hfree : ∀ i, lo ≤ i → i < top → (inodeAt sb d i).type = 0) (hD : (diskVol sb d mem).Dirs sb) :
    (diskVol sb (withOrphans sb lo top d) mem).Dirs sb := by
  have hlow := hsb.inode_lt
  have hsame : ∀ i, (inodeAt sb d i).type ≠ 0 → inodeAt sb (withOrphans sb lo top d) i = inodeAt sb d i := by
    intro i ht
    rw [inodeAt_withOrphans]
    exact if_neg fun h => ht (hfree i h.1 h.2)
  have hnamed : ∀ {i}, (diskVol sb d mem).Named sb i →
      (diskVol sb (withOrphans sb lo top d) mem).Named sb i := by
    rintro i ⟨hi, ht, hn⟩
    have hin := hsame i ht
    refine ⟨hi, ?_, ?_⟩
    · show (inodeAt sb _ i).type ≠ 0
      rw [hin]
      exact ht
    · refine hn.imp (fun hn => ?_) id
      show (inodeAt sb _ i).nlink ≠ 0
      rw [hin]
      exact hn
  -- a directory is not an orphan
  have hdir : ∀ i, (inodeAt sb (withOrphans sb lo top d) i).type = T_DIR →
      inodeAt sb (withOrphans sb lo top d) i = inodeAt sb d i := by
    intro i ht
    rw [inodeAt_withOrphans] at ht ⊢
    split at ht
    · exact absurd ht (by decide : T_FILE ≠ T_DIR)
    · next hin => exact if_neg hin
  have hbyte : ∀ i o, i < sb.ninodes → (inodeAt sb d i).type ≠ 0 → o < (inodeAt sb d i).size →
      content (withOrphans sb lo top d) (inodeAt sb d i) o = content d (inodeAt sb d i) o := by
    intro i o hi ht ho
    have hdata : ∀ p b, Refers sb (inodeAt sb d) d (i, p) b → withOrphans sb lo top d b = d b := by
      intro p b hr
      have := hd.owned.apart hr
      exact withOrphans_other hsb htop (.inr (by omega))
    have hbn : o / BSIZE * BSIZE < (inodeAt sb d i).size := lt_of_le_of_lt (Nat.div_mul_le_self ..) ho
    have hmax : o / BSIZE < MAXFILE :=
      Nat.lt_of_mul_lt_mul_right (lt_of_lt_of_le hbn (hd.size i hi ht))
    exact content_congr (addrAt_congr fun hx => hdata _ _ (refers_indirect hi ht hx))
      (hdata _ _ ⟨hi, ht, (place_lt hmax).1, rfl, hd.full i hi ht _ hbn⟩)
  refine ⟨hnamed hD.root, ?_, ?_⟩
  · intro i hi ht
    have hin := hdir i ht
    show (inodeAt sb _ i).size % DIRENT = 0
    have ht : (inodeAt sb _ i).type = T_DIR := ht
    rw [hin] at ht ⊢
    exact hD.whole i hi ht
  · intro i e hi ht he hne
    have hin := hdir i ht
    have ht : (inodeAt sb _ i).type = T_DIR := ht
    have he : e ∈ entries (inodeAt sb _ i).size := he
    rw [hin] at ht he
    have hwhole : (inodeAt sb d i).size % DIRENT = 0 := hD.whole i hi ht
    have hin' : ∀ o, o < DIRENT → DIRENT * e + o < (inodeAt sb d i).size := by
      intro o ho
      have he := List.mem_range.mp he
      have hDE : DIRENT = 16 := rfl
      rw [hDE] at he ho hwhole ⊢
      omega
    have hnum : (diskVol sb (withOrphans sb lo top d) mem).deInum i e = (diskVol sb d mem).deInum i e := by
      have hb : ∀ o, o < DIRENT → (diskVol sb (withOrphans sb lo top d) mem).byte i (DIRENT * e + o) =
          (diskVol sb d mem).byte i (DIRENT * e + o) := by
        intro o ho
        show content (withOrphans sb lo top d) (inodeAt sb (withOrphans sb lo top d) i) (DIRENT * e + o) =
          content d (inodeAt sb d i) (DIRENT * e + o)
        rw [hin]
        exact hbyte i _ hi (by rw [ht]; decide) (hin' o ho)
      exact le16_congr (hb 0 (by decide)) (hb 1 (by decide))
    rw [hnum] at hne ⊢
    exact hnamed (hD.entry i e hi ht he hne)

end Sound

/-! ## A tree of one file -/

/-- The volume has one directory, the root of `mkfsDisk`. -/
structure Lone (v : Vol) : Prop where
  root : v.ino ROOTINO = rootInode
  byte : ∀ o, o < 1024 → v.byte ROOTINO o = mkfsDisk 46 o
  dir : ∀ d, d < mkfsSb.ninodes → (v.ino d).type = T_DIR → d = ROOTINO

namespace Lone

variable {v : Vol}

theorem deInum (h : Lone v) {e : Nat} (he : e < 64) : v.deInum ROOTINO e = le16 (mkfsDisk 46) (16 * e) :=
  le16_congr (h.byte _ (by show 16 * e < 1024; omega)) (h.byte _ (by show 16 * e + 1 < 1024; omega))

theorem entryName (h : Lone v) {e : Nat} (he : e < 64) :
    v.entryName ROOTINO e = chars (mkfsDisk 46) (16 * e + 2) DIRSIZ := by
  refine chars_congr fun i hi => ?_
  have hi : i < 14 := hi
  rw [zero_add]
  exact h.byte _ (by show 16 * e + 2 + i < 1024; omega)

/-- The entries that are in use. -/
theorem used : ∀ e, e < 64 → le16 (mkfsDisk 46) (16 * e) ≠ 0 →
    e = 0 ∧ chars (mkfsDisk 46) (16 * e + 2) DIRSIZ = [46] ∧ le16 (mkfsDisk 46) (16 * e) = 1 ∨
    e = 1 ∧ chars (mkfsDisk 46) (16 * e + 2) DIRSIZ = [46, 46] ∧ le16 (mkfsDisk 46) (16 * e) = 1 ∨
    e = 2 ∧ chars (mkfsDisk 46) (16 * e + 2) DIRSIZ = [97] ∧ le16 (mkfsDisk 46) (16 * e) = 2 := by
  decide +kernel

theorem mem_entries (h : Lone v) {e : Nat} : e ∈ entries (v.ino ROOTINO).size ↔ e < 64 := by
  rw [h.root]
  exact List.mem_range

theorem entry (h : Lone v) {d j : Nat} {n : Name} :
    v.Entry mkfsSb d n j ↔ d = ROOTINO ∧ n = [97] ∧ j = 2 := by
  constructor
  · rintro ⟨hd, ht, e, ⟨hmem, hused, hdot, hdotdot⟩, rfl, rfl⟩
    obtain rfl := h.dir d hd ht
    have he := h.mem_entries.mp hmem
    rw [h.entryName he] at hdot hdotdot ⊢
    rw [h.deInum he] at hused ⊢
    rcases used e he hused with ⟨-, hn, -⟩ | ⟨-, hn, -⟩ | ⟨-, hn, hj⟩
    · exact absurd hn hdot
    · exact absurd hn hdotdot
    · exact ⟨rfl, hn, hj⟩
  · rintro ⟨rfl, rfl, rfl⟩
    have hnum : v.deInum ROOTINO 2 = 2 := (h.deInum (by decide)).trans (by decide +kernel)
    have hname : v.entryName ROOTINO 2 = [97] := (h.entryName (by decide)).trans (by decide +kernel)
    refine ⟨by decide, by rw [h.root]; rfl, 2, ⟨h.mem_entries.mpr (by decide), ?_, ?_, ?_⟩, hname, hnum⟩
    · rw [hnum]
      decide
    · rw [hname]
      decide
    · rw [hname]
      decide

theorem tree (h : Lone v) : v.Tree mkfsSb := by
  refine ⟨?_, ?_, ?_, ?_⟩
  · intro d n j he
    obtain ⟨-, rfl, -⟩ := h.entry.mp he
    exact List.cons_ne_nil _ _
  · intro d n j he
    obtain ⟨-, rfl, -⟩ := h.entry.mp he
    exact List.forall_mem_singleton.mpr (by decide)
  · intro d e e' hd ht he he' hu hu' hname
    obtain rfl := h.dir d hd ht
    have he := h.mem_entries.mp he
    have he' := h.mem_entries.mp he'
    rw [h.entryName he, h.entryName he'] at hname
    rw [h.deInum he] at hu
    rw [h.deInum he'] at hu'
    rcases used e he hu with ⟨rfl, hn, -⟩ | ⟨rfl, hn, -⟩ | ⟨rfl, hn, -⟩ <;>
      rcases used e' he' hu' with ⟨rfl, hn', -⟩ | ⟨rfl, hn', -⟩ | ⟨rfl, hn', -⟩ <;>
      first | rfl | (rw [hn, hn'] at hname; exact absurd hname (by decide))
  · -- the only way leads from the root to the file
    intro i hcycle
    obtain ⟨j, ⟨n, hfirst⟩, -⟩ := Relation.TransGen.head'_iff.mp hcycle
    obtain ⟨k, -, ⟨n', hlast⟩⟩ := Relation.TransGen.tail'_iff.mp hcycle
    obtain ⟨rfl, -, -⟩ := h.entry.mp hfirst
    obtain ⟨-, -, hi⟩ := h.entry.mp hlast
    exact absurd hi (by decide)

/-- Whatever way the names are joined, two paths are below the root. -/
theorem below (h : Lone v) {join : List UInt8 → Name → List UInt8} {path q : List UInt8} {d : Nat}
    (hb : Below (v.Entry mkfsSb) join ROOTINO path d q) :
    d = ROOTINO ∧ q = path ∨ d = 2 ∧ q = join path [97] := by
  induction hb with
  | self => exact .inl ⟨rfl, rfl⟩
  | @child d j q n _ he ih =>
    obtain ⟨rfl, rfl, rfl⟩ := h.entry.mp he
    rcases ih with ⟨-, rfl⟩ | ⟨h2, -⟩
    · exact .inr ⟨rfl, rfl⟩
    · exact absurd h2 (by decide)

end Lone

/-! ## The disk with one file -/

namespace OneFile

variable {q size : Nat} {mem : Mem}

/-- The root is the only directory. -/
theorem lone (hsize : size ≤ MAXFILE * BSIZE) : Lone (diskVol mkfsSb (disk q size) mem) := by
  have hroot : inodeAt mkfsSb (disk q size) ROOTINO = rootInode := inodeAt_disk hsize (by decide)
  refine ⟨hroot, ?_, ?_⟩
  · intro o ho
    show content (disk q size) (inodeAt mkfsSb (disk q size) ROOTINO) o = mkfsDisk 46 o
    have hB : BSIZE = 1024 := rfl
    rw [hroot]
    unfold content
    have h46 : disk q size 46 = mkfsDisk 46 := by
      unfold disk
      rw [if_neg (by decide), if_neg (by decide), if_neg (by decide)]
    rw [hB, Nat.div_eq_of_lt ho, Nat.mod_eq_of_lt ho, show place 0 = 0 from rfl, addrAt_root, if_pos rfl, h46]
  · intro d hd ht
    have hino : (diskVol mkfsSb (disk q size) mem).ino d =
        if d = 1 then rootInode else if d = 2 then inode q size else zero := inodeAt_disk hsize hd
    rw [hino] at ht
    by_contra h1
    have h1 : ¬ d = 1 := h1
    rw [if_neg h1] at ht
    split at ht
    · exact absurd ht (by decide : T_FILE ≠ T_DIR)
    · exact absurd ht (by decide)

theorem dirs (hsize : size ≤ MAXFILE * BSIZE) : (diskVol mkfsSb (disk q size) mem).Dirs mkfsSb := by
  have hino : ∀ i, i < mkfsSb.ninodes → (diskVol mkfsSb (disk q size) mem).ino i =
      if i = 1 then rootInode else if i = 2 then inode q size else zero :=
    fun i hi => inodeAt_disk hsize hi
  have hnamed : ∀ i, i = 1 ∨ i = 2 → (diskVol mkfsSb (disk q size) mem).Named mkfsSb i := by
    rintro i (rfl | rfl)
    · refine ⟨by decide, ?_, .inl ?_⟩ <;> rw [hino 1 (by decide), if_pos rfl] <;> decide
    · refine ⟨(by decide : 2 < 200), ?_, .inl ?_⟩ <;> rw [hino 2 (by decide), if_neg (by decide), if_pos rfl]
      · exact (by decide : T_FILE ≠ 0)
      · exact (by decide : 1 ≠ 0)
  have hlone : Lone (diskVol mkfsSb (disk q size) mem) := lone hsize
  refine ⟨hnamed _ (.inl rfl), ?_, ?_⟩
  · intro i hi ht
    obtain rfl := hlone.dir i hi ht
    rw [hlone.root]
    rfl
  · intro i e hi ht he hne
    obtain rfl := hlone.dir i hi ht
    have he := hlone.mem_entries.mp he
    rw [hlone.deInum he] at hne ⊢
    rcases Lone.used e he hne with ⟨-, -, h⟩ | ⟨-, -, h⟩ | ⟨-, -, h⟩
    · exact hnamed _ (.inl h)
    · exact hnamed _ (.inl h)
    · exact hnamed _ (.inr h)

theorem lone_dirs : Lone (diskVol mkfsSb (disk 1 1) (openMem 1 1 0)) ∧
    (diskVol mkfsSb (disk 1 1) (openMem 1 1 0)).Dirs mkfsSb := ⟨lone (by decide), dirs (by decide)⟩

end OneFile

/-! ## The crowded cache -/

namespace Crowd

/-- The root with one file, and 49 files that are open only. -/
def disk : Nat → Block := withOrphans mkfsSb 3 52 (OneFile.disk 1 1)

/-- Entry 0 is the root, the current directory of four processes; the others are the orphans, each open
    as one descriptor. -/
def mem : Mem where
  icache k := if k = 0 then ⟨ROOTINO, 4, false, false, 0, 0, Dinode.zero⟩
    else ⟨k + 2, 1, false, true, 0, 0, orphan⟩
  tabs :=
    { bootMem.tabs with
      file := fun f => if f < 49 then ⟨.inode, 1, true, true, 0, some (f + 1), 0, 0⟩
        else ⟨.none, 0, false, false, 0, none, 0, 0⟩
      proc := fun p => if p < 4 then
          ⟨.running, none, fun fd => if p * NOFILE + fd < 49 then some (p * NOFILE + fd) else none, some 0⟩
        else ⟨.unused, none, fun _ => none, none⟩ }

theorem free_before : ∀ i, 3 ≤ i → i < 52 → (inodeAt mkfsSb (OneFile.disk 1 1) i).type = 0 := by
  intro i h3 h52
  have hi : i < mkfsSb.ninodes := lt_trans h52 (by decide)
  rw [OneFile.inodeAt_disk (by decide) hi, if_neg (by omega), if_neg (by omega)]
  rfl

theorem disk_sound : Sound mkfsSb disk :=
  sound_withOrphans mkfsSb_wf (OneFile.sound (by decide) (by decide) OneFile.covers_one) (by decide) free_before

theorem inodeAt_disk (i : Nat) : inodeAt mkfsSb disk i =
    if 3 ≤ i ∧ i < 52 then orphan else inodeAt mkfsSb (OneFile.disk 1 1) i := inodeAt_withOrphans i

theorem lone : Lone (diskVol mkfsSb disk mem) := by
  have hone : Lone (diskVol mkfsSb (OneFile.disk 1 1) mem) := OneFile.lone (by decide)
  have hroot : inodeAt mkfsSb disk ROOTINO = rootInode :=
    (inodeAt_disk ROOTINO).trans ((if_neg (by decide)).trans hone.root)
  refine ⟨hroot, ?_, ?_⟩
  · intro o ho
    refine Eq.trans ?_ (hone.byte o ho)
    show content disk (inodeAt mkfsSb disk ROOTINO) o =
      content (OneFile.disk 1 1) (inodeAt mkfsSb (OneFile.disk 1 1) ROOTINO) o
    have hroot' : inodeAt mkfsSb (OneFile.disk 1 1) ROOTINO = rootInode := hone.root
    have haddr : addrAt disk rootInode (place (o / BSIZE)) = 46 := by
      have hB : BSIZE = 1024 := rfl
      rw [hB, Nat.div_eq_of_lt ho]
      rfl
    have haddr' : addrAt (OneFile.disk 1 1) rootInode (place (o / BSIZE)) = 46 := by
      have hB : BSIZE = 1024 := rfl
      rw [hB, Nat.div_eq_of_lt ho]
      rfl
    unfold content
    rw [hroot, hroot', haddr, haddr']
    exact congrFun (withOrphans_other mkfsSb_wf (by decide) (.inr (by decide))) _
  · intro d hd ht
    have hino : (diskVol mkfsSb disk mem).ino d = if 3 ≤ d ∧ d < 52 then orphan
      else inodeAt mkfsSb (OneFile.disk 1 1) d := inodeAt_disk d
    rw [hino] at ht
    split at ht
    · exact absurd ht (by decide : T_FILE ≠ T_DIR)
    · exact hone.dir d hd ht

theorem dirs : (diskVol mkfsSb disk mem).Dirs mkfsSb :=
  dirs_withOrphans mkfsSb_wf (OneFile.sound (by decide) (by decide) OneFile.covers_one) (by decide)
    free_before (OneFile.dirs (by decide))

theorem slots : Slots mkfsSb (inodeAt mkfsSb disk) none mem := by
  have h0 : mem.icache 0 = ⟨ROOTINO, 4, false, false, 0, 0, zero⟩ := rfl
  have hk : ∀ k, k ≠ 0 → mem.icache k = ⟨k + 2, 1, false, true, 0, 0, orphan⟩ := fun k h => if_neg h
  have hR : ROOTINO = 1 := rfl
  constructor
  · grind
  · intro k hlt _
    by_cases hk0 : k = 0
    · rw [hk0, h0]
      decide
    · rw [hk k hk0]
      have hlt : k < 50 := hlt
      show k + 2 < 200
      omega
  · intro k hlt _ hv _
    by_cases hk0 : k = 0
    · rw [hk0, h0] at hv
      cases hv
    · have hlt : k < 50 := hlt
      rw [hk k hk0]
      dsimp only
      rw [inodeAt_disk, if_pos (by omega)]
      exact ⟨rfl, (by decide : T_FILE ≠ 0)⟩

/-- Every entry is referenced, none is locked, and none is the file's. -/
theorem taken (k : Nat) : 1 ≤ (mem.icache k).ref ∧ (mem.icache k).locked = false ∧
    (mem.icache k).inum ≠ 2 := by
  have hk : mem.icache k = if k = 0 then ⟨ROOTINO, 4, false, false, 0, 0, zero⟩
    else ⟨k + 2, 1, false, true, 0, 0, orphan⟩ := rfl
  rw [hk]
  split
  · decide
  · refine ⟨Int.le_refl _, rfl, ?_⟩
    show k + 2 ≠ 2
    omega

theorem cwds : (diskVol mkfsSb disk mem).Cwds := by
  intro p c hc
  obtain rfl : c = 0 := by
    have hp : mem.tabs.proc p = if p < 4 then
        ⟨.running, none, fun fd => if p * NOFILE + fd < 49 then some (p * NOFILE + fd) else none, some 0⟩
      else ⟨.unused, none, fun _ => none, none⟩ := rfl
    have hc : (mem.tabs.proc p).cwd = some c := hc
    rw [hp] at hc
    split at hc
    · exact (Option.some.inj hc).symm
    · cases hc
  exact ⟨by decide, (taken 0).1, dirs.root.type⟩

end Crowd

end Xv6
