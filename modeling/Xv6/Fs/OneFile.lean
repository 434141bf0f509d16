/-
  ONE FILE: disks with the root directory and one file `a`, whose blocks follow one another.

  `disk q size` is what `mkfs` writes for one input: the file takes `q` places, the block in place `p` is
  `47 + p` (the indirect block, in place `NDIRECT`, included), and the blocks in use are those below
  `47 + q`.  Such a disk is SOUND if the places cover the size, and a kernel that has the file open on it
  shows a volume without a torn file (`open_coherent`).
-/
import Xv6.Fs.MkfsImage
import Xv6.Fs.Shows

namespace Xv6

open Bytes Owner Dinode

namespace OneFile

/-! ## The disk -/

/-- Inode 2, the file. -/
def inode (q size : Nat) : Dinode :=
  ⟨T_FILE, 1, size, fun j => if j < q ∧ j ≤ NDIRECT then 47 + j else 0, 3, 3⟩

/-- The block of the addresses that have no place in the inode. -/
def indirect (q : Nat) : Block := fun o =>
  if o / 4 + (NDIRECT + 1) < q then UInt8.ofNat ((60 + o / 4) / 256 ^ (o % 4)) else 0

def disk (q size : Nat) : Nat → Block := fun b =>
  if b = 32 then Dinode.put (Dinode.put (fun _ => 0) 1 rootInode) 2 (inode q size)
  else if b = 45 then (List.range (47 + q)).foldl setBit fun _ => 0
  else if b = 59 then indirect q
  else mkfsDisk b

section Sound

variable {q size : Nat}

theorem places : NPLACE = 269 ∧ NDIRECT = 12 ∧ MAXFILE * BSIZE = 274432 := ⟨rfl, rfl, rfl⟩

theorem inode_ok (hsize : size ≤ MAXFILE * BSIZE) : (inode q size).Ok := by
  obtain ⟨-, hD, hM⟩ := places
  constructor
  · exact (by decide : T_FILE < 65536)
  · exact (by decide : 1 < 65536)
  · show size < _
    omega
  · intro j
    show (if j < q ∧ j ≤ NDIRECT then 47 + j else 0) < 4294967296
    split <;> omega
  · intro j hj
    exact if_neg (by omega)
  · exact (by decide : 3 < 65536)
  · exact (by decide : 3 < 65536)

theorem rootInode_ok : rootInode.Ok := by
  constructor
  · decide
  · decide
  · decide
  · intro j
    show (if j = 0 then 46 else 0) < 4294967296
    split <;> omega
  · intro j hj
    unfold NDIRECT at hj
    exact if_neg (by omega)
  · decide
  · decide

/-- The inode table. -/
theorem inodeAt_disk (hsize : size ≤ MAXFILE * BSIZE) {i : Nat}
    (hi : i < mkfsSb.ninodes) : inodeAt mkfsSb (disk q size) i =
      if i = 1 then rootInode else if i = 2 then inode q size else zero := by
  have hi : i < 200 := hi
  have hblock : mkfsSb.iblock i = 32 + i / 16 := Nat.add_comm ..
  unfold inodeAt
  rw [hblock]
  by_cases hfirst : i < 16
  · have hdiv : i / 16 = 0 := by omega
    have hmod : i % IPB = i := Nat.mod_eq_of_lt hfirst
    have hblk : disk q size 32 = put (put (fun _ => 0) 1 rootInode) 2 (inode q size) := rfl
    rw [hdiv, hmod, hblk]
    by_cases h2 : i = 2
    · rw [h2, get_put _ _ (inode_ok hsize)]
      rfl
    rw [get_put_ne _ _ h2]
    by_cases h1 : i = 1
    · rw [h1, get_put _ _ rootInode_ok]
      rfl
    · rw [get_put_ne _ _ h1, get_zero, if_neg h1, if_neg h2]
  · grind [disk, mkfsDisk, get_zero]

/-- The places of the file. -/
theorem addrAt_file {p : Nat} (hp : p < NPLACE) :
    addrAt (disk q size) (inode q size) p = if p < q then 47 + p else 0 := by
  obtain ⟨hN, hD, -⟩ := places
  have haddr : ∀ j, (inode q size).addrs j = if j < q ∧ j ≤ NDIRECT then 47 + j else 0 := fun _ => rfl
  unfold addrAt
  by_cases hdir : p ≤ NDIRECT
  · rw [if_pos hdir, haddr]
    simp only [hdir, and_true]
  rw [if_neg hdir]
  by_cases hind : NDIRECT < q
  · have h59 : (inode q size).addrs NDIRECT = 59 := (haddr _).trans (if_pos ⟨hind, le_rfl⟩)
    have hblk : disk q size 59 = indirect q := rfl
    rw [h59, if_neg (by decide), hblk]
    -- the four bytes of an entry of the indirect block
    have hentry : ∀ i, i < 4 → indirect q (4 * (p - (NDIRECT + 1)) + i) =
        if p < q then UInt8.ofNat ((47 + p) / 256 ^ i) else 0 := by grind [indirect]
    by_cases hpq : p < q
    · rw [if_pos hpq, le32_digits fun i hi => (hentry i hi).trans (if_pos hpq)]
      omega
    · rw [if_neg hpq, le32_digits (v := 0) fun i hi => (hentry i hi).trans ?_]
      rw [if_neg hpq, Nat.zero_div]
      rfl
  · grind

theorem addrAt_root (p : Nat) : addrAt (disk q size) rootInode p = if p = 0 then 46 else 0 := by
  obtain ⟨-, hD, -⟩ := places
  have haddr : ∀ j, rootInode.addrs j = if j = 0 then 46 else 0 := fun _ => rfl
  unfold addrAt
  rw [haddr, haddr, if_neg (show NDIRECT ≠ 0 by omega)]
  by_cases hdir : p ≤ NDIRECT
  · rw [if_pos hdir]
  · rw [if_neg hdir, if_pos rfl, if_neg (by omega)]

/-- What is referred to from where. -/
theorem refers_iff (hq : q ≤ NPLACE) (hsize : size ≤ MAXFILE * BSIZE) (ip : Nat × Nat) (b : Nat) :
    Refers mkfsSb (inodeAt mkfsSb (disk q size)) (disk q size) ip b ↔
      ip = (1, 0) ∧ b = 46 ∨ ip.1 = 2 ∧ ip.2 < q ∧ b = 47 + ip.2 := by
  obtain ⟨i, p⟩ := ip
  constructor
  · rintro ⟨hi, halloc, hp, haddr, hne⟩
    dsimp only at hi halloc hp haddr ⊢
    rw [inodeAt_disk hsize hi] at halloc haddr
    by_cases h1 : i = 1
    · grind [addrAt_root]
    rw [if_neg h1] at halloc haddr
    by_cases h2 : i = 2
    · grind [addrAt_file]
    · rw [if_neg h2] at halloc
      exact absurd rfl halloc
  · rintro (⟨h, rfl⟩ | ⟨h, hp, rfl⟩)
    · obtain ⟨rfl, rfl⟩ := Prod.mk.inj h
      have hroot : inodeAt mkfsSb (disk q size) 1 = rootInode := inodeAt_disk hsize (by decide)
      refine ⟨by decide, ?_, by decide, ?_, by decide⟩
      · rw [hroot]
        decide
      · rw [hroot]
        exact addrAt_root 0
    · obtain rfl : i = 2 := h
      have hfile : inodeAt mkfsSb (disk q size) 2 = inode q size := inodeAt_disk hsize (by decide)
      refine ⟨(by decide : 2 < 200), ?_, lt_of_lt_of_le hp hq, ?_, by omega⟩
      · rw [hfile]
        exact (by decide : T_FILE ≠ 0)
      · rw [hfile]
        exact (addrAt_file (lt_of_lt_of_le hp hq)).trans (if_pos hp)

/-- The blocks in use. -/
theorem used_iff (hq : q ≤ NPLACE) (b : Nat) : Used mkfsSb (disk q size) b ↔ b < 47 + q := by
  obtain ⟨hN, -, -⟩ := places
  have hsize : mkfsSb.size = 2048 := rfl
  unfold Used mapBit
  rw [hsize]
  by_cases hb : b < 2048
  · have hblock : mkfsSb.bblock b = 45 := by
      show b / 8192 + 45 = 45
      omega
    have hblk : disk q size 45 = (List.range (47 + q)).foldl setBit fun _ => 0 := rfl
    rw [hblock, hblk, Mkfs.getBit_foldl, show b % BPB = b from Nat.mod_eq_of_lt (by show b < 8192; omega)]
    exact and_iff_right hb
  · exact iff_of_false (fun h => hb h.1) (by omega)

/-- **The disk is sound** if its places cover the file. -/
theorem sound (hq : q ≤ NPLACE) (hsize : size ≤ MAXFILE * BSIZE)
    (hcover : ∀ bn, bn * BSIZE < size → place bn < q) : Sound mkfsSb (disk q size) := by
  constructor
  · have hlog : disk q size mkfsSb.logstart = fun _ => 0 := rfl
    rw [hlog]
    rfl
  · have hdata : mkfsSb.data = 46 := rfl
    constructor
    · grind [refers_iff]
    · intro b
      rw [used_iff hq, hdata]
      constructor
      · intro hb
        by_cases h46 : b < 46
        · exact .inl h46
        right
        by_cases hroot : b = 46
        · exact ⟨(1, 0), (refers_iff hq hsize _ _).mpr (.inl ⟨rfl, hroot⟩)⟩
        · refine ⟨(2, b - 47), (refers_iff hq hsize _ _).mpr (.inr ⟨rfl, ?_, ?_⟩)⟩
          · show b - 47 < q
            omega
          · show b = 47 + (b - 47)
            omega
      · rintro (hb | ⟨ip, hr⟩)
        · omega
        · rw [refers_iff hq hsize] at hr
          omega
    · intro ip b hr
      rw [refers_iff hq hsize] at hr
      rw [hdata]
      omega
  · intro i hi halloc
    rw [inodeAt_disk hsize hi] at halloc ⊢
    split
    · decide
    · split
      · exact hsize
      · exact Nat.zero_le _
  · intro i hi halloc bn hbn
    rw [inodeAt_disk hsize hi] at halloc hbn ⊢
    by_cases h1 : i = 1
    · rw [if_pos h1] at hbn ⊢
      have hbn : bn * 1024 < 1024 := hbn
      obtain rfl : bn = 0 := by omega
      rw [addrAt_root]
      decide
    rw [if_neg h1] at halloc hbn ⊢
    by_cases h2 : i = 2
    · rw [if_pos h2] at hbn ⊢
      have hp := hcover bn hbn
      rw [addrAt_file (lt_of_lt_of_le hp hq), if_pos hp]
      omega
    · rw [if_neg h2] at halloc
      exact absurd rfl halloc

end Sound

/-! ## The kernel with the file open -/

/-- Process 0 has the file open as descriptor 0, at offset `off`. -/
def openMem (q size off : Nat) : Mem where
  icache k := if k = 0 then ⟨ROOTINO, 1, false, false, 0, 0, Dinode.zero⟩
    else if k = 1 then ⟨2, 1, false, true, 0, 0, inode q size⟩
    else ⟨0, 0, false, false, 0, 0, Dinode.zero⟩
  tabs :=
    { bootMem.tabs with
      file := fun f => if f = 0 then ⟨.inode, 1, true, true, 0, some 1, off, 0⟩
        else ⟨.none, 0, false, false, 0, none, 0, 0⟩
      proc := fun p => if p = 0 then ⟨.running, none, fun fd => if fd = 0 then some 0 else none, some 0⟩
        else ⟨.unused, none, fun _ => none, none⟩ }

/-- The kernel, after boot, with the file open. -/
def kern (q size off : Nat) : Except Err Kern := do
  let m ← initlog (bootMach 1 (disk q size)) mkfsSb.logstart mkfsSb.nlog
  pure ⟨m, openMem q size off⟩

theorem open_slots {q size off : Nat} (hsize : size ≤ MAXFILE * BSIZE) :
    Slots mkfsSb (inodeAt mkfsSb (disk q size)) none (openMem q size off) := by
  have h0 : (openMem q size off).icache 0 = ⟨ROOTINO, 1, false, false, 0, 0, zero⟩ := rfl
  have h1 : (openMem q size off).icache 1 = ⟨2, 1, false, true, 0, 0, inode q size⟩ := rfl
  -- only the first two slots are taken
  have htaken : ∀ k, 1 ≤ ((openMem q size off).icache k).ref → k = 0 ∨ k = 1 := by grind [openMem]
  constructor
  · grind [ROOTINO]
  · intro k _ hk
    rcases htaken k hk with rfl | rfl
    · exact (by decide : ROOTINO < 200)
    · exact (by decide : 2 < 200)
  · grind [mkfsSb, inode, inodeAt_disk, T_FILE]

section Open

variable {q size off : Nat} {s : Kern}

/-- **The kernel with the file open shows the file**, and nothing in it is torn. -/
theorem open_coherent (hq : q ≤ NPLACE) (hsize : size ≤ MAXFILE * BSIZE)
    (hcover : ∀ bn, bn * BSIZE < size → place bn < q) (hs : kern q size off = .ok s) :
    s.Coherent mkfsSb ∧ s.OpenInode mkfsSb 0 1 := by
  obtain ⟨m, hm, hshows⟩ := boot_shows mkfsSb_wf (sound hq hsize hcover)
    (open_slots hsize : Slots _ _ _ (openMem q size off)) 1
  rw [kern, hm] at hs
  obtain rfl := Except.ok.inj hs
  have hfile : Kern.dinode mkfsSb ⟨m, openMem q size off⟩ 2 = inode q size :=
    (hshows.dinode mkfsSb_wf (by decide)).trans (inodeAt_disk hsize (by decide))
  refine ⟨⟨_, hshows, fun _ h => h⟩, rfl, rfl, by decide, (by decide : (1 : Int) ≤ 1), ?_, ?_⟩
  · show (Kern.dinode mkfsSb ⟨m, openMem q size off⟩ 2).type ≠ 0
    rw [hfile]
    exact (by decide : T_FILE ≠ 0)
  · intro _
    show (Kern.dinode mkfsSb ⟨m, openMem q size off⟩ 2).type ≠ T_DIR
    rw [hfile]
    exact (by decide : T_FILE ≠ T_DIR)

theorem kern_mem (hs : kern q size off = .ok s) : s.mem = openMem q size off := by
  unfold kern at hs
  cases hm : initlog (bootMach 1 (disk q size)) mkfsSb.logstart mkfsSb.nlog with
  | error e =>
    rw [hm] at hs
    cases hs
  | ok m =>
    rw [hm] at hs
    obtain rfl := Except.ok.inj hs
    rfl

theorem kern_argfd (hs : kern q size off = .ok s) : s.mem.tabs.argfd 0 0 = some (0, 0) := by
  rw [kern_mem hs]
  rfl

/-- One place covers one byte. -/
theorem covers_one : ∀ bn, bn * BSIZE < 1 → place bn < 1 := by
  intro bn h
  have h : bn * 1024 < 1 := h
  obtain rfl : bn = 0 := by omega
  decide

/-- All places cover the largest file. -/
theorem covers_all : ∀ bn, bn * BSIZE < MAXFILE * BSIZE → place bn < NPLACE :=
  fun _ h => (place_lt (Nat.lt_of_mul_lt_mul_right h)).1

/-- Write to the file; the state before, what was returned, and the state after. -/
def write (q size off : Nat) (um : UserMem) (addr : Nat) (n : Int) : Option (Kern × Int × Kern) := do
  let s ← (kern q size off).toOption
  let (r, s') ← (s.syscall mkfsSb (.write 0 0 um addr n 0)).toOption
  pure (s, r, s')

theorem write_eq {um : UserMem} {addr : Nat} {n r : Int} {s' : Kern}
    (h : write q size off um addr n = some (s, r, s')) :
    kern q size off = .ok s ∧ s.syscall mkfsSb (.write 0 0 um addr n 0) = .ok (r, s') := by
  unfold write at h
  obtain ⟨s1, hs, h⟩ := Option.bind_eq_some_iff.mp h
  obtain ⟨⟨r1, s2⟩, hr, h⟩ := Option.bind_eq_some_iff.mp h
  cases h
  exact ⟨toOption_eq_some hs, toOption_eq_some hr⟩

end Open

end OneFile

end Xv6
