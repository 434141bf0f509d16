/-
  THE DISK LAYOUT, READ AS DATA.

  An inode block is an array of inodes and reads back what was stored in it (`get_put`); a well-formed
  superblock keeps the regions of the disk apart (`Superblock.Wf`).

  An inode refers to blocks from numbered PLACES: `addrs[0 .. NDIRECT)` and `addrs[NDIRECT]`, then
  the entries of the indirect block.  `addrAt` reads a place, `Refers` is what the whole inode table
  refers to, and `content` is a byte of a file.  All three are functions of the inode table and of
  the contents of the blocks, so they come with the one fact everything above needs: a change to a
  block that is not an inode's indirect block changes no reference.
-/
import Xv6.Fs.Kernel
import Xv6.Lib.Owner

namespace Xv6

open Bytes

variable {d : Bytes} {x y : Dinode} {b bn i j k k' o v : Nat} {blk blk' : Nat → Block} {sb : Superblock}

variable {p : Nat}

/-! ## Inodes in a block -/

/-- A field stored byte by byte reads back. -/
theorem le16_digits (h : ∀ i, i < 2 → d (o + i) = UInt8.ofNat (v / 256 ^ i)) : le16 d o = v % 65536 := by
  have h0 := h 0 (by omega)
  have h1 := h 1 (by omega)
  rw [add_zero] at h0
  simp only [le16, h0, h1, UInt8.toNat_ofNat', Nat.pow_zero, Nat.pow_one, Nat.div_one]
  omega

theorem le32_digits (h : ∀ i, i < 4 → d (o + i) = UInt8.ofNat (v / 256 ^ i)) :
    le32 d o = v % 4294967296 := by
  have hlo : le16 d o = v % 65536 := le16_digits fun i hi => h i (by omega)
  have hhi : le16 d (o + 2) = v / 65536 % 65536 := by
    refine le16_digits fun i hi => ?_
    rw [add_assoc, h (2 + i) (by omega), Nat.pow_add, Nat.div_div_eq_div_mul]
  rw [le32, hlo, hhi]
  omega

namespace Dinode

/-- Every field fits its place in `struct dinode`. -/
structure Ok (x : Dinode) : Prop where
  type : x.type < 65536
  nlink : x.nlink < 65536
  size : x.size < 4294967296
  addrs : ∀ j, x.addrs j < 4294967296
  last : ∀ j, NDIRECT < j → x.addrs j = 0
  mode : x.mode < 65536
  perm : x.perm < 65536

theorem zero_ok : zero.Ok := by
  constructor <;> simp [zero]

theorem get_ok (d : Block) (k : Nat) : (get d k).Ok := by
  constructor
  · exact le16_lt ..
  · exact le16_lt ..
  · exact le32_lt ..
  · intro j
    show (if j ≤ NDIRECT then _ else 0) < _
    split
    · exact le32_lt ..
    · omega
  · intro j hj
    exact if_neg (not_le.mpr hj)
  · exact le16_lt ..
  · exact le16_lt ..

/-- An inode block of zeros holds free inodes. -/
theorem get_zero (k : Nat) : get (fun _ => 0) k = zero := by
  have haddrs : (get (fun _ => 0) k).addrs = fun _ => 0 := funext fun j => ite_self ..
  show Dinode.mk _ _ _ (get (fun _ => 0) k).addrs _ _ = _
  rw [haddrs]
  rfl

private theorem put_le16 (d : Block) (k : Nat) (x : Dinode) (h : o + 2 ≤ 64) :
    le16 (put d k x) (64 * k + o) = le16 x.bytes o := by
  refine le16_congr ?_ ?_
  · rw [put, blit_in (by omega) (by omega), Nat.add_sub_cancel_left]
  · rw [put, blit_in (by omega) (by omega), add_assoc, Nat.add_sub_cancel_left]

private theorem put_le32 (d : Block) (k : Nat) (x : Dinode) (h : o + 4 ≤ 64) :
    le32 (put d k x) (64 * k + o) = le32 x.bytes o := by
  refine le32_congr fun i hi => ?_
  rw [put, blit_in (by omega) (by omega), add_assoc, Nat.add_sub_cancel_left]

private theorem bytes_addr (x : Dinode) (hj : j ≤ NDIRECT) :
    le32 x.bytes (4 + 4 * j) = x.addrs j % 4294967296 := by
  unfold NDIRECT at hj
  refine le32_digits fun i hi => ?_
  have hdiv : (4 + 4 * j + i - 4) / 4 = j := by omega
  have hmod : (4 + 4 * j + i - 4) % 4 = i := by omega
  rw [bytes, if_neg (by omega), if_pos (by omega), hdiv, hmod]

private theorem bytes_short (x : Dinode) : le32 x.bytes 0 = x.size % 4294967296 ∧
    le16 x.bytes 56 = x.type % 65536 ∧ le16 x.bytes 58 = x.nlink % 65536 ∧
    le16 x.bytes 60 = x.mode % 65536 ∧ le16 x.bytes 62 = x.perm % 65536 := by
  refine ⟨le32_digits fun i hi => ?_, le16_digits fun i hi => ?_, le16_digits fun i hi => ?_,
    le16_digits fun i hi => ?_, le16_digits fun i hi => ?_⟩
  · rw [bytes, if_pos (by omega), zero_add]
  · rw [bytes, if_neg (by omega), if_neg (by omega), if_pos (by omega), Nat.add_sub_cancel_left]
  · grind [bytes]
  · grind [bytes]
  · grind [bytes]

/-- An inode stored in a block reads back. -/
theorem get_put (d : Block) (k : Nat) (hx : x.Ok) : get (put d k x) k = x := by
  obtain ⟨type, nlink, size, addrs, mode, perm⟩ := x
  obtain ⟨htype, hnlink, hsize, haddrs, hlast, hmode, hperm⟩ := hx
  obtain ⟨h0, h56, h58, h60, h62⟩ := bytes_short ⟨type, nlink, size, addrs, mode, perm⟩
  have hs := put_le32 d k ⟨type, nlink, size, addrs, mode, perm⟩ (o := 0) (by omega)
  rw [add_zero] at hs
  rw [get, hs, put_le16 d k _ (by omega), put_le16 d k _ (by omega), put_le16 d k _ (by omega),
    put_le16 d k _ (by omega), h0, h56, h58, h60, h62, Nat.mod_eq_of_lt htype,
    Nat.mod_eq_of_lt hnlink, Nat.mod_eq_of_lt hsize, Nat.mod_eq_of_lt hmode, Nat.mod_eq_of_lt hperm]
  congr 1
  funext j
  split
  · next hj =>
    rw [add_assoc, put_le32 d k _ (by unfold NDIRECT at hj; omega), bytes_addr _ hj]
    exact Nat.mod_eq_of_lt (haddrs j)
  · next hj => exact (hlast j (not_le.mp hj)).symm

/-- An inode is read off its 64 bytes. -/
theorem get_congr {d d' : Block} (h : ∀ o, o < 64 → d' (64 * k' + o) = d (64 * k + o)) :
    get d' k' = get d k := by
  have h16 : ∀ o, o + 2 ≤ 64 → le16 d' (64 * k' + o) = le16 d (64 * k + o) := fun o ho =>
    le16_congr (h o (by omega)) (h (o + 1) (by omega))
  have h32 : ∀ o, o + 4 ≤ 64 → le32 d' (64 * k' + o) = le32 d (64 * k + o) := fun o ho =>
    le32_congr fun i hi => by rw [add_assoc, add_assoc]; exact h (o + i) (by omega)
  have h0 := h32 0 (by omega)
  rw [add_zero, add_zero] at h0
  rw [get, get, h0, h16 56 (by omega), h16 58 (by omega), h16 60 (by omega), h16 62 (by omega)]
  congr 1
  funext j
  split
  · next hj =>
    rw [add_assoc, add_assoc, h32 _ (by unfold NDIRECT at hj; omega)]
  · rfl

/-- Storing an inode leaves the other inodes of the block alone. -/
theorem get_put_ne (d : Block) (x : Dinode) (h : k' ≠ k) : get (put d k x) k' = get d k' :=
  get_congr fun _ _ => blit_out (by omega)

end Dinode

/-! ## The regions of the disk -/

namespace Superblock

/-- The first data block: boot block, superblock, log, inodes and bitmap come before it. -/
def data (sb : Superblock) : Nat := sb.bmapstart + sb.size / BPB + 1

/-- The regions follow each other, as `mkfs` lays them out. -/
structure Wf (sb : Superblock) : Prop where
  nlog : 0 < sb.nlog
  logsize : sb.nlog ≤ LOGSIZE
  inode : sb.logstart + sb.nlog ≤ sb.inodestart
  bmap : sb.inodestart + sb.ninodes / IPB < sb.bmapstart
  fits : sb.data ≤ sb.size
  small : sb.size < 4294967296
  inums : sb.ninodes ≤ 65536

/-- Inodes are in the inode blocks, ... -/
theorem Wf.iblock (h : sb.Wf) (hi : i < sb.ninodes) :
    sb.inodestart ≤ sb.iblock i ∧ sb.iblock i < sb.bmapstart := by
  have hb := h.bmap
  unfold Superblock.iblock
  unfold IPB BSIZE at *
  omega

/-- ... and the bits of the map in the map. -/
theorem bblock_range (hb : b < sb.size) : sb.bmapstart ≤ sb.bblock b ∧ sb.bblock b < sb.data := by
  unfold Superblock.bblock Superblock.data BPB BSIZE
  omega

theorem Wf.not_inLog (h : sb.Wf) (hb : sb.inodestart ≤ b) :
    ¬ (sb.logstart ≤ b ∧ b ≤ sb.logstart + (sb.nlog - 1)) := by
  have := h.inode
  have := h.nlog
  omega

theorem Wf.inode_lt (h : sb.Wf) : sb.inodestart < sb.bmapstart ∧ sb.bmapstart < sb.data := by
  have := h.bmap
  unfold Superblock.data BPB BSIZE
  unfold IPB BSIZE at this
  omega

/-- Two inodes share a block and a slot only if they are the same. -/
theorem iblock_inj (h : sb.iblock i = sb.iblock j) (hm : i % IPB = j % IPB) : i = j := by
  unfold iblock at h
  have hi := Nat.div_add_mod i IPB
  have hj := Nat.div_add_mod j IPB
  have hdiv : i / IPB = j / IPB := by omega
  rw [← hi, ← hj, hdiv, hm]

theorem bblock_inj {c : Nat} (h : sb.bblock b = sb.bblock c) (hm : b % BPB = c % BPB) : b = c := by
  unfold bblock at h
  have hb := Nat.div_add_mod b BPB
  have hc := Nat.div_add_mod c BPB
  have hdiv : b / BPB = c / BPB := by omega
  rw [← hb, ← hc, hdiv, hm]

end Superblock

/-- Inode `i` as the disk has it. -/
def inodeAt (sb : Superblock) (img : Nat → Block) (i : Nat) : Dinode :=
  Dinode.get (img (sb.iblock i)) (i % IPB)

/-! ## The blocks of an inode -/

/-- The places from which an inode refers to blocks. -/
def NPLACE : Nat := NDIRECT + 1 + NINDIRECT

/-- The place of the address of the `bn`th block of a file. -/
def place (bn : Nat) : Nat := if bn < NDIRECT then bn else bn + 1

/-- What place `p` of the inode `x` refers to; 0 is nothing. -/
def addrAt (blk : Nat → Block) (x : Dinode) (p : Nat) : Nat :=
  if p ≤ NDIRECT then x.addrs p
  else if x.addrs NDIRECT = 0 then 0
  else le32 (blk (x.addrs NDIRECT)) (4 * (p - (NDIRECT + 1)))

/-- The inodes of the table `D` refer to block `b` from place `ip.2` of inode `ip.1`. -/
structure Refers (sb : Superblock) (D : Nat → Dinode) (blk : Nat → Block) (ip : Nat × Nat)
    (b : Nat) : Prop where
  inum : ip.1 < sb.ninodes
  alloc : (D ip.1).type ≠ 0
  place : ip.2 < NPLACE
  addr : addrAt blk (D ip.1) ip.2 = b
  ne : b ≠ 0

/-- The bit of block `b` in the free map. -/
def mapBit (sb : Superblock) (blk : Nat → Block) (b : Nat) : Bool :=
  getBit (blk (sb.bblock b)) (b % BPB)

/-- The block is marked in use. -/
def Used (sb : Superblock) (blk : Nat → Block) (b : Nat) : Prop :=
  b < sb.size ∧ mapBit sb blk b = true

/-- Byte `o` of the file with inode `x`. -/
def content (blk : Nat → Block) (x : Dinode) (o : Nat) : UInt8 :=
  blk (addrAt blk x (place (o / BSIZE))) (o % BSIZE)

theorem place_lt (h : bn < MAXFILE) : place bn < NPLACE ∧ place bn ≠ NDIRECT := by
  unfold MAXFILE at h
  unfold place NPLACE
  split <;> omega

/-- Two blocks of a file are in two places. -/
theorem place_inj {bn' : Nat} (h : place bn = place bn') : bn = bn' := by
  unfold place at h
  split at h <;> split at h <;> omega

theorem addrAt_direct (hp : p ≤ NDIRECT) : addrAt blk x p = x.addrs p := if_pos hp

theorem addrAt_indirect (hp : NDIRECT < p) (hx : x.addrs NDIRECT ≠ 0) :
    addrAt blk x p = le32 (blk (x.addrs NDIRECT)) (4 * (p - (NDIRECT + 1))) := by
  rw [addrAt, if_neg (not_le.mpr hp), if_neg hx]

/-- References depend on the indirect block only. -/
theorem addrAt_congr (h : x.addrs NDIRECT ≠ 0 → blk' (x.addrs NDIRECT) = blk (x.addrs NDIRECT)) :
    addrAt blk' x p = addrAt blk x p := by
  unfold addrAt
  split
  · rfl
  · split
    · rfl
    · next hx => rw [h hx]

/-- The other fields do not matter. -/
theorem addrAt_addrs (h : y.addrs = x.addrs) (p : Nat) : addrAt blk y p = addrAt blk x p := by
  rw [addrAt, addrAt, h]

/-- A byte depends on one address and one block. -/
theorem content_congr (ha : addrAt blk' y (place (o / BSIZE)) = addrAt blk x (place (o / BSIZE)))
    (hb : blk' (addrAt blk x (place (o / BSIZE))) = blk (addrAt blk x (place (o / BSIZE)))) :
    content blk' y o = content blk x o := by
  rw [content, content, ha, hb]

variable {D D' : Nat → Dinode}

/-- The indirect block of an allocated inode. -/
theorem refers_indirect (hi : i < sb.ninodes) (ht : (D i).type ≠ 0)
    (hx : (D i).addrs NDIRECT ≠ 0) : Refers sb D blk (i, NDIRECT) ((D i).addrs NDIRECT) :=
  ⟨hi, ht, show NDIRECT < NPLACE by decide, addrAt_direct le_rfl, hx⟩

/-- Changing a block that is nobody's indirect block changes no reference. -/
theorem refers_congr
    (h : ∀ i b, Refers sb D blk (i, NDIRECT) b → blk' b = blk b) (ip : Nat × Nat) (b : Nat) :
    Refers sb D blk' ip b ↔ Refers sb D blk ip b := by
  have haddr : ∀ i, i < sb.ninodes → (D i).type ≠ 0 → ∀ p,
      addrAt blk' (D i) p = addrAt blk (D i) p := fun i hi ht p =>
    addrAt_congr fun hx => h i _ (refers_indirect hi ht hx)
  constructor
  · rintro ⟨hi, ht, hp, ha, hne⟩
    exact ⟨hi, ht, hp, by rw [← haddr _ hi ht]; exact ha, hne⟩
  · rintro ⟨hi, ht, hp, ha, hne⟩
    exact ⟨hi, ht, hp, by rw [haddr _ hi ht]; exact ha, hne⟩

/-- Changing fields of an inode other than its addresses changes no reference. -/
theorem refers_fields (h : ∀ i, (D' i).addrs = (D i).addrs ∧ ((D' i).type = 0 ↔ (D i).type = 0))
    (ip : Nat × Nat) (b : Nat) : Refers sb D' blk ip b ↔ Refers sb D blk ip b := by
  obtain ⟨ha, ht⟩ := h ip.1
  constructor
  · grind [Refers, addrAt_addrs]
  · grind [Refers, addrAt_addrs]

end Xv6
