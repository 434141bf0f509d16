/-
  BYTE ARRAYS WITH TYPED FIELDS.

  A byte array is a function from positions to bytes; a C structure laid over it is a set of
  little-endian FIELDS at fixed offsets, and a bit map is the same array read bit by bit.  The
  three things a program does to such an array — copy a range in (`blit`), store a field (`put16`,
  `put32`), flip a bit (`setBit`, `clearBit`) — each come with the pair of laws that makes them
  usable: what the written place reads back as, and that every DISJOINT place reads as before.
-/
import Mathlib.Algebra.Ring.Nat
import Mathlib.Logic.Function.Basic

/-- A byte array; the positions past its end are never read by in-bounds code. -/
abbrev Bytes := Nat → UInt8

namespace Bytes

open Function BitVec

variable {i n o o' off v : Nat} {d d' : Bytes}

/-! ## Copying a range -/

/-- `memmove (dst + off) src n`. -/
def blit (dst : Bytes) (off n : Nat) (src : Bytes) : Bytes := fun i =>
  if off ≤ i ∧ i < off + n then src (i - off) else dst i

/-- Inside the range: the source. -/
theorem blit_in {dst src : Bytes} (h : off ≤ i) (h' : i < off + n) :
    blit dst off n src i = src (i - off) := if_pos ⟨h, h'⟩

/-- Outside of it: as before. -/
theorem blit_out {dst src : Bytes} (h : i < off ∨ off + n ≤ i) :
    blit dst off n src i = dst i := if_neg (by omega)

@[simp] theorem blit_zero (dst src : Bytes) (off : Nat) : blit dst off 0 src = dst := by
  funext i; exact blit_out (by omega)

/-- Copying in two steps. -/
theorem blit_append (dst src : Bytes) (off n m : Nat) :
    blit (blit dst off n src) (off + n) m (fun i => src (n + i)) = blit dst off (n + m) src := by
  funext i
  unfold blit
  by_cases h : off ≤ i ∧ i < off + n
  · rw [if_neg (by omega), if_pos h, if_pos (by omega)]
  · grind

/-- Copying one byte is an update. -/
theorem blit_one (dst src : Bytes) (off : Nat) : blit dst off 1 src = update dst off (src 0) := by
  funext i
  unfold blit
  by_cases h : i = off
  · subst h
    rw [if_pos (by omega), update_self, Nat.sub_self]
  · rw [if_neg (by omega), update_of_ne h]

/-- The bytes of a list, as an array padded with zeros. -/
def ofList (l : List UInt8) : Bytes := fun i => l.getD i 0

/-- The second list comes after the first. -/
theorem ofList_append (l l' : List UInt8) (i : Nat) :
    ofList (l ++ l') i = if i < l.length then ofList l i else ofList l' (i - l.length) := by
  simp only [ofList, List.getD_eq_getElem?_getD, List.getElem?_append]
  split <;> rfl

/-- `n` bytes from `off`, as a list. -/
def toList (d : Bytes) (off n : Nat) : List UInt8 := (List.range n).map fun i => d (off + i)

@[simp] theorem length_toList (d : Bytes) (off n : Nat) : (toList d off n).length = n := by
  simp [toList]

/-- A list depends only on its own bytes. -/
theorem toList_congr {off off' n : Nat}
    (h : ∀ i, i < n → d (off + i) = d' (off' + i)) : toList d off n = toList d' off' n := by
  refine List.map_congr_left fun i hi => ?_
  exact h i (List.mem_range.mp hi)

/-- A range in two parts. -/
theorem toList_add (d : Bytes) (off n k : Nat) :
    toList d off (n + k) = toList d off n ++ toList d (off + n) k := by
  simp [toList, List.range_add, comp_def, add_assoc]

/-- The first byte and the rest. -/
theorem toList_succ (d : Bytes) (off n : Nat) : toList d off (n + 1) = d off :: toList d (off + 1) n := by
  rw [add_comm n 1, toList_add]
  rfl

/-- Where a byte of a range is. -/
theorem mem_toList {c : UInt8} (h : c ∈ toList d off n) : ∃ i, off ≤ i ∧ i < off + n ∧ c = d i := by
  obtain ⟨i, hi, rfl⟩ := List.mem_map.mp h
  have := List.mem_range.mp hi
  exact ⟨off + i, by omega, by omega, rfl⟩

/-- A list is what is read of it. -/
theorem toList_ofList (l : List UInt8) : toList (ofList l) 0 l.length = l := by
  apply List.ext_getElem
  · exact length_toList ..
  · intro i h h'
    simp [toList, ofList, h']

/-! ## Little-endian fields -/

/-- The 16-bit field at `o`. -/
def le16 (d : Bytes) (o : Nat) : Nat := (d o).toNat + 256 * (d (o + 1)).toNat

/-- The 32-bit field at `o`. -/
def le32 (d : Bytes) (o : Nat) : Nat := le16 d o + 65536 * le16 d (o + 2)

/-- The 64-bit field at `o`. -/
def le64 (d : Bytes) (o : Nat) : Nat := le32 d o + 4294967296 * le32 d (o + 4)

/-- Store a 16-bit field. -/
def put16 (d : Bytes) (o v : Nat) : Bytes := fun i =>
  if i = o then UInt8.ofNat v else if i = o + 1 then UInt8.ofNat (v / 256) else d i

/-- Store a 32-bit field. -/
def put32 (d : Bytes) (o v : Nat) : Bytes := put16 (put16 d o v) (o + 2) (v / 65536)

/-- Store a 64-bit field. -/
def put64 (d : Bytes) (o v : Nat) : Bytes := put32 (put32 d o v) (o + 4) (v / 4294967296)

/-- A field has 16 bits. -/
theorem le16_lt (d : Bytes) (o : Nat) : le16 d o < 65536 := by
  have h0 := (d o).toNat_lt
  have h1 := (d (o + 1)).toNat_lt
  unfold le16; omega

theorem le32_lt (d : Bytes) (o : Nat) : le32 d o < 4294967296 := by
  have h0 := le16_lt d o
  have h1 := le16_lt d (o + 2)
  unfold le32; omega

/-- A store leaves the other bytes alone. -/
theorem put16_out (h : i < o ∨ o + 2 ≤ i) : put16 d o v i = d i := by
  unfold put16; rw [if_neg (by omega), if_neg (by omega)]

theorem put32_out (h : i < o ∨ o + 4 ≤ i) : put32 d o v i = d i := by
  unfold put32; rw [put16_out (by omega), put16_out (by omega)]

/-- What is stored is read back, cut off at 16 bits. -/
theorem le16_put16 (d : Bytes) (o v : Nat) : le16 (put16 d o v) o = v % 65536 := by
  simp only [le16, put16, if_true, UInt8.toNat_ofNat', if_neg (show ¬ o + 1 = o by omega)]
  omega

/-- Disjoint fields do not meet. -/
theorem le16_put16_ne (h : o' + 2 ≤ o ∨ o + 2 ≤ o') : le16 (put16 d o v) o' = le16 d o' := by
  unfold le16; rw [put16_out (by omega), put16_out (by omega)]

theorem le16_put32_ne (h : o' + 2 ≤ o ∨ o + 4 ≤ o') : le16 (put32 d o v) o' = le16 d o' := by
  unfold le16; rw [put32_out (by omega), put32_out (by omega)]

/-- What is stored is read back, cut off at 32 bits. -/
theorem le32_put32 (d : Bytes) (o v : Nat) : le32 (put32 d o v) o = v % 4294967296 := by
  unfold le32 put32
  rw [le16_put16_ne (by omega), le16_put16, le16_put16]
  omega

/-- Disjoint fields do not meet. -/
theorem le32_put32_ne (h : o' + 4 ≤ o ∨ o + 4 ≤ o') : le32 (put32 d o v) o' = le32 d o' := by
  unfold le32; rw [le16_put32_ne (by omega), le16_put32_ne (by omega)]

/-- A field depends only on its own bytes. -/
theorem le16_congr (h0 : d o = d' o') (h1 : d (o + 1) = d' (o' + 1)) :
    le16 d o = le16 d' o' := by unfold le16; rw [h0, h1]

/-- So do the wider ones. -/
theorem le32_congr (h : ∀ i, i < 4 → d (o + i) = d' (o' + i)) : le32 d o = le32 d' o' := by
  have hlo : le16 d o = le16 d' o' := le16_congr (h 0 (by omega)) (h 1 (by omega))
  have hhi : le16 d (o + 2) = le16 d' (o' + 2) := le16_congr (h 2 (by omega)) (h 3 (by omega))
  unfold le32; rw [hlo, hhi]

theorem le64_congr (h : ∀ i, i < 8 → d (o + i) = d' (o' + i)) : le64 d o = le64 d' o' := by
  have hlo : le32 d o = le32 d' o' := le32_congr fun i hi => h i (by omega)
  have hhi : le32 d (o + 4) = le32 d' (o' + 4) := le32_congr fun i hi => by
    rw [add_assoc, add_assoc]
    exact h (4 + i) (by omega)
  unfold le64; rw [hlo, hhi]

theorem put64_out (h : i < o ∨ o + 8 ≤ i) : put64 d o v i = d i := by
  unfold put64; rw [put32_out (by omega), put32_out (by omega)]

/-- What is stored is read back, cut off at 64 bits. -/
theorem le64_put64 (d : Bytes) (o v : Nat) : le64 (put64 d o v) o = v % 18446744073709551616 := by
  unfold le64 put64
  rw [le32_put32_ne (by omega), le32_put32, le32_put32]
  omega

/-! ## Bit maps -/

/-- `1 << (i % 8)`: the place of bit `i` in its byte. -/
def mask (i : Nat) : UInt8 := UInt8.ofNat (1 <<< (i % 8))

/-- Is bit `i` set?  (`data[i / 8] & m`.) -/
def getBit (d : Bytes) (i : Nat) : Bool := (d (i / 8)) &&& mask i != 0

/-- `data[i / 8] |= m`. -/
def setBit (d : Bytes) (i : Nat) : Bytes := update d (i / 8) (d (i / 8) ||| mask i)

/-- `data[i / 8] &= ~m`. -/
def clearBit (d : Bytes) (i : Nat) : Bytes := update d (i / 8) (d (i / 8) &&& ~~~(mask i))

/-- The mask is a power of two. -/
theorem toBitVec_mask (i : Nat) : (mask i).toBitVec = twoPow 8 (i % 8) := by
  apply eq_of_toNat_eq
  simp [mask, toNat_twoPow, Nat.shiftLeft_eq]

/-- Testing a byte against a one-bit mask reads that bit. -/
theorem getBit_eq (d : Bytes) (i : Nat) : getBit d i = (d (i / 8)).toBitVec.getLsbD (i % 8) := by
  have hk : i % 8 < 8 := Nat.mod_lt _ (by omega)
  have hne : twoPow 8 (i % 8) ≠ 0#8 := by
    intro h
    have hb := congrArg (fun v : BitVec 8 => v.getLsbD (i % 8)) h
    simp [hk] at hb
  have hz : (d (i / 8) &&& mask i = 0) ↔ (d (i / 8)).toBitVec.getLsbD (i % 8) = false := by
    rw [← UInt8.toBitVec_inj, UInt8.toBitVec_and, toBitVec_mask, and_twoPow]
    cases (d (i / 8)).toBitVec.getLsbD (i % 8) with
    | false => simp
    | true => simpa using hne
  rw [getBit, Bool.eq_iff_iff, bne_iff_ne, ne_eq, hz, Bool.not_eq_false]

/-- A bit that is set reads as 1, one that is cleared as 0. -/
theorem getBit_setBit (d : Bytes) (i : Nat) : getBit (setBit d i) i = true := by
  have hk : i % 8 < 8 := Nat.mod_lt _ (by omega)
  rw [getBit_eq, setBit, update_self, UInt8.toBitVec_or, toBitVec_mask, getLsbD_or]
  simp [hk]

theorem getBit_clearBit (d : Bytes) (i : Nat) : getBit (clearBit d i) i = false := by
  have hk : i % 8 < 8 := Nat.mod_lt _ (by omega)
  rw [getBit_eq, clearBit, update_self, UInt8.toBitVec_and, UInt8.toBitVec_not, toBitVec_mask, getLsbD_and]
  simp [hk]

/-- The other bits stay, also those in the same byte. -/
theorem getBit_setBit_ne {i j : Nat} (h : j ≠ i) : getBit (setBit d i) j = getBit d j := by
  rw [getBit_eq, getBit_eq, setBit]
  by_cases hb : j / 8 = i / 8
  · have hij : ¬ (i % 8 = j % 8) := by omega
    rw [hb, update_self, UInt8.toBitVec_or, toBitVec_mask, getLsbD_or, getLsbD_twoPow]
    simp [hij]
  · rw [update_of_ne hb]

theorem getBit_clearBit_ne {i j : Nat} (h : j ≠ i) : getBit (clearBit d i) j = getBit d j := by
  rw [getBit_eq, getBit_eq, clearBit]
  by_cases hb : j / 8 = i / 8
  · have hij : ¬ (i % 8 = j % 8) := by omega
    have hk : j % 8 < 8 := Nat.mod_lt _ (by omega)
    rw [hb, update_self, UInt8.toBitVec_and, UInt8.toBitVec_not, toBitVec_mask,
      getLsbD_and, getLsbD_not, getLsbD_twoPow]
    simp [hij, hk]
  · rw [update_of_ne hb]

end Bytes
