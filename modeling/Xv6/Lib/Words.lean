/-
  AN ARRAY OF 64-BIT WORDS, SEEN AS BYTES.

  Memory that is used both ways: a table of words to one part of a program, bytes to another.  `bytes` is
  the little-endian view of the words, and `poke` copies bytes into them: a word is assembled anew if one
  of its bytes is written, and else it stays what it was.  Seen as bytes that is `blit` (`bytes_poke`).
-/
import Mathlib.Tactic.IntervalCases
import Xv6.Lib.Bytes

namespace Words

open Bytes

/-- The bytes of the words. -/
def bytes (w : Nat → Nat) : Bytes := fun o => UInt8.ofNat (w (o / 8) / 256 ^ (o % 8))

/-- Copy `n` bytes to position `off`. -/
def poke (off n : Nat) (src : Bytes) (w : Nat → Nat) : Nat → Nat := fun i =>
  if off < 8 * i + 8 ∧ 8 * i < off + n then le64 (blit (bytes w) off n src) (8 * i) else w i

/-- A byte of an assembled word. -/
theorem byte_le64 (d : Bytes) (o : Nat) {k : Nat} (hk : k < 8) :
    UInt8.ofNat (le64 d o / 256 ^ k) = d (o + k) := by
  apply UInt8.toNat_inj.mp
  rw [UInt8.toNat_ofNat']
  have h0 := (d o).toNat_lt
  have h1 := (d (o + 1)).toNat_lt
  have h2 := (d (o + 2)).toNat_lt
  have h3 := (d (o + 2 + 1)).toNat_lt
  have h4 := (d (o + 4)).toNat_lt
  have h5 := (d (o + 4 + 1)).toNat_lt
  have h6 := (d (o + 4 + 2)).toNat_lt
  have h7 := (d (o + 4 + 2 + 1)).toNat_lt
  unfold le64 le32 le16
  interval_cases k <;> simp only [Nat.reducePow, Nat.add_assoc, Nat.reduceAdd, Nat.add_zero] at * <;> omega

theorem bytes_at (w : Nat → Nat) (i : Nat) {k : Nat} (hk : k < 8) :
    bytes w (8 * i + k) = UInt8.ofNat (w i / 256 ^ k) := by
  unfold bytes
  rw [show (8 * i + k) / 8 = i by omega, show (8 * i + k) % 8 = k by omega]

/-- Copying into the words is copying into their bytes. -/
theorem bytes_poke (off n : Nat) (src : Bytes) (w : Nat → Nat) :
    bytes (poke off n src w) = blit (bytes w) off n src := by
  funext o
  obtain ⟨i, k, hk, rfl⟩ : ∃ i k, k < 8 ∧ o = 8 * i + k := ⟨o / 8, o % 8, by omega, by omega⟩
  rw [bytes_at _ _ hk]
  unfold poke
  split
  · exact byte_le64 _ _ hk
  · rw [blit_out (by omega), bytes_at _ _ hk]

end Words
