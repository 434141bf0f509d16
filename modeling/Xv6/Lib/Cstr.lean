/-
  C STRINGS IN ARRAYS OF BYTES.

  `chars d off n` is what a C function that looks at no more than `n` bytes takes the string at `off`
  for: the bytes before the first NUL, or all `n` of them.
-/
import Xv6.Lib.Bytes

namespace Bytes

open List

/-- The characters at `off`, up to a NUL and at most `n`. -/
def chars (d : Bytes) (off n : Nat) : List UInt8 := (toList d off n).takeWhile (· != 0)

theorem chars_zero (d : Bytes) (off : Nat) : chars d off 0 = [] := rfl

theorem chars_succ (d : Bytes) (off n : Nat) :
    chars d off (n + 1) = if d off = 0 then [] else d off :: chars d (off + 1) n := by
  rw [chars, toList_succ, takeWhile_cons]
  by_cases h : d off = 0
  · rw [if_pos h, if_neg (by simp [h])]
  · rw [if_neg h, if_pos (by simp [h])]
    rfl

theorem chars_ne_zero {d : Bytes} {off n : Nat} : ∀ c ∈ chars d off n, c ≠ 0 := by
  intro c hc
  simpa using all_eq_true.mp all_takeWhile c hc

theorem length_chars_le (d : Bytes) (off n : Nat) : (chars d off n).length ≤ n := by
  have h := (takeWhile_sublist (· != (0 : UInt8)) (l := toList d off n)).length_le
  rwa [length_toList] at h

theorem chars_congr {d d' : Bytes} {off off' n : Nat} (h : ∀ i, i < n → d (off + i) = d' (off' + i)) :
    chars d off n = chars d' off' n := by
  rw [chars, chars, toList_congr h]

/-- The string is what stands before the first NUL. -/
theorem chars_eq {d : Bytes} {l : List UInt8} (h0 : ∀ c ∈ l, c ≠ 0) :
    ∀ {off n : Nat}, (∀ i, (h : i < l.length) → d (off + i) = l[i]) → d (off + l.length) = 0 →
      l.length < n → chars d off n = l := by
  induction l with
  | nil =>
    intro off n _ hnul hn
    obtain ⟨n, rfl⟩ : ∃ m, n = m + 1 := ⟨n - 1, by simp at hn; omega⟩
    rw [chars_succ, if_pos (by simpa using hnul)]
  | cons c l ih =>
    intro off n hl hnul hn
    obtain ⟨n, rfl⟩ : ∃ m, n = m + 1 := ⟨n - 1, by simp at hn; omega⟩
    have hc : d off = c := hl 0 (by simp)
    rw [chars_succ, hc, if_neg (h0 c (mem_cons_self ..))]
    refine congrArg (c :: ·) (ih (fun c' hc' => h0 c' (mem_cons_of_mem _ hc')) ?_ ?_ ?_)
    · intro i hi
      rw [Nat.add_assoc, Nat.add_comm 1]
      exact hl (i + 1) (by simpa using hi)
    · rw [length_cons] at hnul
      rwa [Nat.add_assoc, Nat.add_comm 1]
    · simpa using hn

/-- A shorter look. -/
theorem chars_take (d : Bytes) : ∀ (off : Nat) {n m : Nat}, m ≤ n →
    chars d off m = (chars d off n).take m := by
  intro off n
  induction n generalizing off with
  | zero =>
    intro m hm
    obtain rfl : m = 0 := by omega
    rfl
  | succ n ih =>
    intro m hm
    cases m with
    | zero => simp [chars_zero]
    | succ m =>
      rw [chars_succ, chars_succ]
      split
      · rfl
      · rw [take_succ_cons, ih (off + 1) (by omega)]

/-- A longer look, past the NUL. -/
theorem chars_of_short {d : Bytes} {off n m : Nat} (h : (chars d off n).length < n) (hm : n ≤ m) :
    chars d off m = chars d off n := by
  have htake := chars_take d off hm
  have hlen := congrArg length htake
  rw [length_take] at hlen
  rw [htake, take_of_length_le]
  omega

/-- A list without a NUL, in an array filled up with NULs. -/
theorem chars_ofList {l : List UInt8} (h0 : ∀ c ∈ l, c ≠ 0) {n : Nat} (hn : l.length ≤ n) :
    chars (ofList l) 0 n = l := by
  have hlong : chars (ofList l) 0 (n + 1) = l := by
    refine chars_eq h0 ?_ ?_ (by omega)
    · intro i hi
      simp [ofList, hi]
    · simp [ofList]
  rw [chars_take (ofList l) 0 (Nat.le_succ n), hlong, take_of_length_le hn]

end Bytes
