/-
  TALLIES: how many pointers point where.

  A table of pointers is a function `ptr : ι → Option κ`; its TALLY over a finite set of entries is
  the function that gives, for every `k`, the number of entries that point to `k`.  Tallies are
  integer-valued functions, so that a counter kept beside the table can be compared with them by
  adding and subtracting POINTS: `point (some k)` is 1 at `k` and 0 elsewhere.

  The one rule that everything uses is `tally_update`: an entry that is overwritten takes its old
  point out of the tally and puts its new one in.
-/
import Mathlib.Algebra.BigOperators.Ring.Finset
import Mathlib.Data.Finset.Prod

namespace Tally

open Function Finset

variable {ι κ : Type} [DecidableEq κ]

/-- What one pointer counts. -/
def point : Option κ → κ → Int
  | none => 0
  | some k => Pi.single k 1

@[simp] theorem point_none : point (none : Option κ) = 0 := rfl

theorem point_self (k : κ) : point (some k) k = 1 := Pi.single_eq_same ..

theorem point_ne {j k : κ} (h : j ≠ k) : point (some k) j = 0 := Pi.single_eq_of_ne h _

theorem point_eq (x : Option κ) (k : κ) : point x k = if x = some k then 1 else 0 := by
  cases x with
  | none => simp
  | some j =>
    grind [point_self, point_ne]

theorem point_nonneg (x : Option κ) (k : κ) : 0 ≤ point x k := by
  rw [point_eq]
  split <;> decide

/-- How many entries of `s` point to each `k`. -/
def tally (s : Finset ι) (ptr : ι → Option κ) (k : κ) : Int :=
  ((s.filter fun i => ptr i = some k).card : Int)

variable {s : Finset ι} {ptr : ι → Option κ}

theorem tally_eq_sum (s : Finset ι) (ptr : ι → Option κ) (k : κ) :
    tally s ptr k = ∑ i ∈ s, point (ptr i) k := by
  rw [tally, card_filter, Nat.cast_sum]
  refine sum_congr rfl fun i _ => ?_
  rw [point_eq]
  split <;> rfl

/-- **Overwriting an entry.** -/
theorem tally_update [DecidableEq ι] {i : ι} (hi : i ∈ s) (ptr : ι → Option κ) (x : Option κ) :
    tally s (update ptr i x) = tally s ptr - point (ptr i) + point x := by
  funext k
  have hold := add_sum_erase s (fun j => point (ptr j) k) hi
  have hnew := add_sum_erase s (fun j => point (update ptr i x j) k) hi
  have hrest : ∑ j ∈ s.erase i, point (update ptr i x j) k = ∑ j ∈ s.erase i, point (ptr j) k := by
    refine sum_congr rfl fun j hj => ?_
    rw [update_of_ne (ne_of_mem_erase hj)]
  rw [update_self, hrest] at hnew
  show tally s (update ptr i x) k = tally s ptr k - point (ptr i) k + point x k
  rw [tally_eq_sum, tally_eq_sum, ← hold, ← hnew]
  omega

theorem tally_nonneg (s : Finset ι) (ptr : ι → Option κ) (k : κ) : 0 ≤ tally s ptr k :=
  Int.natCast_nonneg _

/-- An entry that points to `k` counts. -/
theorem tally_pos {i : ι} {k : κ} (hi : i ∈ s) (h : ptr i = some k) : 1 ≤ tally s ptr k := by
  have hmem : i ∈ s.filter fun i => ptr i = some k := mem_filter.mpr ⟨hi, h⟩
  have hcard := card_pos.mpr ⟨i, hmem⟩
  unfold tally
  omega

/-- Nothing points to `k`. -/
theorem tally_zero {k : κ} (h : ∀ i ∈ s, ptr i ≠ some k) : tally s ptr k = 0 := by
  rw [tally, filter_eq_empty_iff.mpr fun i hi => h i hi]
  rfl

end Tally
