/-
  EXTENTS: pieces of memory, and lists of them that are kept coalesced.

  An extent is a start and a length.  `covers x l` counts the extents of `l` that contain `x`; two
  lists PARTITION the same memory if they cover every `x` equally often, and a list is without
  overlap if it covers none twice.  Counting makes this a conservation law: cutting an extent in two
  (`covers_split`), joining two that meet (`covers_coalesce`) and reordering change nothing.

  `Spaced` lists increase and leave a gap between neighbours.  `coalesce` puts an extent in front of
  such a list and joins the two if they meet; it is all an allocator needs on either side of a block
  that is given back.
-/
import Mathlib.Data.List.Perm.Basic
import Mathlib.Data.List.Count

/-- A start and a length. -/
abbrev Extent := Nat × Nat

namespace Extents

open List

variable {l r : List Extent} {b c : Extent} {x : Nat}

/-! ## Covering -/

/-- How many extents contain `x`? -/
def covers (x : Nat) (l : List Extent) : Nat := l.countP fun b => decide (b.1 ≤ x ∧ x < b.1 + b.2)

@[simp] theorem covers_nil : covers x [] = 0 := rfl

@[simp] theorem covers_cons :
    covers x (b :: l) = covers x l + if b.1 ≤ x ∧ x < b.1 + b.2 then 1 else 0 := by
  simp [covers, countP_cons]

@[simp] theorem covers_append : covers x (l ++ r) = covers x l + covers x r := countP_append ..

theorem covers_perm (h : l.Perm r) : covers x l = covers x r := h.countP_eq _

/-- `x` is covered: some extent contains it. -/
theorem covers_pos : 0 < covers x l ↔ ∃ b ∈ l, b.1 ≤ x ∧ x < b.1 + b.2 := by
  simp [covers, countP_pos_iff]

/-- Cutting an extent in two. -/
theorem covers_split (a m n : Nat) : covers x ((a, m + n) :: l) = covers x ((a, m) :: (a + m, n) :: l) := by
  simp only [covers_cons]
  split <;> split <;> split <;> omega

/-- Where nothing is covered twice, two extents do not overlap. -/
theorem apart_of_once (honce : ∀ x, covers x (b :: l) ≤ 1) (hc : c ∈ l) (hb0 : 0 < b.2)
    (hc0 : 0 < c.2) : b.1 + b.2 ≤ c.1 ∨ c.1 + c.2 ≤ b.1 := by
  by_contra hmeet
  -- the later of the two starts is in both
  have hx := honce (max b.1 c.1)
  have hcov : 0 < covers (max b.1 c.1) l := covers_pos.2 ⟨c, hc, by omega, by omega⟩
  rw [covers_cons, if_pos (by omega)] at hx
  omega

/-! ## Coalesced lists -/

/-- Increasing, with a gap between neighbours. -/
def Spaced (l : List Extent) : Prop := l.Pairwise fun a b => a.1 + a.2 < b.1

/-- Put `b` in front, as one with the first if they meet. -/
def coalesce (b : Extent) : List Extent → Extent × List Extent
  | [] => (b, [])
  | c :: l => if b.1 + b.2 = c.1 then ((b.1, b.2 + c.2), l) else (b, c :: l)

theorem coalesce_meet (h : b.1 + b.2 = c.1) : coalesce b (c :: l) = ((b.1, b.2 + c.2), l) := if_pos h

theorem coalesce_gap (h : b.1 + b.2 ≠ c.1) : coalesce b (c :: l) = (b, c :: l) := if_neg h

/-- The extent in front, at `b`'s start and at least as long, and a part of the list behind it. -/
theorem coalesce_spec (b : Extent) (l : List Extent) :
    (coalesce b l).1.1 = b.1 ∧ b.2 ≤ (coalesce b l).1.2 ∧ (coalesce b l).2.Sublist l := by
  cases l with
  | nil => exact ⟨rfl, Nat.le_refl _, .refl _⟩
  | cons c l =>
    grind [coalesce_meet, coalesce_gap]

/-- It ends where `b` ends or where one of the list ends. -/
theorem coalesce_end {n : Nat} (hb : b.1 + b.2 < n) (hl : ∀ c ∈ l, c.1 + c.2 < n) :
    (coalesce b l).1.1 + (coalesce b l).1.2 < n := by
  cases l with
  | nil => exact hb
  | cons c l =>
    grind [coalesce_meet, coalesce_gap]

/-- Joining covers what was covered. -/
theorem covers_coalesce (b : Extent) (l : List Extent) :
    covers x ((coalesce b l).1 :: (coalesce b l).2) = covers x (b :: l) := by
  cases l with
  | nil => rfl
  | cons c l =>
    by_cases hmeet : b.1 + b.2 = c.1
    · rw [coalesce_meet hmeet, covers_split, hmeet]
    · rw [coalesce_gap hmeet]

/-- Joined with what it meets, an extent leaves a gap. -/
theorem spaced_coalesce (hl : Spaced l) (hb : ∀ c ∈ l, b.1 + b.2 ≤ c.1) :
    Spaced ((coalesce b l).1 :: (coalesce b l).2) := by
  cases l with
  | nil => exact pairwise_singleton ..
  | cons c l =>
    obtain ⟨hc, hl'⟩ := pairwise_cons.1 hl
    have hbc := hb c mem_cons_self
    by_cases hmeet : b.1 + b.2 = c.1
    · rw [coalesce_meet hmeet]
      refine pairwise_cons.2 ⟨fun d hd => ?_, hl'⟩
      have := hc d hd
      show b.1 + (b.2 + c.2) < d.1
      omega
    · rw [coalesce_gap hmeet]
      refine pairwise_cons.2 ⟨fun d hd => ?_, hl⟩
      rcases mem_cons.1 hd with rfl | hd
      · exact Nat.lt_of_le_of_ne hbc hmeet
      · have := hc d hd
        show b.1 + b.2 < d.1
        omega

/-- A list whose first part stays and whose rest starts no earlier. -/
theorem Spaced.replace {u v : List Extent} (h : Spaced (u ++ b :: v)) (hr : Spaced (c :: r))
    (hc : c.1 = b.1) : Spaced (u ++ c :: r) := by
  obtain ⟨hu, -, hub⟩ := pairwise_append.1 h
  refine pairwise_append.2 ⟨hu, hr, fun a ha d hd => ?_⟩
  have hab := hub a ha b mem_cons_self
  rcases mem_cons.1 hd with rfl | hd
  · omega
  · have := (pairwise_cons.1 hr).1 d hd
    omega

/-- The last extent of a list that starts before `x`. -/
theorem exists_last_before (h : ∃ b ∈ l, b.1 < x) :
    ∃ u p v, l = u ++ p :: v ∧ p.1 < x ∧ ∀ c ∈ v, x ≤ c.1 := by
  have hsome : (l.reverse.find? fun b => decide (b.1 < x)).isSome := by
    rw [find?_isSome]
    obtain ⟨b, hb, hlt⟩ := h
    exact ⟨b, by simpa using hb, by simpa using hlt⟩
  obtain ⟨p, hp⟩ := Option.isSome_iff_exists.1 hsome
  obtain ⟨hlt, v, u, hrev, hv⟩ := find?_eq_some_iff_append.1 hp
  refine ⟨u.reverse, p, v.reverse, ?_, by simpa using hlt, ?_⟩
  · simpa using congrArg reverse hrev
  · intro c hc
    have := hv c (by simpa using hc)
    simpa using this

end Extents
