/-
  SCANNING: `while (s < es && p(m[s])) s++`.

  The loop stops at the first position from `s` on where `p` fails, or at `es`; that position is the
  only one with the property (`scan_spec`, `scan_unique`), so a client never unfolds the loop.
-/
import Mathlib.Logic.Function.Basic

namespace Scan

variable {α : Type} (m : Nat → α) (p : α → Bool)

/-- The loop, for at most `n` rounds. -/
def scanFrom : Nat → Nat → Nat
  | 0, s => s
  | n + 1, s => if p (m s) then scanFrom n (s + 1) else s

/-- The loop. -/
def scan (es s : Nat) : Nat := scanFrom m p (es - s) s

variable {m p}

/-- `e` is where the loop stops. -/
structure Stops (m : Nat → α) (p : α → Bool) (es s e : Nat) : Prop where
  le : s ≤ e
  le_end : e ≤ es
  all : ∀ i, s ≤ i → i < e → p (m i) = true
  stop : e = es ∨ p (m e) = false

theorem scanFrom_spec (n s : Nat) : Stops m p (s + n) s (scanFrom m p n s) := by
  induction n generalizing s with
  | zero => exact ⟨Nat.le_refl _, Nat.le_refl _, fun i h h' => absurd h' (Nat.not_lt.mpr h), .inl rfl⟩
  | succ n ih =>
    rw [scanFrom]
    by_cases hp : p (m s) = true
    · grind [Stops]
    · grind [Stops]

theorem scan_spec {es s : Nat} (h : s ≤ es) : Stops m p es s (scan m p es s) := by
  have := @scanFrom_spec α m p (es - s) s
  rwa [Nat.add_sub_of_le h] at this

theorem Stops.unique {es s e e' : Nat} (h : Stops m p es s e) (h' : Stops m p es s e') : e = e' := by
  obtain ⟨h1, h2, h3, h4⟩ := h
  obtain ⟨h1', h2', h3', h4'⟩ := h'
  rcases Nat.lt_trichotomy e e' with hlt | heq | hgt
  · rcases h4 with h4 | h4
    · omega
    · rw [h3' e h1 hlt] at h4
      cases h4
  · exact heq
  · rcases h4' with h4' | h4'
    · omega
    · rw [h3 e' h1' hgt] at h4'
      cases h4'

theorem Stops.scan_eq {es s e : Nat} (h : Stops m p es s e) : scan m p es s = e :=
  (scan_spec (Nat.le_trans h.le h.le_end)).unique h

/-- Scanning on from where the loop stopped, or from anywhere on the way, ends at the same place. -/
theorem Stops.from {es s e i : Nat} (h : Stops m p es s e) (hi : s ≤ i) (hie : i ≤ e) : Stops m p es i e :=
  ⟨hie, h.le_end, fun j hj => h.all j (Nat.le_trans hi hj), h.stop⟩

end Scan
