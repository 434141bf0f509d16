/-
  RING BUFFERS WITH FREE-RUNNING COUNTERS.

  A ring has `N` cells and two counters that only grow: `r`, the elements taken out, and `w`, the
  elements put in.  Element number `i` lives in cell `i % N`.  The counters are unsigned words, so they
  WRAP at `M`; the cell of an element survives the wrap because `N` divides `M`.

  `Queue N M cells r w q` says that such a ring holds the queue `q`.  The rules below are the only
  thing a client needs: what the comparisons of the counters mean (`empty_iff`, `full_iff`, `length_eq`),
  and what storing at `w`, advancing `r` and moving `w` back do to the queue.
-/
import Mathlib.Data.Nat.ModEq
import Mathlib.Logic.Function.Basic

namespace Ring

open Function List

variable {α : Type} {N M : Nat} {cells : Nat → α} {r w : Nat} {q q' : List α} {x : α}

/-- The elements between two counters, oldest first. -/
def contents (N M : Nat) (cells : Nat → α) (r w : Nat) : List α :=
  (List.range ((w + M - r) % M)).map fun i => cells ((r + i) % N)

/-- The ring holds the queue `q`. -/
structure Queue (N M : Nat) (cells : Nat → α) (r w : Nat) (q : List α) : Prop where
  lt : r < M
  eq : w = (r + q.length) % M
  le : q.length ≤ N
  get : ∀ i (h : i < q.length), cells ((r + i) % N) = q[i]

namespace Queue

/-! ## Reading the counters -/

theorem nil (cells : Nat → α) (h : r < M) : Queue N M cells r r [] :=
  ⟨h, (Nat.mod_eq_of_lt h).symm, Nat.zero_le N, fun _ hi => absurd hi (Nat.not_lt_zero _)⟩

section

variable (h : Queue N M cells r w q)
include h

/-- The unsigned difference of the counters is the length. -/
theorem length_eq (hM : N < M) : (w + M - r) % M = q.length := by
  have hr := h.lt
  have hl := h.le
  rw [h.eq]
  rcases lt_or_ge (r + q.length) M with hlt | hge
  · rw [Nat.mod_eq_of_lt hlt, show r + q.length + M - r = q.length + M by omega, Nat.add_mod_right]
    exact Nat.mod_eq_of_lt (by omega)
  · rw [Nat.mod_eq_sub_mod hge, Nat.mod_eq_of_lt (show r + q.length - M < M by omega),
      show r + q.length - M + M - r = q.length by omega]
    exact Nat.mod_eq_of_lt (by omega)

theorem eq_iff {n : Nat} (hM : N < M) (hn : n ≤ N) : w = (r + n) % M ↔ q.length = n := by
  constructor
  · intro he
    have hr := h.lt
    have hl := h.le
    have h1 := h.eq
    rw [he] at h1
    rcases lt_or_ge (r + n) M with hlt | hge <;> rcases lt_or_ge (r + q.length) M with hlt' | hge'
    · rw [Nat.mod_eq_of_lt hlt, Nat.mod_eq_of_lt hlt'] at h1
      omega
    · rw [Nat.mod_eq_of_lt hlt, Nat.mod_eq_sub_mod hge', Nat.mod_eq_of_lt (by omega)] at h1
      omega
    · rw [Nat.mod_eq_sub_mod hge, Nat.mod_eq_of_lt hlt', Nat.mod_eq_of_lt (by omega)] at h1
      omega
    · rw [Nat.mod_eq_sub_mod hge, Nat.mod_eq_sub_mod hge', Nat.mod_eq_of_lt (by omega),
        Nat.mod_eq_of_lt (by omega)] at h1
      omega
  · rintro rfl
    exact h.eq

theorem empty_iff (hM : N < M) : r = w ↔ q = [] := by
  rw [← length_eq_zero_iff, ← h.eq_iff hM (Nat.zero_le N), Nat.add_zero, Nat.mod_eq_of_lt h.lt]
  exact eq_comm

/-- Cells alone tell whether the ring is empty, unless it may be full. -/
theorem mod_eq_iff (hdvd : N ∣ M) (hroom : q.length < N) : r % N = w % N ↔ q = [] := by
  rw [h.eq, Nat.mod_mod_of_dvd _ hdvd, ← length_eq_zero_iff]
  constructor
  · intro he
    have hd := (Nat.modEq_iff_dvd' (Nat.le_add_right r q.length)).mp he
    rw [Nat.add_sub_cancel_left] at hd
    exact Nat.eq_zero_of_dvd_of_lt hd hroom
  · intro h0
    rw [h0, add_zero]

theorem full_iff (hM : N < M) : w = (r + N) % M ↔ q.length = N :=
  h.eq_iff hM (Nat.le_refl N)

/-- The queue is what lies between the counters. -/
theorem contents_eq (hM : N < M) : contents N M cells r w = q := by
  rw [contents, h.length_eq hM]
  refine ext_getElem (by simp) fun i hi hq => ?_
  rw [getElem_map, getElem_range]
  exact h.get i hq

end

/-! ## Moving the counters -/

/-- The oldest element. -/
theorem front (h : Queue N M cells r w (x :: q)) : cells (r % N) = x :=
  h.get 0 (Nat.succ_pos _)

/-- Taking the oldest element out. -/
theorem pop (h : Queue N M cells r w (x :: q)) (hdvd : N ∣ M) : Queue N M cells ((r + 1) % M) w q := by
  have hlen : (x :: q).length = q.length + 1 := rfl
  have hpos : 0 < M := Nat.zero_lt_of_lt h.lt
  constructor
  · exact Nat.mod_lt _ hpos
  · rw [h.eq, hlen, Nat.mod_add_mod]
    congr 1
    omega
  · have := h.le
    omega
  · intro i hi
    have hget := h.get (i + 1) (by omega)
    rw [getElem_cons_succ] at hget
    rw [← hget, Nat.add_mod, Nat.mod_mod_of_dvd _ hdvd, ← Nat.add_mod]
    congr 2
    omega

/-- The ring seen from a counter in between: the newer part. -/
theorem drop (h : Queue N M cells r w (q ++ q')) (hdvd : N ∣ M) :
    Queue N M cells ((r + q.length) % M) w q' := by
  have hle := h.le
  rw [length_append] at hle
  constructor
  · exact Nat.mod_lt _ (Nat.zero_lt_of_lt h.lt)
  · rw [h.eq, length_append, Nat.mod_add_mod, add_assoc]
  · omega
  · intro i hi
    have hget := h.get (q.length + i) (by rw [length_append]; omega)
    rw [getElem_append_right (by omega)] at hget
    simp only [Nat.add_sub_cancel_left] at hget
    rw [← hget, Nat.add_mod, Nat.mod_mod_of_dvd _ hdvd, ← Nat.add_mod, add_assoc]

/-- The older part. -/
theorem take (h : Queue N M cells r w (q ++ q')) : Queue N M cells r ((r + q.length) % M) q := by
  have hle := h.le
  rw [length_append] at hle
  constructor
  · exact h.lt
  · rfl
  · omega
  · intro i hi
    have hget := h.get i (by rw [length_append]; omega)
    rwa [getElem_append_left hi] at hget

/-- The cell that `w` points to is in no use while there is room. -/
theorem store (h : Queue N M cells r w q) (hdvd : N ∣ M) (hroom : q.length < N) (x : α) :
    Queue N M (update cells (w % N) x) r w q := by
  have hcell : w % N = (r + q.length) % N := by rw [h.eq, Nat.mod_mod_of_dvd _ hdvd]
  constructor
  · exact h.lt
  · exact h.eq
  · exact h.le
  · intro i hi
    have hne : (r + i) % N ≠ w % N := by
      rw [hcell]
      intro he
      have hd := (Nat.modEq_iff_dvd' (show r + i ≤ r + q.length by omega)).mp he
      have := Nat.le_of_dvd (by omega) hd
      omega
    rw [update_of_ne hne]
    exact h.get i hi

/-- Moving `w` on puts the element of its cell in. -/
theorem advance (h : Queue N M cells r w q) (hdvd : N ∣ M) (hroom : q.length < N)
    (hx : cells (w % N) = x) : Queue N M cells r ((w + 1) % M) (q ++ [x]) := by
  constructor
  · exact h.lt
  · rw [h.eq, Nat.mod_add_mod, length_append, add_assoc]
    rfl
  · rw [length_append]
    exact hroom
  · intro i hi
    rw [length_append, length_singleton] at hi
    rcases lt_or_ge i q.length with hlt | hge
    · rw [getElem_append_left hlt]
      exact h.get i hlt
    · obtain rfl : i = q.length := by omega
      rw [h.eq, Nat.mod_mod_of_dvd _ hdvd] at hx
      rw [getElem_append_right le_rfl, hx]
      simp

/-- Putting an element in. -/
theorem push (h : Queue N M cells r w q) (hdvd : N ∣ M) (hroom : q.length < N) (x : α) :
    Queue N M (update cells (w % N) x) r ((w + 1) % M) (q ++ [x]) :=
  (h.store hdvd hroom x).advance hdvd hroom (update_self ..)

/-- The newest element is in the cell before `w`. -/
theorem back (h : Queue N M cells r w (q ++ [x])) (hdvd : N ∣ M) : cells ((w + (M - 1)) % M % N) = x := by
  have hr := h.lt
  have hget := h.get q.length (by simp)
  rw [getElem_append_right le_rfl] at hget
  simp only [Nat.sub_self, getElem_cons_zero] at hget
  rw [← hget, h.eq, length_append, length_singleton, Nat.mod_add_mod,
    Nat.mod_mod_of_dvd _ hdvd, show r + (q.length + 1) + (M - 1) = r + q.length + M by omega]
  congr 1
  obtain ⟨c, rfl⟩ := hdvd
  exact Nat.add_mul_mod_self_left ..

/-- Moving `w` back takes the newest element out. -/
theorem unpush (h : Queue N M cells r w (q ++ [x])) : Queue N M cells r ((w + (M - 1)) % M) q := by
  have hr := h.lt
  have hle := h.le
  rw [length_append, length_singleton] at hle
  constructor
  · exact hr
  · rw [h.eq, length_append, length_singleton, Nat.mod_add_mod,
      show r + (q.length + 1) + (M - 1) = r + q.length + M by omega, Nat.add_mod_right]
  · omega
  · intro i hi
    have hget := h.get i (by rw [length_append]; omega)
    rwa [getElem_append_left hi] at hget

end Queue

/-- A step forward and a step back. -/
theorem step_back (h : r < M) : ((r + 1) % M + (M - 1)) % M = r := by
  rw [Nat.mod_add_mod, show r + 1 + (M - 1) = r + M by omega, Nat.add_mod_right]
  exact Nat.mod_eq_of_lt h

end Ring
