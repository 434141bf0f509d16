/-
  CIRCULAR SINGLY LINKED LISTS.

  `Linked next l e`: every node of `l` points to the one behind it, and the last one to `e`.  A list
  is a RING if the last one points to the first.  A ring may be entered anywhere: `Linked.rotate`
  turns the list so that it starts at a given node, after which a walk around the ring is a walk
  along a list (`walk_finds`).
-/
import Mathlib.Data.List.Rotate
import Mathlib.Logic.Function.Iterate

namespace Chain

open Function List

variable {α ε : Type} {next next' : α → α} {l r : List α} {a x e : α}

/-- Each node points to the one behind it, the last one to `e`. -/
def Linked (next : α → α) : List α → α → Prop
  | [], _ => True
  | a :: l, e => next a = l.headD e ∧ Linked next l e

theorem linked_append : Linked next (l ++ r) e ↔ Linked next l (r.headD e) ∧ Linked next r e := by
  induction l with
  | nil => exact ⟨fun h => ⟨trivial, h⟩, fun h => h.2⟩
  | cons a l ih =>
    grind [Linked]

theorem Linked.congr (h : Linked next l e) (hn : ∀ x ∈ l, next' x = next x) : Linked next' l e := by
  induction l with
  | nil => trivial
  | cons a l ih =>
    exact ⟨(hn a mem_cons_self).trans h.1, ih h.2 fun x hx => hn x (mem_cons_of_mem a hx)⟩

/-- The node behind a node of the list is in the list, or is its end. -/
theorem Linked.next_mem (h : Linked next l e) (hx : x ∈ l) : next x ∈ l ∨ next x = e := by
  obtain ⟨u, v, rfl⟩ := append_of_mem hx
  have hnext := (linked_append.1 h).2.1
  cases v with
  | nil => exact .inr hnext
  | cons y v => exact .inl (by rw [hnext]; simp)

/-- A ring read from another of its nodes. -/
theorem Linked.rotate {u v : List α} (h : Linked next (u ++ x :: v) e) (he : (u ++ x :: v).headD x = e) :
    Linked next (x :: (v ++ u)) x := by
  obtain ⟨hu, hx⟩ := linked_append.1 h
  have hend : u.headD x = e := by cases u <;> simpa using he
  exact (linked_append (l := x :: v)).2 ⟨by rwa [hend], hu⟩

/-- Following `next` from the first node of a ring meets its nodes in order, and comes back. -/
theorem Linked.visits (h : Linked next (a :: l) e) :
    (range (l.length + 1)).map (fun i => next^[i] a) = a :: l ∧ next^[l.length + 1] a = e := by
  induction l generalizing a with
  | nil => exact ⟨rfl, h.1⟩
  | cons b l ih =>
    obtain ⟨hab, hrest⟩ := h
    have hb : next a = b := hab
    obtain ⟨hvis, hend⟩ := ih hrest
    constructor
    · rw [length_cons, range_succ_eq_map, map_cons, map_map, ← hvis]
      simp only [comp_def, iterate_succ_apply, iterate_zero_apply, hb]
    · rw [length_cons, iterate_succ_apply, hb]
      exact hend

/-- `for (p = …; !stop(p, p->next); p = p->next)`, with a fuel. -/
def walk (next : α → Except ε α) (stop : α → α → Bool) (out : ε) : Nat → α → Except ε α
  | 0, _ => .error out
  | n + 1, p => do
    let q ← next p
    if stop p q then pure p else walk next stop out n q

/-- More fuel does not change where it ends. -/
theorem walk_mono {read : α → Except ε α} {stop : α → α → Bool} {o : ε} {n m : Nat}
    (h : walk read stop o n a = .ok x) (hnm : n ≤ m) : walk read stop o m a = .ok x := by
  induction n generalizing a m with
  | zero => exact absurd h (by simp [walk])
  | succ n ih =>
    obtain ⟨m, rfl⟩ := Nat.exists_eq_succ_of_ne_zero (by omega : m ≠ 0)
    rw [walk] at h ⊢
    cases hr : read a with
    | error e =>
      rw [hr] at h
      exact absurd h (by simp [bind, Except.bind])
    | ok q =>
      rw [hr] at h
      have h' : (if stop a q then pure a else walk read stop o n q) = Except.ok x := h
      show (if stop a q then pure a else walk read stop o m q) = Except.ok x
      by_cases hs : stop a q
      · rw [if_pos hs] at h' ⊢
        exact h'
      · rw [if_neg hs] at h' ⊢
        exact ih h' (by omega)

/-- Along a list on which the links can be read, the walk ends at a node where it should. -/
theorem walk_finds {read : α → Except ε α} {stop : α → α → Bool} {o : ε} {n : Nat}
    (h : Linked next (a :: l) e) (hread : ∀ x ∈ a :: l, read x = .ok (next x))
    (hstop : ∃ x ∈ a :: l, stop x (next x)) (hn : l.length < n) :
    ∃ x ∈ a :: l, stop x (next x) ∧ walk read stop o n a = .ok x := by
  induction l generalizing a n with
  | nil =>
    obtain ⟨n, rfl⟩ := Nat.exists_eq_succ_of_ne_zero (by omega : n ≠ 0)
    obtain ⟨x, hx, hs⟩ := hstop
    obtain rfl := mem_singleton.1 hx
    refine ⟨x, hx, hs, ?_⟩
    rw [walk, hread x hx]
    exact if_pos hs
  | cons b l ih =>
    obtain ⟨n, rfl⟩ := Nat.exists_eq_succ_of_ne_zero (by omega : n ≠ 0)
    have hwalk : walk read stop o (n + 1) a =
        if stop a (next a) then .ok a else walk read stop o n (next a) := by
      rw [walk, hread a mem_cons_self]
      rfl
    by_cases hs : stop a (next a)
    · exact ⟨a, mem_cons_self, hs, by rw [hwalk, if_pos hs]⟩
    · obtain ⟨hab, hrest⟩ := h
      have hb : next a = b := hab
      obtain ⟨x, hx, hxs⟩ := hstop
      have hxl : x ∈ b :: l := (mem_cons.1 hx).resolve_left fun e => hs (e ▸ hxs)
      obtain ⟨y, hy, hys, hw⟩ := ih hrest (fun z hz => hread z (mem_cons_of_mem a hz))
        ⟨x, hxl, hxs⟩ (n := n) (by simpa using hn)
      refine ⟨y, mem_cons_of_mem a hy, hys, ?_⟩
      rw [hwalk, if_neg hs, hb]
      exact hw

end Chain
