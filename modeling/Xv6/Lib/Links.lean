/-
  CIRCULAR DOUBLY LINKED LISTS WITH A SENTINEL.

  `Links α` is the two pointer fields of a pool of nodes.  `Path a l b` says that following `next`
  from `a` meets exactly the nodes `l` and then `b`, and that `prev` undoes every one of these
  steps; a list with sentinel `h` is a `Path h l h`.

  The two operations are the usual statement sequences on the fields: `unlink b` (the two writes that
  bypass `b`) and `insertAfter h b` (the four writes that put `b` behind `h`).  Each is ONE lemma on
  `Path`, aliasing included: the neighbours of `b` may be the sentinel, or each other.  `search` is
  the loop `for (x = …; x != h; x = x->next)` with a fuel; on a `Path` it is `List.find?`, and the
  loop through `prev` is the same loop on `flip`, i.e. `find?` on the reversed list.
-/
import Mathlib.Logic.Function.Iterate
import Mathlib.Data.List.Basic

/-- The `next` and `prev` fields of a pool of nodes. -/
structure Links (α : Type) where
  next : α → α
  prev : α → α

namespace Links

open Function List

variable {α : Type} {k k' : Links α} {a b c h x : α} {l r : List α}

/-! ## Paths -/

/-- From `a`, `next` meets `l` and then `b`; `prev` leads back. -/
def Path (k : Links α) : α → List α → α → Prop
  | a, [], b => k.next a = b ∧ k.prev b = a
  | a, x :: l, b => k.next a = x ∧ k.prev x = a ∧ k.Path x l b

/-- The list read through `prev`. -/
def flip (k : Links α) : Links α := ⟨k.prev, k.next⟩

theorem path_append (l r : List α) (a x b : α) :
    k.Path a (l ++ x :: r) b ↔ k.Path a l x ∧ k.Path x r b := by
  induction l generalizing a with
  | nil => exact and_assoc.symm
  | cons y l ih =>
    have h := ih y
    constructor
    · rintro ⟨hn, hp, hrest⟩
      exact ⟨⟨hn, hp, (h.1 hrest).1⟩, (h.1 hrest).2⟩
    · rintro ⟨⟨hn, hp, hl⟩, hr⟩
      exact ⟨hn, hp, h.2 ⟨hl, hr⟩⟩

/-- A path depends on `next` of its start and its nodes, and on `prev` of its nodes and its end. -/
theorem Path.congr (h : k.Path a l b) (hnext : ∀ x ∈ a :: l, k'.next x = k.next x)
    (hprev : ∀ x ∈ l ++ [b], k'.prev x = k.prev x) : k'.Path a l b := by
  induction l generalizing a with
  | nil => exact ⟨(hnext a (by simp)).trans h.1, (hprev b (by simp)).trans h.2⟩
  | cons y l ih =>
    obtain ⟨hn, hp, hrest⟩ := h
    refine ⟨(hnext a (by simp)).trans hn, (hprev y (by simp)).trans hp, ih hrest ?_ ?_⟩
    · intro x hx
      exact hnext x (mem_cons_of_mem a hx)
    · intro x hx
      exact hprev x (by simpa using .inr (by simpa using hx))

/-- The same nodes hung under another start: only the first link changes. -/
theorem Path.reroot (h : k.Path a l b) (hn : k'.next c = k.next a) (hp : k'.prev (k.next a) = c)
    (hnext : ∀ x ∈ l, k'.next x = k.next x)
    (hprev : ∀ x ∈ l ++ [b], x ≠ k.next a → k'.prev x = k.prev x)
    (hnd : l.Nodup) (hb : b ∉ l) : k'.Path c l b := by
  cases l with
  | nil =>
    obtain ⟨hab, _⟩ := h
    exact ⟨hn.trans hab, hab ▸ hp⟩
  | cons y l =>
    obtain ⟨hy, _, hrest⟩ := h
    subst hy
    refine ⟨hn, hp, hrest.congr hnext ?_⟩
    intro x hx
    refine hprev x (mem_cons_of_mem _ hx) ?_
    rintro rfl
    rcases mem_append.1 hx with hxl | hxb
    · exact (nodup_cons.1 hnd).1 hxl
    · exact hb (by simp [mem_singleton.1 hxb])

theorem Path.flip (h : k.Path a l b) : k.flip.Path b l.reverse a := by
  induction l generalizing a with
  | nil => exact ⟨h.2, h.1⟩
  | cons y l ih =>
    obtain ⟨hn, hp, hrest⟩ := h
    rw [reverse_cons]
    exact (path_append _ [] b y a).2 ⟨ih hrest, hp, hn⟩

theorem Path.next_mem (h : k.Path a l b) : k.next a ∈ l ++ [b] := by
  cases l with
  | nil => simp [h.1]
  | cons y l => simp [h.1]

theorem Path.prev_mem (h : k.Path a l b) : k.prev b ∈ a :: l := by
  have := h.flip.next_mem
  simpa [Links.flip, or_comm] using this

/-- `prev` undoes `next` along a path … -/
theorem Path.prev_next (h : k.Path a l b) (hx : x ∈ a :: l) : k.prev (k.next x) = x := by
  induction l generalizing a with
  | nil =>
    obtain rfl : x = a := by simpa using hx
    rw [h.1, h.2]
  | cons y l ih =>
    obtain ⟨hn, hp, hrest⟩ := h
    rcases mem_cons.1 hx with rfl | hx
    · rw [hn, hp]
    · exact ih hrest hx

/-- … and `next` undoes `prev`. -/
theorem Path.next_prev (h : k.Path a l b) (hx : x ∈ b :: l) : k.next (k.prev x) = x :=
  h.flip.prev_next (by simpa using hx)

/-- The nodes met by following `next` from `h`, `n` times. -/
def visits (k : Links α) (h : α) (n : Nat) : List α := (List.range n).map fun i => k.next^[i + 1] h

theorem visits_succ (k : Links α) (h : α) (n : Nat) :
    k.visits h (n + 1) = k.next h :: k.visits (k.next h) n := by
  simp only [visits, range_succ_eq_map, map_cons, map_map]
  rfl

/-- Along a path the nodes met are the path's, and the next one is its end. -/
theorem Path.visits (h : k.Path a l b) : k.visits a l.length = l ∧ k.next^[l.length + 1] a = b := by
  induction l generalizing a with
  | nil => exact ⟨rfl, h.1⟩
  | cons y l ih =>
    obtain ⟨rfl, _, hrest⟩ := h
    obtain ⟨hvis, hend⟩ := ih hrest
    exact ⟨by rw [length_cons, visits_succ, hvis], hend⟩

/-! ## Searching -/

/-- `for (x = …; x != h; x = x->next) if (p(x)) return x;` -/
def search (k : Links α) [DecidableEq α] (h : α) (p : α → Bool) : Nat → α → Option α
  | 0, _ => none
  | n + 1, x => if x = h then none else if p x then some x else k.search h p n (k.next x)

/-- On a path to `h` the loop ends, and is `find?`. -/
theorem Path.search [DecidableEq α] (hpath : k.Path a l h) (hl : h ∉ l) (p : α → Bool) {n : Nat}
    (hn : l.length < n) : k.search h p n (k.next a) = l.find? p := by
  induction l generalizing a n with
  | nil =>
    obtain ⟨n, rfl⟩ := Nat.exists_eq_succ_of_ne_zero (by omega : n ≠ 0)
    rw [hpath.1, Links.search, if_pos rfl, find?_nil]
  | cons y l ih =>
    obtain ⟨n, rfl⟩ := Nat.exists_eq_succ_of_ne_zero (by omega : n ≠ 0)
    obtain ⟨rfl, _, hrest⟩ := hpath
    have hne : k.next a ≠ h := fun e => hl (by simp [e])
    have hrec := ih hrest (fun hm => hl (mem_cons_of_mem _ hm)) (n := n) (by simpa using hn)
    rw [Links.search, if_neg hne, find?_cons, hrec]
    cases p (k.next a) <;> rfl

/-! ## Taking a node out and putting one in -/

section Ops

variable [DecidableEq α]

/-- `a->next = b`. -/
def setNext (k : Links α) (a b : α) : Links α := { k with next := update k.next a b }

/-- `a->prev = b`. -/
def setPrev (k : Links α) (a b : α) : Links α := { k with prev := update k.prev a b }

/-- `b->next->prev = b->prev; b->prev->next = b->next;` -/
def unlink (k : Links α) (b : α) : Links α :=
  let k := k.setPrev (k.next b) (k.prev b)
  k.setNext (k.prev b) (k.next b)

/-- `b->next = h->next; b->prev = h; h->next->prev = b; h->next = b;` -/
def insertAfter (k : Links α) (h b : α) : Links α :=
  let k := k.setNext b (k.next h)
  let k := k.setPrev b h
  let k := k.setPrev (k.next h) b
  k.setNext h b

theorem unlink_next (hself : k.next b ≠ b) : (k.unlink b).next = update k.next (k.prev b) (k.next b) := by
  simp only [unlink, setNext, setPrev, update_of_ne hself.symm]

theorem unlink_prev : (k.unlink b).prev = update k.prev (k.next b) (k.prev b) := rfl

theorem insertAfter_next : (k.insertAfter h b).next = update (update k.next b (k.next h)) h b := by
  simp only [insertAfter, setNext, setPrev]

theorem insertAfter_prev (hne : h ≠ b) :
    (k.insertAfter h b).prev = update (update k.prev b h) (k.next h) b := by
  simp only [insertAfter, setNext, setPrev, update_of_ne hne]

/-- `unlink` bypasses the node between two stretches.  Induction on the first stretch: only its last
    link is written, and the second stretch hangs under what `prev b` was. -/
theorem Path.unlink (hl : k.Path a l b) (hr : k.Path b r c) (hnd : (a :: (l ++ b :: r)).Nodup)
    (hc : c ∉ l ++ b :: r) : (k.unlink b).Path a (l ++ r) c := by
  have hnext := hr.next_mem
  have hself : k.next b ≠ b := by grind
  induction l generalizing a with
  | nil =>
    obtain ⟨hab, hba⟩ := hl
    have hr' : r.Nodup := (nodup_cons.1 (nodup_cons.1 hnd).2).2
    refine hr.reroot ?_ ?_ ?_ ?_ hr' (fun hm => hc (by simp [hm]))
    · rw [unlink_next hself, hba, update_self]
    · rw [unlink_prev, hba, update_self]
    · intro x hx
      have hxa : x ≠ a := by
        rintro rfl
        exact (nodup_cons.1 hnd).1 (by simp [hx])
      rw [unlink_next hself, hba, update_of_ne hxa]
    · intro x _ hxn
      rw [unlink_prev, update_of_ne hxn]
  | cons y l ih =>
    obtain ⟨hay, hya, hrest⟩ := hl
    obtain ⟨ha, hnd'⟩ := nodup_cons.1 hnd
    have hpa : a ≠ k.prev b := by
      intro e
      have := hrest.prev_mem
      rw [← e] at this
      exact ha (by simpa using by have := mem_cons.1 this; tauto)
    have hny : y ≠ k.next b := by grind
    refine ⟨?_, ?_, ih hrest hnd' (fun hm => hc (mem_cons_of_mem _ hm))⟩
    · rw [unlink_next hself, update_of_ne hpa, hay]
    · rw [unlink_prev, update_of_ne hny, hya]

/-- `insertAfter` puts a new node in front of a path. -/
theorem Path.insertAfter (hpath : k.Path h l c) (hb : b ∉ h :: l) (hbc : b ≠ c)
    (hnd : (h :: l).Nodup) (hc : c ∉ l) : (k.insertAfter h b).Path h (b :: l) c := by
  have hhb : h ≠ b := fun e => hb (by simp [e])
  have hnb : k.next h ≠ b := by
    intro e
    have := hpath.next_mem
    rw [e] at this
    rcases mem_append.1 this with hm | hm
    · exact hb (mem_cons_of_mem _ hm)
    · exact hbc (mem_singleton.1 hm)
  obtain ⟨hh, hl⟩ := nodup_cons.1 hnd
  refine ⟨?_, ?_, hpath.reroot ?_ ?_ ?_ ?_ hl hc⟩
  · rw [insertAfter_next, update_self]
  · rw [insertAfter_prev hhb, update_of_ne hnb.symm, update_self]
  · rw [insertAfter_next, update_of_ne hhb.symm, update_self]
  · rw [insertAfter_prev hhb, update_self]
  · intro x hx
    have hxh : x ≠ h := fun e => hh (e ▸ hx)
    have hxb : x ≠ b := fun e => hb (mem_cons_of_mem _ (e ▸ hx))
    rw [insertAfter_next, update_of_ne hxh, update_of_ne hxb]
  · intro x hx hxn
    have hxb : x ≠ b := by grind
    rw [insertAfter_prev hhb, update_of_ne hxn, update_of_ne hxb]

/-- Unlinking a node of a list and putting it behind the sentinel moves it to the front. -/
theorem Path.moveToFront (hpath : k.Path h l h) (hnd : (h :: l).Nodup) (hb : b ∈ l) :
    ((k.unlink b).insertAfter h b).Path h (b :: l.erase b) h := by
  obtain ⟨hh, hl⟩ := nodup_cons.1 hnd
  obtain ⟨u, v, hu, rfl, hv⟩ := exists_erase_eq hb
  rw [hv]
  obtain ⟨hbu, hbv⟩ := (path_append u v h b h).1 hpath
  have hsub : (h :: (u ++ v)).Sublist (h :: (u ++ b :: v)) :=
    ((sublist_cons_self b v).append_left u).cons_cons h
  refine (hbu.unlink hbv hnd hh).insertAfter ?_ ?_ (hnd.sublist hsub) ?_
  · grind
  · rintro rfl
    exact hh (by simp)
  · intro hm
    exact hh (((sublist_cons_self b v).append_left u).subset hm)

end Ops

end Links
