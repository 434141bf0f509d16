/-
  THE LINKED LIST OF THE BUFFER CACHE (`kernel/bio.c`).

  `Xv6.Bio` keeps the order of the buffers as a list.  The code keeps it in the `next` and `prev`
  fields of the buffers, circularly through `bcache.head`; here `binit`, `bget` and `brelse` are
  written on these fields, statement by statement, and shown to do to the list what `Bcache` does
  (`Inv.bget_eq`, `Inv.brelse`).  `brelse` may be called on ANY buffer: that the caller holds its sleep
  lock is not needed.

  `released` is a ghost that nothing reads: the buffers in the order in which `brelse` dropped their
  count to 0, the latest first.  Position in it is how long ago a buffer was last released.
-/
import Xv6.Bio
import Xv6.Lib.Links

namespace Xv6

open Function List Option

/-- `bcache` as it lies in memory. -/
structure LinkedCache where
  buf : Nat → Buf
  links : Links Nat
  released : List Nat

namespace LinkedCache

/-! ## The code -/

/-- `&bcache.head`, behind the buffers. -/
def HEAD : Nat := NBUF

/-- A null pointer. -/
def NULL : Nat := NBUF + 1

/-- The list `binit` starts from: `head` alone, in zeroed memory. -/
def emptyList : Links Nat :=
  ((⟨fun _ => NULL, fun _ => NULL⟩ : Links Nat).setPrev HEAD HEAD).setNext HEAD HEAD

/-- `binit`. -/
def binit : LinkedCache where
  buf := fun _ => Buf.zero
  links := (List.range NBUF).foldl (fun k b => k.insertAfter HEAD b) emptyList
  released := []

/-- Change one buffer. -/
def upd (s : LinkedCache) (i : Nat) (f : Buf → Buf) : LinkedCache :=
  { s with buf := update s.buf i (f (s.buf i)) }

/-- `bget` up to its `release(&bcache.lock)`; `none` is `panic("bget: no buffers")`. -/
def bget (s : LinkedCache) (dev blockno : Nat) : Option (Nat × LinkedCache) :=
  match s.links.search HEAD (fun i => (s.buf i).dev == dev && (s.buf i).blockno == blockno)
      (NBUF + 1) (s.links.next HEAD) with
  | some i => some (i, s.upd i fun b => { b with refcnt := inc32 b.refcnt })
  | none =>
    match s.links.flip.search HEAD (fun i => (s.buf i).refcnt == 0) (NBUF + 1)
        (s.links.prev HEAD) with
    | some i => some (i, s.upd i fun b =>
        { b with dev := dev, blockno := blockno, valid := false, refcnt := 1 })
    | none => none

/-- `brelse` after its `releasesleep`. -/
def brelse (s : LinkedCache) (i : Nat) : LinkedCache :=
  let s := s.upd i fun b => { b with refcnt := dec32 b.refcnt }
  if (s.buf i).refcnt = 0 then
    -- no one is waiting for it
    { s with
      links := (s.links.unlink i).insertAfter HEAD i
      released := i :: s.released }
  else s

/-- A call of the cache. -/
inductive Call
  | bget (dev blockno : Nat)
  | brelse (i : Fin NBUF)

def step (s : LinkedCache) : Call → Option LinkedCache
  | .bget dev blockno => (s.bget dev blockno).map Prod.snd
  | .brelse i => some (s.brelse i)

/-- A sequence of calls, none of which panics. -/
def run (s : LinkedCache) : List Call → Option LinkedCache
  | [] => some s
  | c :: calls => (s.step c).bind fun s => s.run calls

/-! ## The invariant -/

variable {s s' : LinkedCache} {l : List Nat} {i j dev blockno : Nat}

/-- Buffer `i` was released after buffer `j` was, whenever that was. -/
def Fresher (released : List Nat) (i j : Nat) : Prop :=
  j ∈ released → released.idxOf i < released.idxOf j

/-- `l` is the list that starts at `head`. -/
structure Inv (s : LinkedCache) (l : List Nat) : Prop where
  path : s.links.Path HEAD l HEAD
  /-- It threads every buffer exactly once. -/
  perm : l.Perm (List.range NBUF)
  keys : ∀ i j, i < NBUF → j < NBUF → (s.buf i).dev ≠ 0 → (s.buf j).dev = (s.buf i).dev →
    (s.buf j).blockno = (s.buf i).blockno → i = j
  order : l.Pairwise (Fresher s.released)

namespace Inv

section

variable (h : s.Inv l)
include h

theorem mem : i ∈ l ↔ i < NBUF := by
  rw [h.perm.mem_iff, mem_range]

theorem length : l.length = NBUF := by
  rw [h.perm.length_eq, length_range]

theorem nodup : (HEAD :: l).Nodup :=
  nodup_cons.2 ⟨fun hm => lt_irrefl _ (h.mem.1 hm), h.perm.nodup_iff.2 nodup_range⟩

/-! ### `bget` -/

/-- The two loops run to their ends, and find what they find in the list. -/
theorem bget_eq (dev blockno : Nat) : s.bget dev blockno = ((⟨s.buf, l⟩ : Bcache).bgetRef dev blockno).map
      fun r => (r.1, { s with buf := r.2.buf }) := by
  have hfuel : l.length < NBUF + 1 := by rw [h.length]; exact Nat.lt_succ_self _
  have hhead := (nodup_cons.1 h.nodup).1
  have hfirst := h.path.search hhead (fun i => (s.buf i).dev == dev && (s.buf i).blockno == blockno) hfuel
  have hsecond : s.links.flip.search HEAD (fun i => (s.buf i).refcnt == 0) (NBUF + 1)
      (s.links.prev HEAD) = l.reverse.find? fun i => (s.buf i).refcnt == 0 :=
    h.path.flip.search (by simpa using hhead) _ (by simpa using hfuel)
  unfold bget
  rw [hfirst, hsecond, Bcache.bgetRef, Bcache.lookup, Bcache.victim]
  cases l.find? fun i => (s.buf i).dev == dev && (s.buf i).blockno == blockno with
  | some i => rfl
  | none =>
    cases l.reverse.find? fun i => (s.buf i).refcnt == 0 with
    | some i => rfl
    | none => rfl

/-- What `bget` can do: hit, recycle an unused buffer that no unused one has waited longer than, or
    find none unused. -/
theorem bget_cases (dev blockno : Nat) :
    (∃ i, i < NBUF ∧ (s.buf i).dev = dev ∧ (s.buf i).blockno = blockno ∧
      s.bget dev blockno = some (i, s.upd i fun b => { b with refcnt := inc32 b.refcnt })) ∨
    ((∀ i, i < NBUF → (s.buf i).dev = dev → (s.buf i).blockno ≠ blockno) ∧
      ((∃ i, i < NBUF ∧ (s.buf i).refcnt = 0 ∧ (∀ j, j < NBUF → (s.buf j).refcnt = 0 →
            s.released.idxOf j ≤ s.released.idxOf i) ∧
          s.bget dev blockno = some (i, s.upd i fun b =>
            { b with dev := dev, blockno := blockno, valid := false, refcnt := 1 })) ∨
        ((∀ i, i < NBUF → (s.buf i).refcnt ≠ 0) ∧ s.bget dev blockno = none))) := by
  rw [h.bget_eq, Bcache.bgetRef]
  cases hlook : (⟨s.buf, l⟩ : Bcache).lookup dev blockno with
  | some i =>
    have hfound := find?_some hlook
    simp only [Bool.and_eq_true, beq_iff_eq] at hfound
    exact .inl ⟨i, h.mem.1 (mem_of_find?_eq_some hlook), hfound.1, hfound.2, rfl⟩
  | none =>
    right
    have hmiss := find?_eq_none.1 hlook
    refine ⟨fun i hi hd hb => hmiss i (h.mem.2 hi) (by simp [hd, hb]), ?_⟩
    cases hvic : (⟨s.buf, l⟩ : Bcache).victim with
    | some i =>
      left
      -- the search runs from the far end, so every unused buffer stands before the one it finds
      obtain ⟨hz, u, v, hrev, hu⟩ := find?_eq_some_iff_append.1 hvic
      have hl : l = v.reverse ++ i :: u.reverse := by
        simpa using congrArg reverse hrev
      have hi : i < NBUF := h.mem.1 (by simp [hl])
      refine ⟨i, hi, by simpa using hz, fun j hj hjz => ?_, rfl⟩
      have hjl : j ∈ v.reverse ++ i :: u.reverse := hl ▸ h.mem.2 hj
      have hord := h.order
      rw [hl] at hord
      rcases mem_append.1 hjl with hjv | hjv
      · have hfresh := (pairwise_append.1 hord).2.2 j hjv i (by simp)
        by_cases hir : i ∈ s.released
        · exact Nat.le_of_lt (hfresh hir)
        · rw [idxOf_eq_length hir]
          exact idxOf_le_length
      · rcases mem_cons.1 hjv with rfl | hju
        · exact le_rfl
        · have := hu j (by simpa using hju)
          simp [hjz] at this
    | none =>
      right
      have hnone := find?_eq_none.1 hvic
      refine ⟨fun i hi hz => hnone i ?_ (by simp [hz]), rfl⟩
      simpa using h.mem.2 hi

/-- Counting does not move anything. -/
theorem recount (i : Nat) {f : Buf → Buf} (hdev : (f (s.buf i)).dev = (s.buf i).dev)
    (hblk : (f (s.buf i)).blockno = (s.buf i).blockno) : (s.upd i f).Inv l := by
  have hd : ∀ j, ((s.upd i f).buf j).dev = (s.buf j).dev := by
    intro j
    by_cases hj : j = i
    · subst hj
      simp [upd, hdev]
    · simp [upd, hj]
  have hb : ∀ j, ((s.upd i f).buf j).blockno = (s.buf j).blockno := by
    intro j
    by_cases hj : j = i
    · subst hj
      simp [upd, hblk]
    · simp [upd, hj]
  refine ⟨h.path, h.perm, ?_, h.order⟩
  simpa only [hd, hb] using h.keys

/-- Recycling a buffer for a block that is not cached keeps the names apart. -/
theorem recycle (i : Nat) {f : Buf → Buf} (hdev : (f (s.buf i)).dev = dev)
    (hblk : (f (s.buf i)).blockno = blockno)
    (hmiss : ∀ i, i < NBUF → (s.buf i).dev = dev → (s.buf i).blockno ≠ blockno) :
    (s.upd i f).Inv l := by
  have hself : (s.upd i f).buf i = f (s.buf i) := update_self ..
  have hne : ∀ {j}, j ≠ i → (s.upd i f).buf j = s.buf j := fun hj => update_of_ne hj ..
  refine ⟨h.path, h.perm, ?_, h.order⟩
  intro a b ha hb hda hd hk
  by_cases hai : a = i
  · grind
  · grind [Inv]

theorem bget {i : Nat} (hs : s.bget dev blockno = some (i, s')) : s'.Inv l := by
  rcases h.bget_cases dev blockno with ⟨j, _, _, _, hhit⟩ | ⟨hmiss, ⟨j, _, _, _, hvic⟩ | ⟨_, hnone⟩⟩
  · obtain ⟨rfl, rfl⟩ := Prod.mk.inj (some.inj (hhit.symm.trans hs))
    exact h.recount _ rfl rfl
  · obtain ⟨rfl, rfl⟩ := Prod.mk.inj (some.inj (hvic.symm.trans hs))
    exact h.recycle _ rfl rfl hmiss
  · rw [hnone] at hs
    exact absurd hs (by simp)

end

/-! ### `brelse` -/

/-- Releasing `i` now makes it the freshest, and changes the order of no others. -/
theorem fresher_release {released : List Nat} (h : l.Pairwise (Fresher released)) (hl : l.Nodup)
    (i : Nat) : (i :: l.erase i).Pairwise (Fresher (i :: released)) := by
  have hne : ∀ j ∈ l.erase i, i ≠ j := by
    rintro j hj rfl
    exact hl.not_mem_erase hj
  refine pairwise_cons.2 ⟨?_, ?_⟩
  · intro j hj _
    rw [idxOf_cons_self, idxOf_cons_ne _ (hne j hj)]
    exact Nat.succ_pos _
  · refine (h.sublist erase_sublist).imp_of_mem ?_
    intro a b ha hb hab hbr
    have hbr' : b ∈ released := (mem_cons.1 hbr).resolve_left (Ne.symm (hne b hb))
    rw [idxOf_cons_ne _ (hne a ha), idxOf_cons_ne _ (hne b hb)]
    exact Nat.succ_lt_succ (hab hbr')

/-- The pointer writes move the buffer to the front of the list, as `Bcache.bput` does. -/
theorem brelse (h : s.Inv l) (hi : i < NBUF) : (s.brelse i).Inv ((⟨s.buf, l⟩ : Bcache).bput i).lru ∧
      (s.brelse i).buf = ((⟨s.buf, l⟩ : Bcache).bput i).buf := by
  have hdec := h.recount i (f := fun b => { b with refcnt := dec32 b.refcnt }) rfl rfl
  have hmem := hdec.mem.2 hi
  unfold LinkedCache.brelse Bcache.bput
  by_cases hz : ((s.upd i fun b => { b with refcnt := dec32 b.refcnt }).buf i).refcnt = 0
  · have hz' : (((⟨s.buf, l⟩ : Bcache).upd i fun b => { b with refcnt := dec32 b.refcnt }).buf
        i).refcnt = 0 := hz
    rw [if_pos hz, if_pos hz']
    refine ⟨⟨hdec.path.moveToFront hdec.nodup hmem, ?_, hdec.keys, ?_⟩, rfl⟩
    · exact (perm_cons_erase hmem).symm.trans hdec.perm
    · exact fresher_release hdec.order (nodup_cons.1 hdec.nodup).2 i
  · have hz' : ¬ (((⟨s.buf, l⟩ : Bcache).upd i fun b => { b with refcnt := dec32 b.refcnt }).buf
        i).refcnt = 0 := hz
    rw [if_neg hz, if_neg hz']
    exact ⟨hdec, rfl⟩

/-! ### Runs -/

theorem step (h : s.Inv l) {c : Call} (hs : s.step c = some s') : ∃ l', s'.Inv l' := by
  cases c with
  | bget dev blockno =>
    obtain ⟨⟨i, t⟩, hget, rfl⟩ := map_eq_some_iff.1 hs
    exact ⟨l, h.bget hget⟩
  | brelse i =>
    obtain rfl := some.inj hs
    exact ⟨_, (h.brelse i.2).1⟩

theorem run (h : s.Inv l) {calls : List Call} (hs : s.run calls = some s') : ∃ l', s'.Inv l' := by
  induction calls generalizing s l with
  | nil =>
    obtain rfl := some.inj hs
    exact ⟨l, h⟩
  | cons c calls ih =>
    obtain ⟨t, ht, hrest⟩ := bind_eq_some_iff.1 hs
    obtain ⟨l', h'⟩ := h.step ht
    exact ih h' hrest

end Inv

/-- `binit` pushes the buffers one by one at the front. -/
theorem binit_path (n : Nat) (hn : n ≤ NBUF) :
    ((range n).foldl (fun k b => k.insertAfter HEAD b) emptyList).Path HEAD (range n).reverse HEAD := by
  induction n with
  | zero => exact ⟨rfl, rfl⟩
  | succ n ih =>
    have hlt : ∀ x ∈ (range n).reverse, x < n := by simp
    have hhead : HEAD ∉ (range n).reverse := fun hm => by
      have := hlt _ hm
      simp only [HEAD] at this
      omega
    rw [range_succ, foldl_concat, reverse_concat]
    refine (ih (by omega)).insertAfter ?_ ?_ ?_ hhead
    · grind [HEAD]
    · simp only [HEAD]
      omega
    · exact nodup_cons.2 ⟨hhead, (reverse_perm _).nodup_iff.2 nodup_range⟩

theorem binit_inv : binit.Inv (range NBUF).reverse where
  path := binit_path NBUF le_rfl
  perm := reverse_perm _
  keys := fun _ _ _ _ hd => absurd rfl hd
  order := pairwise_of_forall fun _ _ hm => absurd hm not_mem_nil

/-! ## The list after any sequence of calls -/

/-- After any sequence of calls the list from `head` threads the `NBUF` buffers once each and comes
    back, `prev` and `next` are inverse, no block of a real device is cached twice, and the buffers
    stand in the order of their latest release.  So `bget` fails only when no buffer is unused, and
    what it recycles is an unused buffer released no later than any other. -/
theorem lru_list {calls : List Call} (h : binit.run calls = some s) :
    (s.links.visits HEAD NBUF).Perm (List.range NBUF) ∧
    s.links.next^[NBUF + 1] HEAD = HEAD ∧
    (∀ x, x ≤ NBUF → s.links.prev (s.links.next x) = x ∧ s.links.next (s.links.prev x) = x) ∧
    (∀ i j, i < NBUF → j < NBUF → (s.buf i).dev ≠ 0 → (s.buf j).dev = (s.buf i).dev →
      (s.buf j).blockno = (s.buf i).blockno → i = j) ∧
    (s.links.visits HEAD NBUF).Pairwise
      (fun i j => j ∈ s.released → s.released.idxOf i < s.released.idxOf j) ∧
    (∀ dev blockno, s.bget dev blockno = none → ∀ i, i < NBUF → (s.buf i).refcnt ≠ 0) ∧
    (∀ dev blockno i s', s.bget dev blockno = some (i, s') →
      (∀ j, j < NBUF → (s.buf j).dev = dev → (s.buf j).blockno ≠ blockno) →
      i < NBUF ∧ (s.buf i).refcnt = 0 ∧
      ∀ j, j < NBUF → (s.buf j).refcnt = 0 → s.released.idxOf j ≤ s.released.idxOf i) := by
  obtain ⟨l, hinv⟩ := binit_inv.run h
  have hvis := hinv.path.visits
  rw [hinv.length] at hvis
  rw [hvis.1]
  refine ⟨hinv.perm, hvis.2, ?_, hinv.keys, hinv.order, ?_, ?_⟩
  · intro x hx
    have hmem : x ∈ HEAD :: l := by
      rcases Nat.lt_or_eq_of_le hx with hlt | rfl
      · exact mem_cons_of_mem _ (hinv.mem.2 hlt)
      · exact mem_cons_self
    exact ⟨hinv.path.prev_next hmem, hinv.path.next_prev hmem⟩
  · intro dev blockno hnone
    rcases hinv.bget_cases dev blockno with ⟨i, _, _, _, hs⟩ | ⟨_, ⟨i, _, _, _, hs⟩ | ⟨hall, _⟩⟩
    · exact absurd (hs.symm.trans hnone) (by simp)
    · exact absurd (hs.symm.trans hnone) (by simp)
    · exact hall
  · intro dev blockno i s' hs hmiss
    rcases hinv.bget_cases dev blockno with ⟨j, hj, hd, hb, _⟩ | ⟨_, ⟨j, hj, hz, hold, hv⟩ | ⟨_, hn⟩⟩
    · exact absurd hb (hmiss j hj hd)
    · obtain ⟨rfl, _⟩ := Prod.mk.inj (some.inj (hv.symm.trans hs))
      exact ⟨hj, hz, hold⟩
    · exact absurd (hn.symm.trans hs) (by simp)

/-- Two blocks are read and released: their buffers are at the front, the later one first. -/
theorem lru_list_two :
    ∃ s, binit.run [.bget 1 5, .bget 1 6, .brelse ⟨0, by decide⟩, .brelse ⟨1, by decide⟩] = some s ∧
      s.released = [1, 0] ∧ (s.links.visits HEAD NBUF).Perm (List.range NBUF) := by
  have hsome : (binit.run [.bget 1 5, .bget 1 6, .brelse ⟨0, by decide⟩, .brelse ⟨1, by decide⟩]).map (·.released)
      = some [1, 0] := by decide +kernel
  obtain ⟨s, hs, hrel⟩ := map_eq_some_iff.1 hsome
  exact ⟨s, hs, hrel, (lru_list hs).1⟩

end LinkedCache

end Xv6
