/-
  WHERE A PAGE IS, AND WHAT A PAGE TABLE IS.

  Every page gets a LABEL, the place it is in: on the free list, a node or a leaf of a page table, or in
  the hands of a function that works on one.  A label is one place, so that no page can be in two; what
  has to be proved is that the memory agrees with the labels.

  `Heap` says that the free list does.  `Table` says it of one page table: entry `i` of the page for
  `(l + 1, q)` points to the page for `(l, 512 * q + i)` or is 0, where level `l` node `x` is the page
  whose entries translate the virtual pages `v` with `v / 512 ^ (l + 1) = x`.  At level 0 the entries
  are a map from virtual pages to PTEs.  Nodes that have a label are reachable (`up`), and leaves are
  too (`back`).

  `Frame t` is what the functions of `vm.c` may do when they work on the table of `t`: take free pages,
  and touch pages of that table.  No other table changes then (`Table.frame`).
-/
import Mathlib.Data.Nat.Bitwise
import Xv6.Vm.Pages

namespace Xv6.Vm

open Function Prog Machine Vcode

variable {L : Layout} {a b i m p pa pt w : Nat} {s s' s1 : St}

/-! ## PTEs -/

theorem PTE2PA_eq (w : Nat) : PTE2PA w = w / 1024 * 4096 := by
  unfold PTE2PA
  rw [Nat.shiftRight_eq_div_pow, Nat.shiftLeft_eq]

theorem PA2PTE_eq (pa : Nat) : PA2PTE pa = pa / 4096 * 1024 := by
  unfold PA2PTE
  rw [Nat.shiftRight_eq_div_pow, Nat.shiftLeft_eq]

theorem or_flags (a : Nat) {f : Nat} (hf : f < 1024) : a * 1024 ||| f = a * 1024 + f := by
  rw [Nat.mul_comm]
  exact (Nat.two_pow_add_eq_or_of_lt (i := 10) hf a).symm

/-- Flags are in the low ten bits. -/
theorem and_low (w : Nat) (hm : m < 1024) : w &&& m = (w % 1024) &&& m := by
  have h : 1023 &&& m = m := by
    rw [Nat.and_comm, Nat.and_two_pow_sub_one_eq_mod m 10, Nat.mod_eq_of_lt hm]
  rw [← h, ← Nat.and_assoc, Nat.and_two_pow_sub_one_eq_mod w 10, ← Nat.and_assoc,
    Nat.and_two_pow_sub_one_eq_mod _ 10, Nat.mod_mod]

/-- The nine bits of one level are a digit to base 512. -/
theorem PX_eq (level va : Nat) : PX level va = va / 4096 / 512 ^ level % 512 := by
  unfold PX
  rw [Nat.shiftRight_eq_div_pow, show (0x1FF : Nat) = 2 ^ 9 - 1 from rfl,
    Nat.and_two_pow_sub_one_eq_mod, Nat.pow_add, Nat.pow_mul, ← Nat.div_div_eq_div_mul]

/-- The PTE that `mappages` stores. -/
def mkPte (pa perm : Nat) : Nat := PA2PTE pa ||| perm ||| PTE_V

/-- Address and flags do not meet. -/
theorem mkPte_eq (pa : Nat) {perm : Nat} (hp : perm < 1024) :
    mkPte pa perm = pa / 4096 * 1024 + (perm ||| 1) ∧ perm ||| 1 < 1024 := by
  have hlt : perm ||| 1 < 1024 := Nat.or_lt_two_pow (n := 10) hp (by decide)
  refine ⟨?_, hlt⟩
  unfold mkPte PTE_V
  rw [Nat.or_assoc, PA2PTE_eq, or_flags _ hlt]

/-- An entry points to its page. -/
theorem PTE2PA_mkPte {perm : Nat} (hpa : pa % PGSIZE = 0) (hp : perm < 1024) :
    PTE2PA (mkPte pa perm) = pa := by
  obtain ⟨heq, hlt⟩ := mkPte_eq pa hp
  unfold PGSIZE at hpa
  rw [PTE2PA_eq, heq]
  omega

theorem mkPte_and {perm : Nat} (hp : perm < 1024) (hm : m < 1024) :
    mkPte pa perm &&& m = (perm ||| 1) &&& m := by
  obtain ⟨heq, hlt⟩ := mkPte_eq pa hp
  rw [and_low _ hm, heq, show (pa / 4096 * 1024 + (perm ||| 1)) % 1024 = perm ||| 1 by omega]

theorem mkPte_valid {perm : Nat} (hp : perm < 1024) : mkPte pa perm &&& PTE_V ≠ 0 := by
  rw [mkPte_and hp (by decide), Nat.and_or_distrib_right]
  intro h
  have : (1 &&& 1 : Nat) = 0 := (Nat.or_eq_zero_iff.mp h).2
  cases this

/-- `PTE_R | PTE_W | PTE_X`. -/
def RWX : Nat := PTE_R ||| PTE_W ||| PTE_X

/-- A valid PTE that is not a pointer to another table. -/
def IsLeaf (w : Nat) : Prop := w &&& PTE_V ≠ 0 ∧ w &&& RWX ≠ 0

instance (w : Nat) : Decidable (IsLeaf w) := inferInstanceAs (Decidable (_ ∧ _))

theorem IsLeaf.ne_zero (h : IsLeaf w) : w ≠ 0 := by
  rintro rfl
  exact h.1 (Nat.zero_and _)

theorem IsLeaf.flags (h : IsLeaf w) : PTE_FLAGS w ≠ PTE_V := by
  intro hf
  refine h.2 ?_
  unfold PTE_FLAGS at hf
  rw [show (0x3FF : Nat) = 2 ^ 10 - 1 from rfl, Nat.and_two_pow_sub_one_eq_mod] at hf
  rw [and_low w (show RWX < 1024 by decide), show w % 1024 = 1 from hf]
  rfl

/-- With a permission it is a leaf, ... -/
theorem isLeaf_mkPte (pa : Nat) {perm : Nat} (hp : perm < 1024) (hrwx : perm &&& RWX ≠ 0) :
    IsLeaf (mkPte pa perm) := by
  refine ⟨mkPte_valid hp, ?_⟩
  rw [mkPte_and hp (show RWX < 1024 by decide), Nat.and_or_distrib_right]
  intro h
  exact hrwx (Nat.or_eq_zero_iff.mp h).1

/-- The PTE that points to a page-table page. -/
def dirPte (b : Nat) : Nat := PA2PTE b ||| PTE_V

theorem dirPte_eq (b : Nat) : dirPte b = mkPte b 0 := by
  unfold dirPte mkPte
  rw [Nat.or_zero]

theorem PTE2PA_dirPte (hb : b % PGSIZE = 0) : PTE2PA (dirPte b) = b := by
  rw [dirPte_eq]
  exact PTE2PA_mkPte hb (by decide)

theorem dirPte_valid (b : Nat) : dirPte b &&& PTE_V ≠ 0 := by
  rw [dirPte_eq]
  exact mkPte_valid (by decide)

/-- ... and without one a directory entry. -/
theorem dirPte_rwx (b : Nat) : dirPte b &&& RWX = 0 := by
  rw [dirPte_eq, mkPte_and (by decide) (by decide)]
  rfl

theorem dirPte_ne (b : Nat) : dirPte b ≠ 0 := by
  intro h
  exact dirPte_valid b (by rw [h]; rfl)

/-! ## Labels -/

/-- Whose page table it is. -/
inductive Owner
  | proc (p : Nat)
deriving DecidableEq, Repr

/-- Where a page is. -/
inductive Place
  | outside
  | free
  | node (t : Owner) (l x : Nat)
  | leaf (t : Owner) (v : Nat)
  /-- in a local variable of a function that works on `t`'s table -/
  | held (t : Owner)
deriving DecidableEq, Repr

/-- The places that work on the table of `t` may change. -/
def Place.Of (t : Owner) : Place → Prop
  | free => True
  | node t' _ _ | leaf t' _ | held t' => t' = t
  | outside => False

variable {own' own1 : Nat → Place} {t : Owner}

/-- The allocator's list agrees with the labels. -/
structure Heap (L : Layout) (own : Nat → Place) (s : St) : Prop where
  page : ∀ a, own a ≠ .outside ↔ L.Page a
  free : ∀ a, a ∈ s.freelist ↔ own a = .free
  nodup : s.freelist.Nodup

/-! ## What the calls do -/

/-- Every way a call may come back; `may` is whether `kalloc` may return 0. -/
def Step (may : Prop) : (o : Vcall) → St → o.Res → St → Prop
  | .kalloc, s, r, s' => (may ∧ r = (0 : Nat) ∧ s' = s) ∨
      ∃ (pa : Nat) (rest : List Nat), r = pa ∧ s.freelist = pa :: rest ∧ s' = s.take pa rest
  | .kfree pa, s, _, s' => s' = s.give pa
  | .load pt i, s, r, s' => r = s.word pt i ∧ s' = s
  | .store pt i w, s, _, s' => s' = s.store pt i w
  | .memset pa w, s, _, s' => s' = s.fill pa w
  | .patch pa f, s, _, s' => s' = s.patch pa f
  | .bytes pa, s, r, s' => r = Words.bytes (s.word pa) ∧ s' = s
  | .mem p, s, r, s' => r = s.mem p ∧ s' = s
  | .setMem p x, s, _, s' => s' = s.setMem p x
  | .fail _, _, _, _ => True

/-- What the caller has to see to.  `ok` are the failures that are allowed. -/
def Safe (L : Layout) (ok : Err → Prop) : Vcall → St → Prop
  | .kfree pa, s => L.Freeable pa ∧ pa ∉ s.freelist
  | .fail e, _ => ok e
  | _, _ => True

/-- The calls as the proofs see them. -/
def spec (L : Layout) (may : Prop) (ok : Err → Prop) : Spec Calls St where
  Safe := Safe L ok
  Step := Step may

section Rules

variable {may : Prop} {ok : Err → Prop} {α : Type} {Q : α → St → Prop} {own : Nat → Place}

variable {perm : Nat} {pl : Place} {k : Unit → Vcode α}

theorem Layout.Page.freeable (h : L.Page a) : L.Freeable a := by
  obtain ⟨h1, h2, h3⟩ := h
  unfold Freeable
  unfold PGSIZE at *
  omega

theorem Layout.Page.ne_zero (h : L.Page a) : a ≠ 0 := by
  have := L.base
  have := h.2.1
  unfold KERNBASE at *
  omega

section

variable (hH : Heap L own s)
include hH

theorem Heap.aligned (h : own a = pl) (hpl : pl ≠ .outside) :
    a % PGSIZE = 0 := ((hH.page a).mp (by rw [h]; exact hpl)).1

theorem Heap.ne_zero (h : own a = pl) (hpl : pl ≠ .outside) :
    a ≠ 0 := Layout.Page.ne_zero ((hH.page a).mp (by rw [h]; exact hpl))

/-- The list and the labels stay as they are. -/
theorem Heap.same (h : s'.freelist = s.freelist) : Heap L own s' := by
  obtain ⟨h1, h2, h3⟩ := hH
  refine ⟨h1, ?_, ?_⟩
  · rw [h]
    exact h2
  · rw [h]
    exact h3

/-- A page that is not free goes to another place that is not the list. -/
theorem Heap.move (ha : own a ≠ .free) (hp : L.Page a)
    (hpl : pl ≠ .free) (hpl' : pl ≠ .outside) : Heap L (update own a pl) s := by
  refine ⟨?_, ?_, hH.nodup⟩
  · grind [Heap]
  · grind [Heap]

/-- `kalloc` gives the first free page a place. -/
theorem Heap.take {rest : List Nat} (h : s.freelist = pa :: rest)
    (hpl : pl ≠ .free) (hpl' : pl ≠ .outside) :
    own pa = .free ∧ Heap L (update own pa pl) (s.take pa rest) := by
  have hfree : own pa = .free := (hH.free pa).mp (by rw [h]; exact List.mem_cons_self ..)
  have hnd := hH.nodup
  rw [h] at hnd
  obtain ⟨hnot, hrest⟩ := List.nodup_cons.mp hnd
  refine ⟨hfree, ?_, ?_, hrest⟩
  · grind [Heap]
  · intro b
    show b ∈ rest ↔ _
    by_cases hb : b = pa
    · subst hb
      rw [update_self]
      exact iff_of_false hnot hpl
    · grind [Heap]

/-- A page that is not free may be freed. -/
theorem Heap.give (hp : L.Page pa) (hpa : own pa ≠ .free) :
    L.Freeable pa ∧ pa ∉ s.freelist ∧ Heap L (update own pa .free) (s.give pa) := by
  have hnot : pa ∉ s.freelist := fun h => hpa ((hH.free pa).mp h)
  refine ⟨hp.freeable, hnot, ?_, ?_, List.nodup_cons.mpr ⟨hnot, hH.nodup⟩⟩
  · grind [Heap]
  · intro b
    show b ∈ pa :: s.freelist ↔ _
    by_cases hb : b = pa
    · subst hb
      rw [update_self]
      exact iff_of_true (List.mem_cons_self ..) rfl
    · grind [Heap]

/-! One rule for each call: it comes off the front of a program. -/

omit hH in
/-- `kalloc` returns 0, where it may, or the first page. -/
theorem wp_take {k : Nat → Vcode α} (h0 : may → (k 0).wp (spec L may ok) Q s)
    (h1 : ∀ pa rest, s.freelist = pa :: rest → (k pa).wp (spec L may ok) Q (s.take pa rest)) :
    (kalloc >>= k).wp (spec L may ok) Q s := by
  refine ⟨trivial, ?_⟩
  rintro r s' (⟨hmay, rfl, rfl⟩ | ⟨pa, rest, rfl, hfree, rfl⟩)
  · exact h0 hmay
  · exact h1 _ rest hfree

omit hH in
theorem wp_give (hpa : L.Freeable pa) (hnot : pa ∉ s.freelist)
    (h : (k ()).wp (spec L may ok) Q (s.give pa)) : (kfree pa >>= k).wp (spec L may ok) Q s := by
  refine ⟨⟨hpa, hnot⟩, ?_⟩
  rintro r s' rfl
  exact h

/-- The page gets the place the caller has for it. -/
theorem wp_kalloc (pl : Place) (hpl : pl ≠ .free) (hpl' : pl ≠ .outside)
    {k : Nat → Vcode α} (h0 : may → (k 0).wp (spec L may ok) Q s)
    (h1 : ∀ pa rest, own pa = .free → pa ≠ 0 → Heap L (update own pa pl) (s.take pa rest) →
      (k pa).wp (spec L may ok) Q (s.take pa rest)) :
    (kalloc >>= k).wp (spec L may ok) Q s := by
  refine wp_take h0 fun pa rest hfree => ?_
  obtain ⟨hlabel, hheap⟩ := hH.take hfree hpl hpl'
  exact h1 _ rest hlabel (hH.ne_zero hlabel (by decide)) hheap

theorem wp_kfree (hp : L.Page pa) (hpa : own pa ≠ .free) (h : Heap L (update own pa .free) (s.give pa) →
      (k ()).wp (spec L may ok) Q (s.give pa)) :
    (kfree pa >>= k).wp (spec L may ok) Q s := by
  obtain ⟨hfreeable, hnot, hheap⟩ := hH.give hp hpa
  exact wp_give hfreeable hnot (h hheap)

end

theorem wp_load {k : Nat → Vcode α} (h : (k (s.word pt i)).wp (spec L may ok) Q s) :
    (load pt i >>= k).wp (spec L may ok) Q s := by
  refine ⟨trivial, ?_⟩
  rintro r s' ⟨rfl, rfl⟩
  exact h

theorem wp_store (h : (k ()).wp (spec L may ok) Q (s.store pt i w)) :
    (store pt i w >>= k).wp (spec L may ok) Q s := by
  refine ⟨trivial, ?_⟩
  rintro r s' rfl
  exact h

theorem wp_memset (h : (k ()).wp (spec L may ok) Q (s.fill pa w)) :
    (memset pa w >>= k).wp (spec L may ok) Q s := by
  refine ⟨trivial, ?_⟩
  rintro r s' rfl
  exact h

theorem wp_patch {f : (Nat → Nat) → Nat → Nat} (h : (k ()).wp (spec L may ok) Q (s.patch pa f)) :
    (patch pa f >>= k).wp (spec L may ok) Q s := by
  refine ⟨trivial, ?_⟩
  rintro r s' rfl
  exact h

theorem wp_bytes {k : Bytes → Vcode α} (h : (k (Words.bytes (s.word pa))).wp (spec L may ok) Q s) :
    (bytes pa >>= k).wp (spec L may ok) Q s := by
  refine ⟨trivial, ?_⟩
  rintro r s' ⟨rfl, rfl⟩
  exact h

theorem wp_mem {k : ProcMem → Vcode α} (h : (k (s.mem p)).wp (spec L may ok) Q s) :
    (mem p >>= k).wp (spec L may ok) Q s := by
  refine ⟨trivial, ?_⟩
  rintro r s' ⟨rfl, rfl⟩
  exact h

theorem wp_setMem {x : ProcMem} (h : (k ()).wp (spec L may ok) Q (s.setMem p x)) :
    (setMem p x >>= k).wp (spec L may ok) Q s := by
  refine ⟨trivial, ?_⟩
  rintro r s' rfl
  exact h

/-- `kalloc` finds nothing, and so there was no supply; or it takes the first page, and leaves the rest. -/
theorem serve_kalloc (L : Layout) (m : Machine) :
    (∃ m', serve L .kalloc m = .ok ((0 : Nat), m') ∧ m'.st = m.st ∧ ∀ k, ¬m.Supplies (k + 1)) ∨
    ∃ (pa : Nat) (rest : List Nat), m.st.freelist = pa :: rest ∧
      serve L .kalloc m = .ok (pa, ⟨m.st.take pa rest, m.deny.tail⟩) ∧
      ∀ k, m.Supplies (k + 1) ↔ k ≤ rest.length ∧ true ∉ m.deny.tail.take k := by
  obtain ⟨st, deny⟩ := m
  unfold Supplies
  rcases deny with _ | ⟨_ | _, deny⟩
  · cases hf : st.freelist with
    | nil => exact .inl ⟨⟨st, []⟩, by simp [serve, hf], rfl, fun k => by simp⟩
    | cons pa rest => exact .inr ⟨pa, rest, rfl, by simp [serve, hf], fun k => by simp⟩
  · cases hf : st.freelist with
    | nil => exact .inl ⟨⟨st, deny⟩, by simp [serve, hf], rfl, fun k => by simp⟩
    | cons pa rest => exact .inr ⟨pa, rest, rfl, by simp [serve, hf], fun k => by simp⟩
  · exact .inl ⟨⟨st, deny⟩, rfl, rfl, fun k => by simp⟩

/-- **The machine serves the calls as specified**, and fails only where the program says so. -/
theorem serve_spec (L : Layout) (ok : Err → Prop) : Serves (serve L) (fun e => ¬ok e)
    (spec L True ok) fun m s => m.st = s := by
  rintro o m s rfl hsafe
  cases o with
  | kalloc =>
    rcases serve_kalloc L m with ⟨m', h, hst, -⟩ | ⟨pa, rest, hfree, h, -⟩
    · rw [h]
      exact ⟨_, .inl ⟨trivial, rfl, rfl⟩, hst⟩
    · rw [h]
      exact ⟨_, .inr ⟨pa, rest, rfl, hfree, rfl⟩, rfl⟩
  | kfree pa =>
    have h : serve L (.kfree pa) m = m.upd (m.st.give pa) :=
      (if_neg (not_not_intro hsafe.1)).trans (if_neg hsafe.2)
    rw [h]
    exact ⟨_, rfl, rfl⟩
  | load pt i | bytes pa | mem p => exact ⟨_, ⟨rfl, rfl⟩, rfl⟩
  | fail e => exact not_not_intro hsafe
  | _ => exact ⟨_, rfl, rfl⟩

/-- A program that is proved to fail nowhere comes back. -/
theorem wp_runs {p : Vcode α} {m : Machine} (h : p.wp (spec L True fun _ => False) Q m.st) :
    ∃ a m', p.run (serve L) m = .ok (a, m') ∧ Q a m'.st := by
  have hsound := wp_sound (serve_spec L fun _ => False) rfl h
  cases hr : p.run (serve L) m with
  | error e =>
    rw [hr] at hsound
    exact absurd id hsound
  | ok x =>
    rw [hr] at hsound
    obtain ⟨s', hQ, rfl⟩ := hsound
    exact ⟨x.1, x.2, rfl, hQ⟩

end Rules

/-! ## Page tables -/

/-- Work on the pages in the places of `X`. -/
structure Work (X : Place → Prop) (own own' : Nat → Place) (s s' : St) : Prop where
  out : ∀ a, ¬X (own a) → own' a = own a ∧ s'.word a = s.word a
  of : ∀ a, X (own a) → X (own' a)

namespace Work

variable {X Y : Place → Prop} {own : Nat → Place}

theorem trans (h : Work X own own1 s s1) (h' : Work X own1 own' s1 s') : Work X own own' s s' := by
  refine ⟨?_, fun a ha => h'.of a (h.of a ha)⟩
  intro a ha
  obtain ⟨hl, hw⟩ := h.out a ha
  obtain ⟨hl', hw'⟩ := h'.out a (by rw [hl]; exact ha)
  exact ⟨hl'.trans hl, hw'.trans hw⟩

end Work

/-- Work on the table of `t`. -/
structure Frame (t : Owner) (own own' : Nat → Place) (s s' : St) : Prop where
  out : ∀ a, ¬(own a).Of t → own' a = own a ∧ s'.word a = s.word a
  of : ∀ a, (own a).Of t → (own' a).Of t
  mem : s'.mem = s.mem

/-- The page table of `t` at `r`.  `S` are the virtual pages whose memory the table does not own. -/
structure Table (own : Nat → Place) (word : Nat → Nat → Nat) (t : Owner) (r : Nat) (S : Nat → Prop)
    (map : Nat → Nat) : Prop where
  root : own r = .node t 2 0
  top : ∀ a l x, own a = .node t l x → l ≤ 2 ∧ (l = 2 → x = 0 ∧ a = r)
  down : ∀ a l q i, own a = .node t (l + 1) q → i < 512 →
    word a i = 0 ∨ ∃ b, word a i = dirPte b ∧ own b = .node t l (512 * q + i)
  up : ∀ b l x, own b = .node t l x → l < 2 →
    ∃ a, own a = .node t (l + 1) (x / 512) ∧ word a (x % 512) = dirPte b
  low : ∀ a q i, own a = .node t 0 q → i < 512 → word a i = map (512 * q + i)
  home : ∀ v, map v ≠ 0 → ∃ a, own a = .node t 0 (v / 512)
  leafy : ∀ v, map v ≠ 0 → IsLeaf (map v)
  owned : ∀ v, map v ≠ 0 → ¬S v → own (PTE2PA (map v)) = .leaf t v
  back : ∀ b v, own b = .leaf t v → map v ≠ 0 ∧ ¬S v ∧ PTE2PA (map v) = b

namespace Frame

variable {own : Nat → Place}

theorem work (h : Frame t own own' s s') : Work (Place.Of t) own own' s s' := ⟨h.out, h.of⟩

theorem refl (t : Owner) (own : Nat → Place) (s : St) : Frame t own own s s :=
  ⟨fun _ _ => ⟨rfl, rfl⟩, fun _ => id, rfl⟩

theorem trans (h : Frame t own own1 s s1) (h' : Frame t own1 own' s1 s') : Frame t own own' s s' := by
  obtain ⟨hout, hof⟩ := h.work.trans h'.work
  exact ⟨hout, hof, h'.mem.trans h.mem⟩

variable {b x : Nat} {f : Nat → Nat} {pl : Place}

/-- A page of the table is written to. -/
theorem write (hb : (own b).Of t) (hw : s'.word = update s.word b f) (hs : s'.mem = s.mem) :
    Frame t own own s s' := by
  refine ⟨fun a ha => ⟨rfl, ?_⟩, fun _ => id, hs⟩
  rw [hw, update_of_ne]
  rintro rfl
  exact ha hb

/-- And another one gets a new place. -/
theorem step (hx : (own x).Of t) (hpl : pl.Of t) (hb : (own b).Of t) (hw : s'.word = update s.word b f)
    (hs : s'.mem = s.mem) : Frame t own (update own x pl) s s' := by
  refine ⟨fun a ha => ⟨update_of_ne ?_ .., ((write hb hw hs).out a ha).2⟩, fun a ha => ?_, hs⟩
  · rintro rfl
    exact ha hx
  · grind

end Frame

section Labels

variable {own : Nat → Place} {a b : Nat} {pl pl' q : Place}

/-- Pages in different places are different. -/
theorem label_ne (ha : own a = pl) (hb : own b = pl') (h : pl ≠ pl') : a ≠ b := by
  rintro rfl
  exact h (ha.symm.trans hb)

/-- A page gets a new place; what is in another place after that was there before. -/
theorem of_relabel (h : update own b pl a = q) (hq : pl ≠ q) : a ≠ b ∧ own a = q := by
  by_cases hab : a = b
  · subst hab
    rw [update_self] at h
    exact absurd h hq
  · rw [update_of_ne hab] at h
    exact ⟨hab, h⟩

theorem relabel_iff (hb : own b = pl) (h : pl ≠ q) (h' : pl' ≠ q) : update own b pl' a = q ↔ own a = q :=
  ⟨fun ha => (of_relabel ha h').2, fun ha => (update_of_ne (label_ne ha hb h.symm) ..).trans ha⟩

end Labels

namespace Table

variable {own : Nat → Place} {word word' : Nat → Nat → Nat} {t' : Owner} {r : Nat}
  {S : Nat → Prop} {map : Nat → Nat}

section

variable (hT : Table own word t r S map)
include hT

/-- A table depends on its own pages; `t'` is its new owner. -/
theorem congr (hnode : ∀ a l x, own' a = .node t' l x ↔ own a = .node t l x)
    (hleaf : ∀ a v, own' a = .leaf t' v ↔ own a = .leaf t v)
    (hword : ∀ a l x, own a = .node t l x → word' a = word a) : Table own' word' t' r S map where
  root := (hnode r 2 0).mpr hT.root
  top a l x h := hT.top a l x ((hnode a l x).mp h)
  down a l q i h hi := by grind [Table]
  up b l x h hl := by
    obtain ⟨a, ha, hw⟩ := hT.up b l x ((hnode b l x).mp h) hl
    exact ⟨a, (hnode a _ _).mpr ha, by rw [hword a _ _ ha]; exact hw⟩
  low a q i h hi := by
    have ha := (hnode a _ _).mp h
    rw [hword a _ _ ha]
    exact hT.low a q i ha hi
  home v hv := by
    obtain ⟨a, ha⟩ := hT.home v hv
    exact ⟨a, (hnode a _ _).mpr ha⟩
  leafy := hT.leafy
  owned v hv hS := (hleaf _ v).mpr (hT.owned v hv hS)
  back b v h := hT.back b v ((hleaf b v).mp h)

/-- A page has one label, and a label of a node one page. -/
theorem unique (hal : ∀ a l x, own a = .node t l x → a % PGSIZE = 0)
    (n : Nat) : ∀ {a b l x}, 2 - l ≤ n → own a = .node t l x → own b = .node t l x → a = b := by
  induction n with
  | zero =>
    grind [Table]
  | succ n ih =>
    grind [Table, PTE2PA_dirPte]

theorem eq_of_node (hH : Heap L own s) {l x : Nat}
    (ha : own a = .node t l x) (hb : own b = .node t l x) : a = b :=
  hT.unique (fun _ _ _ h => hH.aligned h (by simp)) 2 (Nat.sub_le 2 l) ha hb

/-- **One entry of the map changes.**  `a` is the page it is in, and the only label that may change is
    that of the page the entry is about. -/
theorem put (hH : Heap L own s) {v : Nat} (ha : own a = .node t 0 (v / 512))
    (hnode : ∀ b l x, own' b = .node t l x ↔ own b = .node t l x)
    (hleaf : ∀ b u, u ≠ v → (own' b = .leaf t u ↔ own b = .leaf t u))
    (hv : ∀ b, own' b = .leaf t v ↔ w ≠ 0 ∧ ¬S v ∧ PTE2PA w = b)
    (hw : w ≠ 0 → IsLeaf w)
    (hword : ∀ b l x, own b = .node t l x → b ≠ a → word' b = word b)
    (hworda : word' a = update (word a) (v % 512) w) :
    Table own' word' t r S (update map v w) := by
  have hsame : ∀ b l x, own b = .node t (l + 1) x → word' b = word b := by
    intro b l x hb
    refine hword b _ _ hb ?_
    rintro rfl
    rw [ha] at hb
    cases hb
  refine ⟨(hnode r 2 0).mpr hT.root, ?_, ?_, ?_, ?_, ?_, ?_, ?_, ?_⟩
  · intro b l x h
    exact hT.top b l x ((hnode b l x).mp h)
  · grind [Table]
  · intro b l x h hl
    obtain ⟨c, hc, hwc⟩ := hT.up b l x ((hnode b l x).mp h) hl
    exact ⟨c, (hnode c _ _).mpr hc, by rw [hsame c l _ hc]; exact hwc⟩
  · intro b q i h hi
    have hb := (hnode b _ _).mp h
    by_cases hba : b = a
    · subst hba
      have hq : q = v / 512 := by
        rw [ha] at hb
        exact (Place.node.inj hb).2.2.symm
      subst hq
      rw [hworda]
      by_cases hiv : i = v % 512
      · subst hiv
        rw [update_self, Nat.div_add_mod, update_self]
      · rw [update_of_ne hiv, update_of_ne (by omega), hT.low b _ i ha hi]
    · have hne : 512 * q + i ≠ v := by
        rintro rfl
        have hq : (512 * q + i) / 512 = q := by omega
        rw [hq] at ha
        exact hba (hT.eq_of_node hH hb ha)
      rw [hword b 0 q hb hba, update_of_ne hne, hT.low b q i hb hi]
  · intro u hu
    by_cases huv : u = v
    · subst huv
      exact ⟨a, (hnode a _ _).mpr ha⟩
    · rw [update_of_ne huv] at hu
      obtain ⟨b, hb⟩ := hT.home u hu
      exact ⟨b, (hnode b _ _).mpr hb⟩
  · grind [Table]
  · grind [Table]
  · intro b u h
    by_cases huv : u = v
    · subst huv
      rw [update_self]
      exact (hv b).mp h
    · rw [update_of_ne huv]
      exact hT.back b u ((hleaf b u huv).mp h)

end

end Table

end Xv6.Vm
