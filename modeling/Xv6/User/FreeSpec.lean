/-
  WHAT `free` DOES TO THE BLOCKS.

  Abstractly the heap is two lists of extents: the FREE blocks `R`, in increasing order, with the
  empty block `base` in front, and the LIVE ones.  `Arena` is the invariant in these terms — no two
  free blocks meet, and free and live together cover exactly the memory obtained, each byte once.
  `Rep` ties the lists to memory: the pointers of the headers make a ring of `R`, the sizes are
  theirs.

  `join_spec` is one half of `free` (`Extents.coalesce` in memory), `joins_spec` both halves,
  `free_search` its loop.  The lemmas ask only that the HEADERS can be touched, not the memory
  behind them.
-/
import Xv6.User.Malloc

namespace Xv6.Umalloc

open Bytes Extents Chain List Prod

variable {k : Nat} {B P b c : Extent} {V W : List Extent}

variable {σ : Type} {O : Os σ} {s : Proc σ} {base h v fuel nunits : Nat} {m m' : Bytes}
  {R L got : List Extent}

theorem ok_bind {α β : Type} (a : α) (f : α → Except Stop β) : (Except.ok a >>= f) = f a := rfl

/-! ## Headers in memory -/

/-- The fields of the header at `h` can be touched. -/
def Header (O : Os σ) (os : σ) (h : Nat) : Prop := ∀ i, i < 12 → O.mapped os (h + i) = true

/-- Two headers do not overlap. -/
def Apart (h k : Nat) : Prop := h + 16 ≤ k ∨ k + 16 ≤ h

theorem Apart.symm {h k : Nat} (hk : Apart h k) : Apart k h := Or.symm hk

/-- Memory is as it was but for the header at `h`. -/
def Only (h : Nat) (m m' : Bytes) : Prop := ∀ x, x < h ∨ h + 16 ≤ x → m' x = m x

theorem Only.trans {m'' : Bytes} (h1 : Only h m m') (h2 : Only h m' m'') : Only h m m'' :=
  fun x hx => (h2 x hx).trans (h1 x hx)

theorem Only.ptrAt (ho : Only h m m') (hk : Apart h k) : ptrAt m' k = ptrAt m k :=
  le64_congr fun i hi => ho _ (by unfold Apart at hk; omega)

theorem Only.sizeAt (ho : Only h m m') (hk : Apart h k) : sizeAt m' k = sizeAt m k :=
  le32_congr fun i hi => ho _ (by unfold Apart at hk; omega)

theorem only_put64 (m : Bytes) (h v : Nat) : Only h m (put64 m h v) :=
  fun _ hx => put64_out (by omega)

theorem only_put32 (m : Bytes) (h v : Nat) : Only h m (put32 m (h + 8) v) :=
  fun _ hx => put32_out (by omega)

theorem ptrAt_put64 (hv : v < 18446744073709551616) : ptrAt (put64 m h v) h = v :=
  (le64_put64 m h v).trans (Nat.mod_eq_of_lt hv)

theorem sizeAt_put64 : sizeAt (put64 m h v) h = sizeAt m h :=
  le32_congr fun _ _ => put64_out (by omega)

theorem ptrAt_put32 : ptrAt (put32 m (h + 8) v) h = ptrAt m h :=
  le64_congr fun _ _ => put32_out (by omega)

theorem sizeAt_put32 (hv : v < 4294967296) : sizeAt (put32 m (h + 8) v) h = v :=
  (le32_put32 m (h + 8) v).trans (Nat.mod_eq_of_lt hv)

theorem can_of {a n : Nat} (h : ∀ i, i < n → O.mapped s.os (a + i) = true) : s.can O a n = true :=
  all_eq_true.2 fun i hi => h i (mem_range.1 hi)

section

variable (hh : Header O s.os h)
include hh

theorem Header.ptr : s.ptr O h = .ok (ptrAt s.mem h) :=
  if_pos (can_of fun i hi => hh i (by omega))

theorem Header.setPtr (v : Nat) : s.setPtr O h v = .ok { s with mem := put64 s.mem h v } :=
  if_pos (can_of fun i hi => hh i (by omega))

theorem Header.can_size : s.can O (h + 8) 4 = true :=
  can_of fun i hi => by
    rw [add_assoc]
    exact hh (8 + i) (by omega)

theorem Header.size : s.size O h = .ok (sizeAt s.mem h) := if_pos hh.can_size

theorem Header.setSize (v : Nat) :
    s.setSize O h v = .ok { s with mem := put32 s.mem (h + 8) v } := if_pos hh.can_size

end

/-! ## The invariant -/

/-- The blocks: `R` the free ones from `base` on, `L` the live ones, `got` the memory obtained. -/
structure Arena (base : Nat) (R L got : List Extent) : Prop where
  place : 0 < base ∧ base + 16 < 68719476736
  head : ∃ fs, R = (base, 0) :: fs
  spaced : Spaced R
  /-- Free and live blocks cover the memory obtained, … -/
  cover : ∀ x, covers x (R ++ L) = covers x got
  /-- … and no byte twice. -/
  once : ∀ x, covers x got ≤ 1
  free : ∀ b ∈ R, b = (base, 0) ∨ 16 ≤ b.2
  live : ∀ b ∈ L, 16 ≤ b.2
  above : ∀ c ∈ got, base + 16 ≤ c.1
  bound : ∀ c ∈ got, c.1 + c.2 < 68719476736

/-- Memory holds the blocks. -/
structure Rep (base : Nat) (m : Bytes) (R L : List Extent) : Prop where
  linked : Linked (ptrAt m) (R.map Prod.fst) base
  sizes : ∀ b ∈ R ++ L, b.2 = 16 * sizeAt m b.1

namespace Arena

variable {B P : Extent} {W V : List Extent}

section

variable (hA : Arena base R L got)
include hA

theorem perm {L' : List Extent} (hp : L.Perm L') : Arena base R L' got :=
  { hA with
    cover := fun x => by rw [← hA.cover x, covers_append, covers_append, covers_perm hp]
    live := fun b hb => hA.live b (hp.mem_iff.2 hb) }

/-- Every block but `base` has room for its header. -/
theorem sized (hb : b ∈ R ++ L) : b = (base, 0) ∨ 16 ≤ b.2 := by
  rcases mem_append.1 hb with h | h
  · exact hA.free b h
  · exact .inr (hA.live b h)

/-- A byte of a block was obtained. -/
theorem obtained (hb : b ∈ R ++ L) {x : Nat}
    (hx : b.1 ≤ x ∧ x < b.1 + b.2) : ∃ c ∈ got, c.1 ≤ x ∧ x < c.1 + c.2 := by
  refine covers_pos.1 ?_
  rw [← hA.cover x]
  exact covers_pos.2 ⟨b, hb, hx⟩

theorem low (hb : b ∈ R ++ L) (h16 : 16 ≤ b.2) : base + 16 ≤ b.1 := by
  obtain ⟨c, hc, hx⟩ := hA.obtained hb (x := b.1) (by omega)
  have := hA.above c hc
  omega

theorem high (hb : b ∈ R ++ L) : b.1 + b.2 < 68719476736 := by
  by_cases h0 : b.2 = 0
  · rw [(hA.sized hb).resolve_right (by omega)]
    have := hA.place
    omega
  · obtain ⟨c, hc, hx⟩ := hA.obtained hb (x := b.1 + b.2 - 1) (by omega)
    have := hA.bound c hc
    omega

theorem nodup : (R.map fst).Nodup := by
  refine pairwise_map.2 (hA.spaced.imp fun h => ?_)
  omega

/-- Two free blocks, in their order. -/
theorem free_apart (hb : b ∈ R) (hc : c ∈ R) (hlt : b.1 + b.2 < c.1) : b.1 + 16 ≤ c.1 := by
  rcases hA.free c hc with rfl | hc16
  · -- nothing is before `base`
    rcases hA.free b hb with rfl | hb16
    · exact absurd hlt (by simp)
    · have := hA.low (mem_append_left L hb) hb16
      simp only at hlt
      omega
  · rcases hA.free b hb with rfl | hb16
    · exact hA.low (mem_append_left L hc) hc16
    · omega

end

/-- A free block against the other free ones. -/
theorem ring_apart (hA : Arena base (W ++ P :: V) L got) (hc : c ∈ W ++ V) : Apart P.1 c.1 := by
  obtain ⟨-, hV, hW⟩ := pairwise_append.1 hA.spaced
  rcases mem_append.1 hc with hcW | hcV
  · exact .inr (hA.free_apart (by simp [hcW]) (by simp) (hW c hcW P mem_cons_self))
  · exact .inl (hA.free_apart (by simp) (by simp [hcV]) ((pairwise_cons.1 hV).1 c hcV))

/-- Nothing is covered twice by the blocks, in whatever order they are listed. -/
theorem once_perm (hA : Arena base R L got) {l : List Extent} (hp : (R ++ L).Perm l) (x : Nat) :
    covers x l ≤ 1 := by
  rw [← covers_perm hp, hA.cover x]
  exact hA.once x

/-- A live block against the free ones. -/
theorem live_disjoint (hA : Arena base R L got) (hb : b ∈ L) (hc : c ∈ R) :
    b.1 + b.2 ≤ c.1 ∨ c.1 + max 16 c.2 ≤ b.1 := by
  have hb16 := hA.live b hb
  rcases hA.free c hc with rfl | hc16
  · exact .inr (hA.low (mem_append_right R hb) hb16)
  · obtain ⟨u, v, rfl⟩ := append_of_mem hb
    have hperm : (R ++ (u ++ b :: v)).Perm (b :: (R ++ (u ++ v))) := by
      rw [← append_assoc, ← append_assoc]
      exact perm_middle
    have := apart_of_once (hA.once_perm hperm) (mem_append_left _ hc) (by omega) (by omega)
    omega

theorem live_apart (hA : Arena base R L got) (hb : b ∈ L) (hc : c ∈ R) : Apart b.1 c.1 := by
  have := hA.live b hb
  have := hA.live_disjoint hb hc
  unfold Apart
  omega

/-- Two live blocks. -/
theorem lives_apart (hA : Arena base R (B :: L) got) (hc : c ∈ L) : B.1 + B.2 ≤ c.1 ∨ c.1 + c.2 ≤ B.1 := by
  have hB := hA.live B mem_cons_self
  have hc16 := hA.live c (mem_cons_of_mem B hc)
  exact apart_of_once (hA.once_perm perm_middle) (mem_append_right R hc) (by omega) (by omega)

/-- The block given back is joined with what is on either side of it. -/
theorem give_back (hA : Arena base (W ++ P :: V) (B :: L) got) (hP : P.1 < B.1) (hV : ∀ c ∈ V, B.1 < c.1) :
    Arena base (W ++ (coalesce P ((coalesce B V).1 :: (coalesce B V).2)).1 ::
        (coalesce P ((coalesce B V).1 :: (coalesce B V).2)).2) L got := by
  obtain ⟨hC1, hC2, hCs⟩ := coalesce_spec B V
  have hB16 := hA.live B mem_cons_self
  have hPB : P.1 + max 16 P.2 ≤ B.1 := by
    rcases hA.live_disjoint (c := P) mem_cons_self (by simp) with h | h <;> omega
  have hBV : ∀ c ∈ V, B.1 + B.2 ≤ c.1 := by
    intro c hc
    have := hV c hc
    rcases hA.live_disjoint (c := c) mem_cons_self (by simp [hc]) with h | h <;> omega
  obtain ⟨hW, hPV, hWP⟩ := pairwise_append.1 hA.spaced
  obtain ⟨hPc, hVs⟩ := pairwise_cons.1 hPV
  have hCsp := spaced_coalesce hVs hBV
  generalize hC : coalesce B V = C at *
  obtain ⟨hD1, hD2, hDs⟩ := coalesce_spec P (C.1 :: C.2)
  have hDsp : Spaced ((coalesce P (C.1 :: C.2)).1 :: (coalesce P (C.1 :: C.2)).2) := by
    refine spaced_coalesce hCsp fun c hc => ?_
    rcases mem_cons.1 hc with rfl | hc
    · omega
    · have := hPc c (hCs.subset hc)
      omega
  have hDcov := fun x => covers_coalesce (x := x) P (C.1 :: C.2)
  have hCcov := fun x => covers_coalesce (x := x) B V
  rw [hC] at hCcov
  -- `base` is too far from the block to be joined with it
  have hgap : P = (base, 0) → coalesce P (C.1 :: C.2) = (P, C.1 :: C.2) := by
    intro e
    have hP0 : P.2 = 0 := by rw [e]
    refine coalesce_gap ?_
    rw [hC1]
    omega
  refine { hA with
    head := ?_, spaced := hA.spaced.replace hDsp hD1, cover := ?_, free := ?_
    live := fun b hb => hA.live b (mem_cons_of_mem B hb) }
  · obtain ⟨fs, hfs⟩ := hA.head
    cases W with
    | nil =>
      obtain ⟨rfl, rfl⟩ := cons.inj hfs
      rw [hgap rfl]
      exact ⟨_, rfl⟩
    | cons w W =>
      obtain ⟨rfl, -⟩ := cons.inj hfs
      exact ⟨_, rfl⟩
  · intro x
    have h := hA.cover x
    have hd := hDcov x
    have hc := hCcov x
    simp only [covers_append, covers_cons] at h hd hc ⊢
    omega
  · intro b hb
    rcases mem_append.1 hb with hb | hb
    · exact hA.free b (by simp [hb])
    rcases mem_cons.1 hb with rfl | hb
    · rcases hA.free P (by simp) with rfl | h16
      · rw [hgap rfl]
        exact .inl rfl
      · exact .inr (by omega)
    · rcases mem_cons.1 (hDs.subset hb) with rfl | hb
      · exact .inr (by omega)
      · exact hA.free b (by simp [hCs.subset hb])

end Arena

/-! ## `free` -/

theorem Rep.next (hR : Rep base m (W ++ P :: V) L) : ptrAt m P.1 = (V.map fst).headD base := by
  have h := hR.linked
  rw [map_append] at h
  exact (linked_append.1 h).2.1

/-- Only the headers matter. -/
theorem Rep.congr (hR : Rep base m R L) (h : ∀ b ∈ R ++ L, ∀ i, i < 12 → m' (b.1 + i) = m (b.1 + i)) :
    Rep base m' R L := by
  refine ⟨hR.linked.congr fun x hx => ?_, fun b hb => ?_⟩
  · obtain ⟨b, hb, rfl⟩ := mem_map.1 hx
    exact le64_congr fun i hi => h b (mem_append_left L hb) i (by omega)
  · have hsize : sizeAt m' b.1 = sizeAt m b.1 := le32_congr fun i hi => by
      rw [add_assoc]
      exact h b hb (8 + i) (by omega)
    rw [hsize]
    exact hR.sizes b hb

/-- The search stops at the free block behind which the block belongs. -/
theorem stops_iff (hA : Arena base (W ++ P :: V) (B :: L) got) :
    stops B.1 P.1 ((V.map fst).headD base) = true ↔ P.1 < B.1 ∧ ∀ c ∈ V, B.1 < c.1 := by
  have hB := hA.low (b := B) (by simp) (hA.live B mem_cons_self)
  have hP : base ≤ P.1 := by
    rcases hA.free P (by simp) with rfl | h16
    · exact le_rfl
    · have := hA.low (b := P) (by simp) h16
      omega
  have hsp := (pairwise_append.1 hA.spaced).2.1
  unfold stops
  simp only [Bool.or_eq_true, decide_eq_true_eq]
  cases V with
  | nil =>
    simp only [map_nil, headD_nil, not_mem_nil, false_implies, implies_true, and_true]
    omega
  | cons c V =>
    obtain ⟨hPc, hcV⟩ := pairwise_cons.1 hsp
    have hc := hPc c mem_cons_self
    have hall : (∀ d ∈ c :: V, B.1 < d.1) ↔ B.1 < c.1 := by
      refine ⟨fun h => h c mem_cons_self, fun h d hd => ?_⟩
      rcases mem_cons.1 hd with rfl | hd
      · exact h
      · have := (pairwise_cons.1 hcV).1 d hd
        omega
    rw [hall]
    simp only [map_cons, headD_cons]
    omega

/-- The ring read from `freep`. -/
theorem Rep.from_freep (hA : Arena base R L got) (hR : Rep base m R L) {p : Nat}
    (hp : p ∈ R.map fst) : ∃ c, Linked (ptrAt m) (p :: c) p ∧ (p :: c).IsRotated (R.map fst) := by
  obtain ⟨u, v, huv⟩ := append_of_mem hp
  have hlink := hR.linked
  have hhead : (u ++ p :: v).headD p = base := by
    obtain ⟨fs, rfl⟩ := hA.head
    rw [← huv]
    rfl
  rw [huv] at hlink ⊢
  exact ⟨v ++ u, hlink.rotate hhead, isRotated_append (l := p :: v)⟩

/-- The ring from `freep` on visits every free block once, and each of them is in mapped memory. -/
theorem Rep.ring (hA : Arena base R L got) (hR : Rep base s.mem R L)
    (hmap : ∀ b ∈ R, Header O s.os b.1) (hf : s.freep ∈ R.map fst) :
    ∃ c, Linked (ptrAt s.mem) (s.freep :: c) s.freep ∧ s.freep ∉ c ∧ c.length + 1 = R.length ∧
      (∀ x, x ∈ s.freep :: c ↔ x ∈ R.map fst) ∧ ∀ x ∈ s.freep :: c, Header O s.os x := by
  obtain ⟨c, hlink, hrot⟩ := hR.from_freep hA hf
  refine ⟨c, hlink, (nodup_cons.1 (hrot.nodup_iff.2 hA.nodup)).1, by simpa using hrot.perm.length_eq,
    fun x => hrot.mem_iff, fun x hx => ?_⟩
  obtain ⟨b, hb, rfl⟩ := mem_map.1 (hrot.mem_iff.1 hx)
  exact hmap b hb

theorem free_search (hA : Arena base R (B :: L) got) (hR : Rep base s.mem R (B :: L))
    (hmap : ∀ b ∈ R, Header O s.os b.1) (hf : s.freep ∈ R.map fst) (hfuel : R.length ≤ fuel) :
    ∃ W P V, R = W ++ P :: V ∧ P.1 < B.1 ∧ (∀ c ∈ V, B.1 < c.1) ∧
      walk (s.ptr O) (stops B.1) .fuel fuel s.freep = .ok P.1 := by
  obtain ⟨c, hlink, -, hlen, hmem, hmap'⟩ := hR.ring hA hmap hf
  have hstop : ∃ x ∈ s.freep :: c, stops B.1 x (ptrAt s.mem x) = true := by
    have hbase : ∃ b ∈ R, b.1 < B.1 := by
      obtain ⟨fs, rfl⟩ := hA.head
      have := hA.low (b := B) (by simp) (hA.live B mem_cons_self)
      exact ⟨(base, 0), mem_cons_self, by show base < B.1; omega⟩
    obtain ⟨W, P, V, rfl, hP, hV⟩ := exists_last_before hbase
    refine ⟨P.1, (hmem _).2 (by simp), ?_⟩
    rw [hR.next, stops_iff hA]
    refine ⟨hP, fun d hd => Nat.lt_of_le_of_ne (hV d hd) fun e => ?_⟩
    have := hA.live_apart (b := B) (c := d) mem_cons_self (by simp [hd])
    unfold Apart at this
    omega
  obtain ⟨x, hx, hs, hw⟩ := walk_finds (o := Stop.fuel) (n := fuel) hlink
    (fun x hx => (hmap' x hx).ptr) hstop (hlen.trans_le hfuel)
  obtain ⟨P, hP, rfl⟩ := mem_map.1 ((hmem x).1 hx)
  obtain ⟨W, V, rfl⟩ := append_of_mem hP
  rw [hR.next, stops_iff hA] at hs
  exact ⟨W, P, V, rfl, hs.1, hs.2, hw⟩

/-- Joining a block with what is behind it, if they meet, and linking the two if not. -/
theorem join_spec {x : Extent} {y : Proc σ → Except Stop Nat}
    (hx : Header O s.os x.1) (hsize : x.2 = 16 * sizeAt s.mem x.1)
    (hV : ∀ c ∈ V, Header O s.os c.1 ∧ c.2 = 16 * sizeAt s.mem c.1 ∧ Apart x.1 c.1 ∧
      c.1 + c.2 < 68719476736)
    (hlink : Linked (ptrAt s.mem) (V.map fst) base) (hbase : base < 68719476736)
    (hy : ∀ m', Only x.1 s.mem m' → y { s with mem := m' } = .ok ((V.map fst).headD base))
    (hend : V = [] → x.1 + x.2 ≠ base) (hhigh : x.1 + x.2 < 68719476736) :
    ∃ m', s.join O x.1 y = .ok { s with mem := m' } ∧ Only x.1 s.mem m' ∧
      ptrAt m' x.1 = ((coalesce x V).2.map fst).headD base ∧
      (coalesce x V).1.2 = 16 * sizeAt m' x.1 := by
  have hfwd : forward x.1 (sizeAt s.mem x.1) = x.1 + x.2 := by
    unfold forward
    omega
  have hys : y s = .ok ((V.map fst).headD base) := hy s.mem fun _ _ => rfl
  -- linking: the pointer is the only thing written
  have hgap : x.1 + x.2 ≠ (V.map fst).headD base → coalesce x V = (x, V) →
      ∃ m', s.join O x.1 y = .ok { s with mem := m' } ∧ Only x.1 s.mem m' ∧
        ptrAt m' x.1 = ((coalesce x V).2.map fst).headD base ∧
        (coalesce x V).1.2 = 16 * sizeAt m' x.1 := by
    intro hne hco
    have hlt : (V.map fst).headD base < 18446744073709551616 := by
      cases V with
      | nil => exact lt_trans hbase (by decide)
      | cons c V =>
        have := (hV c mem_cons_self).2.2.2
        show c.1 < _
        omega
    refine ⟨_, ?_, only_put64 s.mem x.1 ((V.map fst).headD base), ?_, ?_⟩
    · unfold Proc.join
      rw [hx.size, ok_bind, hys, ok_bind, hfwd, if_neg hne]
      exact hx.setPtr _
    · rw [ptrAt_put64 hlt, hco]
    · rw [sizeAt_put64, hco]
      exact hsize
  cases V with
  | nil => exact hgap (hend rfl) rfl
  | cons c V =>
    by_cases hmeet : x.1 + x.2 = c.1
    · obtain ⟨hc, hcs, hcx, hch⟩ := hV c mem_cons_self
      have hsum : (sizeAt s.mem x.1 + sizeAt s.mem c.1) % 4294967296 =
          sizeAt s.mem x.1 + sizeAt s.mem c.1 := Nat.mod_eq_of_lt (by omega)
      have honly := only_put32 s.mem x.1 (sizeAt s.mem x.1 + sizeAt s.mem c.1)
      have hnext : ptrAt s.mem c.1 = (V.map fst).headD base := hlink.1
      have hlt : (V.map fst).headD base < 18446744073709551616 := by
        cases V with
        | nil => exact lt_trans hbase (by decide)
        | cons d V =>
          have := (hV d (by simp)).2.2.2
          show d.1 < _
          omega
      refine ⟨_, ?_, honly.trans (only_put64 _ x.1 ((V.map fst).headD base)), ?_, ?_⟩
      · let s1 : Proc σ :=
          { s with mem := put32 s.mem (x.1 + 8) (sizeAt s.mem x.1 + sizeAt s.mem c.1) }
        have hyc : y s = .ok c.1 := hys
        have hyc1 : y s1 = .ok c.1 := hy _ honly
        have hread : s1.ptr O c.1 = .ok ((V.map fst).headD base) := by
          rw [Header.ptr (s := s1) hc, honly.ptrAt hcx, hnext]
        unfold Proc.join
        rw [hx.size, ok_bind, hyc, ok_bind, hfwd, if_pos hmeet, hc.size, ok_bind, hsum, hx.setSize,
          ok_bind, hyc1, ok_bind, hread, ok_bind]
        exact Header.setPtr (s := s1) hx _
      · rw [ptrAt_put64 hlt, coalesce_meet hmeet]
      · rw [sizeAt_put64, sizeAt_put32 (by omega), coalesce_meet hmeet]
        show x.2 + c.2 = _
        omega
    · exact hgap hmeet (coalesce_gap hmeet)

/-- What is left behind a joined block is still linked. -/
theorem linked_coalesce {f : Nat → Nat}
    (h : Linked f (V.map fst) base) : Linked f ((coalesce b V).2.map fst) base := by
  cases V with
  | nil => exact h
  | cons c V =>
    by_cases hmeet : b.1 + b.2 = c.1
    · rw [coalesce_meet hmeet]
      exact h.2
    · rw [coalesce_gap hmeet]
      exact h

/-- The two joins, in memory. -/
theorem joins_spec (hA : Arena base (W ++ P :: V) (B :: L) got) (hR : Rep base s.mem (W ++ P :: V) (B :: L))
    (hmap : ∀ b ∈ B :: (W ++ P :: V), Header O s.os b.1) :
    ∃ m1 m2, s.join O B.1 (fun s => s.ptr O P.1) = .ok { s with mem := m1 } ∧
      ({ s with mem := m1 } : Proc σ).join O P.1 (fun _ => pure B.1) = .ok { s with mem := m2 } ∧
      Only B.1 s.mem m1 ∧ Only P.1 m1 m2 ∧
      Rep base m2 (W ++ (coalesce P ((coalesce B V).1 :: (coalesce B V).2)).1 ::
          (coalesce P ((coalesce B V).1 :: (coalesce B V).2)).2) L := by
  have hBP : Apart B.1 P.1 := hA.live_apart mem_cons_self (by simp)
  have hBW : ∀ c ∈ W ++ V, Apart B.1 c.1 := fun c hc =>
    hA.live_apart mem_cons_self (by
      rcases mem_append.1 hc with h | h <;> simp [h])
  have hPW : ∀ c ∈ W ++ V, Apart P.1 c.1 := fun c hc => hA.ring_apart hc
  have hBL : ∀ c ∈ L, Apart B.1 c.1 := by
    intro c hc
    have := hA.lives_apart hc
    have := hA.live B mem_cons_self
    have := hA.live c (mem_cons_of_mem B hc)
    unfold Apart
    omega
  have hPL : ∀ c ∈ L, Apart P.1 c.1 := fun c hc =>
    (hA.live_apart (mem_cons_of_mem B hc) (by simp)).symm
  have hplace := hA.place
  have hlow := hA.low (b := B) (by simp) (hA.live B mem_cons_self)
  have hhigh : ∀ b, b ∈ W ++ P :: V ∨ b ∈ B :: L → b.1 + b.2 < 68719476736 := fun b hb =>
    hA.high (mem_append.2 hb)
  have hlinkV : Linked (ptrAt s.mem) (V.map fst) base := by
    have h := hR.linked
    rw [map_append] at h
    exact (linked_append.1 h).2.2
  -- the block and what is behind it
  obtain ⟨m1, hj1, ho1, hptr1, hsize1⟩ := join_spec (x := B) (V := V) (y := fun s => s.ptr O P.1)
    (hmap B mem_cons_self) (hR.sizes B (by simp))
    (fun c hc => ⟨hmap c (by simp [hc]), hR.sizes c (by simp [hc]), hBW c (by simp [hc]),
      hhigh c (.inl (by simp [hc]))⟩)
    hlinkV (by omega)
    (fun m' ho => by
      rw [Header.ptr (s := { s with mem := m' }) (hmap P (by simp))]
      exact congrArg _ ((ho.ptrAt hBP).trans hR.next))
    (fun _ => by omega) (hhigh B (.inr mem_cons_self))
  obtain ⟨hC1, hC2, hCs⟩ := coalesce_spec B V
  have hCend := coalesce_end (b := B) (l := V) (hhigh B (.inr mem_cons_self))
    fun c hc => hhigh c (.inl (by simp [hc]))
  have hlinkC : Linked (ptrAt m1) ((coalesce B V).2.map fst) base := by
    refine (linked_coalesce hlinkV).congr fun x hx => ?_
    obtain ⟨c, hc, rfl⟩ := mem_map.1 hx
    exact ho1.ptrAt (hBW c (by simp [hCs.subset hc]))
  generalize coalesce B V = C at *
  have hsizeC : ∀ c ∈ C.2, c.2 = 16 * sizeAt m1 c.1 := by
    intro c hc
    rw [ho1.sizeAt (hBW c (by simp [hCs.subset hc]))]
    exact hR.sizes c (by simp [hCs.subset hc])
  have hPC : ∀ c ∈ C.1 :: C.2, Apart P.1 c.1 := by
    intro c hc
    rcases mem_cons.1 hc with rfl | hc
    · rw [hC1]
      exact hBP.symm
    · exact hPW c (by simp [hCs.subset hc])
  -- the block before it and the result
  obtain ⟨m2, hj2, ho2, hptr2, hsize2⟩ := join_spec (s := { s with mem := m1 }) (O := O) (x := P)
    (V := C.1 :: C.2) (y := fun _ => pure B.1) (hmap P (by simp))
    (by
      rw [ho1.sizeAt hBP]
      exact hR.sizes P (by simp))
    (fun c hc => by
      refine ⟨?_, ?_, hPC c hc, ?_⟩
      · rcases mem_cons.1 hc with rfl | hc
        · rw [hC1]
          exact hmap B mem_cons_self
        · exact hmap c (by simp [hCs.subset hc])
      · grind
      · rcases mem_cons.1 hc with rfl | hc
        · exact hCend
        · exact hhigh c (.inl (by simp [hCs.subset hc])))
    ⟨by rw [hC1]; exact hptr1, hlinkC⟩ (by omega)
    (fun m' _ => by
      show Except.ok B.1 = Except.ok C.1.1
      rw [hC1])
    (fun h => absurd h (cons_ne_nil _ _)) (hhigh P (.inl (by simp)))
  obtain ⟨hD1, hD2, hDs⟩ := coalesce_spec P (C.1 :: C.2)
  have hlinkD : Linked (ptrAt m2) ((coalesce P (C.1 :: C.2)).2.map fst) base := by
    refine (linked_coalesce (V := C.1 :: C.2) ⟨by rw [hC1]; exact hptr1, hlinkC⟩).congr fun x hx => ?_
    obtain ⟨c, hc, rfl⟩ := mem_map.1 hx
    exact ho2.ptrAt (hPC c (hDs.subset hc))
  refine ⟨m1, m2, hj1, hj2, ho1, ho2, ?_, ?_⟩
  · rw [map_append]
    refine linked_append.2 ⟨?_, ?_, hlinkD⟩
    · have h := hR.linked
      rw [map_append] at h
      have hW : Linked (ptrAt s.mem) (W.map fst) P.1 := (linked_append.1 h).1
      show Linked (ptrAt m2) (W.map fst) (coalesce P (C.1 :: C.2)).1.1
      rw [hD1]
      refine hW.congr fun x hx => ?_
      obtain ⟨c, hc, rfl⟩ := mem_map.1 hx
      rw [ho2.ptrAt (hPW c (by simp [hc])), ho1.ptrAt (hBW c (by simp [hc]))]
    · show ptrAt m2 (coalesce P (C.1 :: C.2)).1.1 = _
      rw [hD1]
      exact hptr2
  · intro b hb
    have hother : ∀ c ∈ W ++ L, c.2 = 16 * sizeAt m2 c.1 := by
      intro c hc
      have hBc : Apart B.1 c.1 := by
        rcases mem_append.1 hc with h | h
        · exact hBW c (by simp [h])
        · exact hBL c h
      have hPc : Apart P.1 c.1 := by
        rcases mem_append.1 hc with h | h
        · exact hPW c (by simp [h])
        · exact hPL c h
      rw [ho2.sizeAt hPc, ho1.sizeAt hBc]
      refine hR.sizes c ?_
      rcases mem_append.1 hc with h | h <;> simp [h]
    rcases mem_append.1 hb with hb | hb
    · rcases mem_append.1 hb with hb | hb
      · exact hother b (by simp [hb])
      · rcases mem_cons.1 hb with rfl | hb
        · rw [hD1]
          exact hsize2
        · have hbC := hDs.subset hb
          rw [ho2.sizeAt (hPC b hbC)]
          rcases mem_cons.1 hbC with rfl | hbC
          · rw [hC1]
            exact hsize1
          · exact hsizeC b hbC
    · exact hother b (by simp [hb])

/-- What `free` leaves. -/
structure Freed (base : Nat) (got : List Extent) (s : Proc σ) (R L : List Extent) (B : Extent)
    (s' : Proc σ) (R' : List Extent) : Prop where
  os : s'.os = s.os
  obtained : s'.got = s.got
  freep : s'.freep ∈ R'.map Prod.fst
  arena : Arena base R' L got
  rep : Rep base s'.mem R' L
  headers : ∀ b ∈ R', ∃ c ∈ B :: R, c.1 = b.1
  length : R'.length ≤ R.length + 1
  room : ∃ b ∈ R', B.2 ≤ b.2
  /-- Only headers of free blocks are written. -/
  frame : ∀ x, (∀ b ∈ B :: R, x < b.1 ∨ b.1 + 16 ≤ x) → s'.mem x = s.mem x

theorem free_spec (hA : Arena base R (B :: L) got) (hR : Rep base s.mem R (B :: L))
    (hmap : ∀ b ∈ B :: R, Header O s.os b.1) (hf : s.freep ∈ R.map fst)
    (hfuel : R.length ≤ fuel) :
    ∃ s' R', s.free O fuel (B.1 + 16) = .ok s' ∧ Freed base got s R L B s' R' := by
  obtain ⟨W, P, V, rfl, hP, hV, hwalk⟩ := free_search hA hR
    (fun b hb => hmap b (mem_cons_of_mem B hb)) hf hfuel
  obtain ⟨m1, m2, hj1, hj2, ho1, ho2, hrep⟩ := joins_spec hA hR hmap
  have hback : back (B.1 + 16) = B.1 := by
    have := hA.high (b := B) (by simp)
    unfold back
    omega
  obtain ⟨hC1, hC2, hCs⟩ := coalesce_spec B V
  obtain ⟨hD1, hD2, hDs⟩ := coalesce_spec P ((coalesce B V).1 :: (coalesce B V).2)
  refine ⟨{ s with mem := m2, freep := P.1 }, _, ?_, rfl, rfl, ?_, hA.give_back hP hV, hrep, ?_, ?_, ?_, ?_⟩
  · unfold Proc.free
    simp only [hback]
    rw [hwalk, ok_bind, hj1, ok_bind, hj2, ok_bind]
    rfl
  · simp [hD1]
  · intro b hb
    rcases mem_append.1 hb with hb | hb
    · exact ⟨b, by simp [hb], rfl⟩
    rcases mem_cons.1 hb with rfl | hb
    · exact ⟨P, by simp, hD1.symm⟩
    rcases mem_cons.1 (hDs.subset hb) with rfl | hb
    · exact ⟨B, by simp, hC1.symm⟩
    · exact ⟨b, by simp [hCs.subset hb], rfl⟩
  · grind
  · -- the block itself is in the list, or is part of the one before it
    by_cases hmeet : P.1 + P.2 = (coalesce B V).1.1
    · grind [coalesce]
    · refine ⟨(coalesce B V).1, ?_, hC2⟩
      rw [coalesce_gap hmeet]
      simp
  · intro x hx
    show m2 x = s.mem x
    rw [ho2 x (hx P (by simp)), ho1 x (hx B mem_cons_self)]

end Xv6.Umalloc
