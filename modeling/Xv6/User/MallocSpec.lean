/-
  WHAT `malloc` DOES TO THE BLOCKS.

  `take_exact` and `take_split` hand out a free block or its tail, `scan_spec` is the search along
  the ring, `morecore_spec` the way new memory enters the list: it is a live block for a moment, and
  `free` takes it back.  As before only headers are touched, so the lemmas also speak of a block
  whose memory is not all there.
-/
import Xv6.User.FreeSpec

namespace Xv6.Umalloc

open Bytes Extents Chain List Umalloc.Proc Prod

variable {B P : Extent} {V W : List Extent} {h v : Nat}

variable {σ : Type} {O : Os σ} {s : Proc σ} {base fuel nunits : Nat} {m : Bytes} {R L got : List Extent}

/-! ## Handing out a block -/

section Members

variable {x : Extent}

theorem mem_live (h : x ∈ R ++ B :: L) : x = B ∨ x ∈ R ++ L := by
  simp only [mem_append, mem_cons] at h ⊢
  tauto

theorem mem_with (h : x ∈ W ++ P :: V ++ L) : x ∈ W ++ P :: B :: V ++ L := by
  simp only [mem_append, mem_cons] at h ⊢
  tauto

theorem mem_without (h : x ∈ W ++ P :: B :: V ++ L) (hx : x ≠ B) : x ∈ W ++ P :: V ++ L := by
  simp only [mem_append, mem_cons] at h ⊢
  tauto

end Members

/-- What `malloc` leaves when it hands out the block at `q`. -/
structure Took (base : Nat) (got : List Extent) (s : Proc σ) (R L : List Extent) (nunits q : Nat)
    (s' : Proc σ) (R' : List Extent) : Prop where
  os : s'.os = s.os
  obtained : s'.got = s.got
  freep : s'.freep ∈ R'.map Prod.fst
  arena : Arena base R' ((q, 16 * nunits) :: L) got
  rep : Rep base s'.mem R' ((q, 16 * nunits) :: L)
  headers : ∀ b ∈ R', ∃ c ∈ R, c.1 = b.1
  /-- Only free blocks and the header of `base` are written. -/
  frame : ∀ x, (∀ b ∈ R, x < b.1 ∨ b.1 + max 16 b.2 ≤ x) → s'.mem x = s.mem x

namespace Arena

variable {U : List Extent}

/-- All of a free block is handed out. -/
theorem take_all (hA : Arena base (U ++ B :: V) L got) (hU : U ≠ []) (hB : 16 ≤ B.2) :
    Arena base (U ++ V) (B :: L) got := by
  have hsub : (U ++ V).Sublist (U ++ B :: V) := (sublist_cons_self B V).append_left U
  refine { hA with head := ?_, spaced := hA.spaced.sublist hsub, cover := ?_, free := ?_, live := ?_ }
  · obtain ⟨fs, hfs⟩ := hA.head
    obtain ⟨u, U, rfl⟩ := exists_cons_of_ne_nil hU
    obtain ⟨rfl, -⟩ := cons.inj hfs
    exact ⟨_, rfl⟩
  · intro x
    have h := hA.cover x
    simp only [covers_append, covers_cons] at h ⊢
    omega
  · exact fun b hb => hA.free b (hsub.subset hb)
  · intro b hb
    rcases mem_cons.1 hb with rfl | hb
    · exact hB
    · exact hA.live b hb

/-- The tail of a free block is handed out. -/
theorem take_tail (hA : Arena base (U ++ B :: V) L got) (hU : U ≠ []) {k n : Nat} (hk : 16 ≤ k)
    (hn : 16 ≤ n) (hB : B.2 = k + n) :
    Arena base (U ++ (B.1, k) :: V) ((B.1 + k, n) :: L) got := by
  obtain ⟨hBV, hV⟩ := pairwise_cons.1 (pairwise_append.1 hA.spaced).2.1
  refine { hA with head := ?_, spaced := ?_, cover := ?_, free := ?_, live := ?_ }
  · obtain ⟨fs, hfs⟩ := hA.head
    obtain ⟨u, U, rfl⟩ := exists_cons_of_ne_nil hU
    obtain ⟨rfl, -⟩ := cons.inj hfs
    exact ⟨_, rfl⟩
  · refine hA.spaced.replace (pairwise_cons.2 ⟨fun c hc => ?_, hV⟩) rfl
    have := hBV c hc
    omega
  · grind [Arena, covers_split, covers_append, covers_cons]
  · intro b hb
    rcases mem_append.1 hb with hb | hb
    · exact hA.free b (by simp [hb])
    rcases mem_cons.1 hb with rfl | hb
    · exact .inr hk
    · exact hA.free b (by simp [hb])
  · intro b hb
    rcases mem_cons.1 hb with rfl | hb
    · exact hn
    · exact hA.live b hb

end Arena

/-- The block of exactly the right size is unlinked. -/
theorem take_exact (hA : Arena base (W ++ P :: B :: V) L got)
    (hR : Rep base s.mem (W ++ P :: B :: V) L) (hmap : ∀ b ∈ W ++ P :: B :: V, Header O s.os b.1)
    (hn : 1 ≤ nunits) (hfit : B.2 = 16 * nunits) :
    ∃ s' R', s.take O nunits P.1 B.1 = .ok (B.1 + 16, s') ∧
      Took base got s (W ++ P :: B :: V) L nunits B.1 s' R' := by
  have hsize := hR.sizes B (by simp)
  have hn' : sizeAt s.mem B.1 = nunits := by omega
  have hhigh := hA.high (b := B) (by simp)
  have hnext : ptrAt s.mem B.1 = (V.map fst).headD base :=
    Rep.next (W := W ++ [P]) (by simpa using hR)
  have hlt : (V.map fst).headD base < 18446744073709551616 := by
    cases V with
    | nil =>
      have := hA.place
      show base < _
      omega
    | cons c V =>
      have := hA.high (b := c) (by simp)
      show c.1 < _
      omega
  have hother : ∀ c ∈ W ++ B :: V, Apart P.1 c.1 := fun c hc => hA.ring_apart hc
  have hlive : ∀ c ∈ L, Apart P.1 c.1 := fun c hc => (hA.live_apart hc (by simp)).symm
  have honly := only_put64 s.mem P.1 ((V.map fst).headD base)
  obtain ⟨hW, -, hBV⟩ : Linked (ptrAt s.mem) (W.map fst) P.1 ∧
      ptrAt s.mem P.1 = B.1 ∧ Linked (ptrAt s.mem) ((B :: V).map fst) base := by
    have h := hR.linked
    rw [map_append] at h
    exact linked_append.1 h
  have hB : (B.1, 16 * nunits) = B := by rw [← hfit]
  refine ⟨{ s with mem := put64 s.mem P.1 ((V.map fst).headD base), freep := P.1 },
    W ++ P :: V, ?_, rfl, rfl, by simp, ?_, ⟨?_, ?_⟩, ?_, ?_⟩
  · unfold Proc.take
    rw [(hmap B (by simp)).size, ok_bind, if_pos hn', (hmap B (by simp)).ptr, ok_bind, hnext,
      (hmap P (by simp)).setPtr, ok_bind]
    have hfwd : forward B.1 1 = B.1 + 16 := by
      unfold forward
      omega
    rw [hfwd]
    rfl
  · rw [hB]
    have := Arena.take_all (U := W ++ [P]) (by simpa using hA) (by simp) (by omega)
    simpa using this
  · rw [map_append]
    refine linked_append.2 ⟨hW.congr fun x hx => ?_, ptrAt_put64 hlt, hBV.2.congr fun x hx => ?_⟩
    · obtain ⟨c, hc, rfl⟩ := mem_map.1 hx
      exact honly.ptrAt (hother c (by simp [hc]))
    · obtain ⟨c, hc, rfl⟩ := mem_map.1 hx
      exact honly.ptrAt (hother c (by simp [hc]))
  · rw [hB]
    intro b hb
    by_cases hbP : b = P
    · subst hbP
      rw [sizeAt_put64]
      exact hR.sizes b (by simp)
    · have hap : Apart P.1 b.1 := by grind
      rw [honly.sizeAt hap]
      rcases mem_live hb with rfl | hb
      · exact hR.sizes b (by simp)
      · exact hR.sizes b (mem_with hb)
  · intro b hb
    exact ⟨b, (((sublist_cons_self B V).cons_cons P).append_left W).subset hb, rfl⟩
  · intro x hx
    have := hx P (by simp)
    exact honly x (by omega)

/-- A larger block gives its tail. -/
theorem take_split (hA : Arena base (W ++ P :: B :: V) L got)
    (hR : Rep base s.mem (W ++ P :: B :: V) L) (hmap : ∀ b ∈ W ++ P :: B :: V, Header O s.os b.1)
    (hn : 1 ≤ nunits) (hfit : 16 * nunits < B.2)
    (htail : Header O s.os (B.1 + B.2 - 16 * nunits)) :
    ∃ s' R', s.take O nunits P.1 B.1 = .ok (B.1 + B.2 - 16 * nunits + 16, s') ∧
      Took base got s (W ++ P :: B :: V) L nunits (B.1 + B.2 - 16 * nunits) s' R' := by
  have hsize := hR.sizes B (by simp)
  have hhigh := hA.high (b := B) (by simp)
  have hA' : Arena base ((W ++ [P]) ++ B :: V) L got := by simpa using hA
  obtain ⟨n, hn0⟩ : ∃ n, n = sizeAt s.mem B.1 := ⟨_, rfl⟩
  obtain ⟨k, hk⟩ : ∃ k, n = k + nunits := ⟨n - nunits, by omega⟩
  have hB2 : B.2 = 16 * k + 16 * nunits := by omega
  have hq : B.1 + B.2 - 16 * nunits = B.1 + 16 * k := by omega
  rw [hq] at htail ⊢
  -- the other headers stay clear of the block
  have hclear : ∀ c ∈ W ++ P :: V ++ L, c.1 + 16 ≤ B.1 ∨ B.1 + B.2 ≤ c.1 := by
    intro c hc
    rcases mem_append.1 hc with hc | hc
    · have hsp := pairwise_append.1 hA'.spaced
      have hc' : c ∈ (W ++ [P]) ++ V := by simpa using hc
      rcases mem_append.1 hc' with hc | hc
      · exact .inl (hA'.free_apart (mem_append_left _ hc) (by simp)
          (hsp.2.2 c hc B mem_cons_self))
      · exact .inr (Nat.le_of_lt ((pairwise_cons.1 hsp.2.1).1 c hc))
    · have := hA.live c hc
      rcases hA.live_disjoint (c := B) hc (by simp) with h | h <;> omega
  let m1 := put32 s.mem (B.1 + 8) k
  let m2 := put32 m1 (B.1 + 16 * k + 8) nunits
  have ho1 : Only B.1 s.mem m1 := only_put32 _ _ _
  have ho2 : Only (B.1 + 16 * k) m1 m2 := only_put32 _ _ _
  have hsize1 : sizeAt m1 B.1 = k := sizeAt_put32 (by omega)
  have hBq : Apart (B.1 + 16 * k) B.1 := by unfold Apart; omega
  have hkeepB : ∀ c ∈ W ++ P :: V ++ L, Apart B.1 c.1 ∧ Apart (B.1 + 16 * k) c.1 := by
    intro c hc
    have := hclear c hc
    unfold Apart
    omega
  have hptr : ∀ x ∈ (W ++ P :: B :: V).map fst, ptrAt m2 x = ptrAt s.mem x := by
    intro x hx
    obtain ⟨c, hc, rfl⟩ := mem_map.1 hx
    by_cases hcB : c = B
    · subst hcB
      rw [ho2.ptrAt hBq]
      exact ptrAt_put32
    · obtain ⟨h1, h2⟩ := hkeepB c (mem_without (mem_append_left L hc) hcB)
      rw [ho2.ptrAt h2, ho1.ptrAt h1]
  refine ⟨{ s with mem := m2, freep := P.1 }, W ++ P :: (B.1, 16 * k) :: V, ?_, rfl, rfl, by simp,
    ?_, ⟨?_, ?_⟩, ?_, ?_⟩
  · let s1 : Proc σ := { s with mem := m1 }
    have hread : s1.size O B.1 = .ok k := by
      rw [Header.size (s := s1) (hmap B (by simp))]
      exact congrArg _ hsize1
    have hfwd : forward B.1 k = B.1 + 16 * k := by
      unfold forward
      omega
    have hfwd' : forward (B.1 + 16 * k) 1 = B.1 + 16 * k + 16 := by
      unfold forward
      omega
    have hsub : n - nunits = k := by omega
    unfold Proc.take
    rw [(hmap B (by simp)).size, ok_bind, ← hn0, if_neg (by omega), hsub,
      (hmap B (by simp)).setSize, ok_bind, hread, ok_bind, hfwd]
    show (s1.setSize O (B.1 + 16 * k) nunits >>= fun s =>
      pure (forward (B.1 + 16 * k) 1, { s with freep := P.1 })) = _
    rw [Header.setSize (s := s1) htail, ok_bind, hfwd']
    rfl
  · have := hA'.take_tail (by simp) (by omega : 16 ≤ 16 * k) (by omega : 16 ≤ 16 * nunits) hB2
    simpa using this
  · have hmapeq : (W ++ P :: (B.1, 16 * k) :: V).map fst = (W ++ P :: B :: V).map fst := by
      simp
    rw [hmapeq]
    exact hR.linked.congr hptr
  · intro b hb
    by_cases hbq : b = (B.1 + 16 * k, 16 * nunits)
    · subst hbq
      exact congrArg (16 * ·) (sizeAt_put32 (by omega)).symm
    by_cases hbB : b = (B.1, 16 * k)
    · subst hbB
      rw [ho2.sizeAt hBq, hsize1]
    · have hbo : b ∈ W ++ P :: V ++ L := mem_without ((mem_live hb).resolve_left hbq) hbB
      obtain ⟨h1, h2⟩ := hkeepB b hbo
      rw [ho2.sizeAt h2, ho1.sizeAt h1]
      exact hR.sizes b (mem_with hbo)
  · intro b hb
    by_cases hbB : b = (B.1, 16 * k)
    · exact ⟨B, by simp, by rw [hbB]⟩
    · have hb' := mem_with (B := B) (mem_without (mem_append_left [] hb) hbB)
      exact ⟨b, by simpa using hb', rfl⟩
  · intro x hx
    have := hx B (by simp)
    show m2 x = s.mem x
    rw [ho2 x (by omega), ho1 x (by omega)]

/-! ## The search -/

/-- `malloc`'s search along the ring: it takes the first block that is big enough, or comes to
    `freep` and asks for more memory.  Induction on what is still to come before `freep`. -/
theorem scan_spec {prevp : Nat} {c : List Nat} (hlink : Linked (ptrAt s.mem) (prevp :: c) s.freep)
    (hfc : s.freep ∉ c) (hmap : ∀ x ∈ s.freep :: c, Header O s.os x) (nunits fuel : Nat) :
    (∃ x ∈ prevp :: c, nunits ≤ sizeAt s.mem (ptrAt s.mem x) ∧
      mallocFrom O nunits (c.length + 1 + fuel) prevp (ptrAt s.mem prevp) s =
        s.take O nunits x (ptrAt s.mem x)) ∨
    ((∀ y ∈ s.freep :: c, sizeAt s.mem y < nunits) ∧
      mallocFrom O nunits (c.length + 1 + fuel) prevp (ptrAt s.mem prevp) s = (do
          let r ← s.morecore O fuel nunits
          if r.1 = 0 then pure (0, r.2)
          else do
            let q ← r.2.ptr O r.1
            mallocFrom O nunits fuel r.1 q r.2)) := by
  induction c generalizing prevp with
  | nil =>
    have hp : ptrAt s.mem prevp = s.freep := hlink.1
    have hfuel : length ([] : List Nat) + 1 + fuel = fuel + 1 := by
      rw [length_nil]
      omega
    rw [hp, hfuel, mallocFrom, (hmap _ mem_cons_self).size, ok_bind]
    by_cases hfit : nunits ≤ sizeAt s.mem s.freep
    · exact .inl ⟨prevp, mem_cons_self, by rw [hp]; exact hfit, by rw [if_pos hfit, hp]⟩
    · grind
  | cons y c ih =>
    have hp : ptrAt s.mem prevp = y := hlink.1
    have hfy : y ≠ s.freep := fun e => hfc (by simp [e])
    have hfuel : (y :: c).length + 1 + fuel = (c.length + 1 + fuel) + 1 := by
      rw [length_cons]
      omega
    have hy := hmap y (by simp)
    rw [hp, hfuel, mallocFrom, hy.size, ok_bind]
    by_cases hfit : nunits ≤ sizeAt s.mem y
    · exact .inl ⟨prevp, mem_cons_self, by rw [hp]; exact hfit, by rw [if_pos hfit, hp]⟩
    · rw [if_neg hfit, if_neg hfy, hy.ptr, ok_bind]
      rcases ih hlink.2 (fun h => hfc (mem_cons_of_mem y h))
        (fun x hx => hmap x (by rcases mem_cons.1 hx with h | h <;> simp [h])) with
        ⟨x, hx, hxf, heq⟩ | ⟨hno, heq⟩
      · exact .inl ⟨x, mem_cons_of_mem _ hx, hxf, heq⟩
      · grind

/-- A free block that is big enough: `malloc` hands out (a part of) one. -/
theorem mallocFrom_fits (hA : Arena base R L got) (hR : Rep base s.mem R L)
    (hmap : ∀ b ∈ R, Header O s.os b.1) (hf : s.freep ∈ R.map fst) (hn : 1 ≤ nunits)
    (hfit : ∃ b ∈ R, 16 * nunits ≤ b.2)
    (htail : ∀ b ∈ R, 16 * nunits ≤ b.2 → Header O s.os (b.1 + b.2 - 16 * nunits))
    (hfuel : R.length ≤ fuel) :
    ∃ q s' R', mallocFrom O nunits fuel s.freep (ptrAt s.mem s.freep) s = .ok (q + 16, s') ∧
      Took base got s R L nunits q s' R' := by
  obtain ⟨c, hlink, hfc, hlen, hmem, hmap'⟩ := hR.ring hA hmap hf
  have hfuel' : fuel = c.length + 1 + (fuel - R.length) := by omega
  rw [hfuel']
  rcases scan_spec hlink hfc hmap' nunits (fuel - R.length) with
    ⟨x, hx, hxf, heq⟩ | ⟨hno, -⟩
  · rw [heq]
    obtain ⟨P, hP, rfl⟩ := mem_map.1 ((hmem x).1 hx)
    obtain ⟨W, V, rfl⟩ := append_of_mem hP
    rw [hR.next] at hxf ⊢
    have hzero : sizeAt s.mem base = 0 := by
      obtain ⟨fs, hfs⟩ := hA.head
      have : 0 = 16 * sizeAt s.mem base := hR.sizes (base, 0) (by rw [hfs]; simp)
      omega
    cases V with
    | nil =>
      -- `base` is empty
      have : nunits ≤ sizeAt s.mem base := hxf
      omega
    | cons B V =>
      have hBf : nunits ≤ sizeAt s.mem B.1 := hxf
      have hsize := hR.sizes B (by simp)
      rcases Nat.lt_or_eq_of_le (show 16 * nunits ≤ B.2 by omega) with hlt | heq
      · obtain ⟨s', R', hs, hT⟩ := take_split hA hR hmap hn hlt (htail B (by simp) (by omega))
        exact ⟨_, s', R', hs, hT⟩
      · obtain ⟨s', R', hs, hT⟩ := take_exact hA hR hmap hn heq.symm
        exact ⟨_, s', R', hs, hT⟩
  · obtain ⟨b, hb, hbn⟩ := hfit
    have := hno b.1 ((hmem _).2 (mem_map.2 ⟨b, hb, rfl⟩))
    have := hR.sizes b (by simp [hb])
    omega

/-- No free block is big enough: `malloc` asks for more memory, and starts again. -/
theorem mallocFrom_none (hA : Arena base R L got) (hR : Rep base s.mem R L)
    (hmap : ∀ b ∈ R, Header O s.os b.1) (hf : s.freep ∈ R.map fst)
    (hno : ∀ b ∈ R, b.2 < 16 * nunits) :
    mallocFrom O nunits (R.length + fuel) s.freep (ptrAt s.mem s.freep) s = (do
        let r ← s.morecore O fuel nunits
        if r.1 = 0 then pure (0, r.2)
        else do
          let q ← r.2.ptr O r.1
          mallocFrom O nunits fuel r.1 q r.2) := by
  obtain ⟨c, hlink, hfc, hlen, hmem, hmap'⟩ := hR.ring hA hmap hf
  rw [← hlen]
  rcases scan_spec hlink hfc hmap' nunits fuel with ⟨x, hx, hxf, -⟩ | ⟨-, heq⟩
  · have hnext : ptrAt s.mem x ∈ s.freep :: c :=
      (hlink.next_mem hx).elim id fun e => by rw [e]; exact mem_cons_self
    obtain ⟨b, hb, hbx⟩ := mem_map.1 ((hmem _).1 hnext)
    have := hno b hb
    have := hR.sizes b (by simp [hb])
    rw [hbx] at this
    omega
  · exact heq

/-! ## New memory -/

/-- `morecore`'s size. -/
def morecoreUnits (nunits : Nat) : Nat := if nunits < 4096 then 4096 else nunits

/-- When `sbrk` fails so does `morecore`. -/
theorem morecore_fails {os' : σ}
    (hsbrk : O.sbrk s.os (toInt (morecoreUnits nunits * 16)) = .ok (FAILED, os')) :
    s.morecore O fuel nunits = .ok (0, { s with
      os := os'
      mem := fun x => if O.mapped os' x && !O.mapped s.os x then 0 else s.mem x }) := by
  show (((O.sbrk s.os (toInt (morecoreUnits nunits * 16)) >>= _) >>= _) = _)
  rw [hsbrk]
  rfl

/-- `sbrk` has answered with `a`: the block there joins the free ones. -/
theorem morecore_spec {a : Nat} {os' : σ}
    (hsbrk : O.sbrk s.os (toInt (morecoreUnits nunits * 16)) = .ok (a, os')) (ha : a ≠ FAILED)
    (hA : Arena base R ((a, 16 * morecoreUnits nunits) :: L) got) (hR : Rep base s.mem R L)
    (hold : ∀ b ∈ R ++ L, Header O s.os b.1)
    (hnew : ∀ b ∈ (a, 16 * morecoreUnits nunits) :: R, Header O os' b.1)
    (hf : s.freep ∈ R.map fst) (hfuel : R.length ≤ fuel) :
    ∃ s1 s' R', s.morecore O fuel nunits = .ok (s'.freep, s') ∧ s1.os = os' ∧
      s1.got = (a, (toInt (morecoreUnits nunits * 16)).toNat) :: s.got ∧
      (∀ x, O.mapped s.os x = true → x < a ∨ a + 16 ≤ x → s1.mem x = s.mem x) ∧
      Freed base got s1 R L (a, 16 * morecoreUnits nunits) s' R' := by
  generalize hu : morecoreUnits nunits = nu at *
  let m0 : Bytes := fun x => if O.mapped os' x && !O.mapped s.os x then 0 else s.mem x
  let s0 : Proc σ := { s with os := os', mem := m0, got := (a, (toInt (nu * 16)).toNat) :: s.got }
  let s1 : Proc σ := { s0 with mem := put32 m0 (a + 8) nu }
  have hhigh : a + 16 * nu < 68719476736 := hA.high (b := (a, 16 * nu)) (by simp)
  have hkeep : ∀ x, O.mapped s.os x = true → m0 x = s.mem x := by grind
  have honly : Only a m0 s1.mem := only_put32 _ _ _
  have hkeep1 : ∀ x, O.mapped s.os x = true → x < a ∨ a + 16 ≤ x → s1.mem x = s.mem x :=
    fun x hx hxa => (honly x hxa).trans (hkeep x hx)
  -- the headers there were are still there
  have hapart : ∀ b ∈ R ++ L, Apart a b.1 := by
    intro b hb
    rcases mem_append.1 hb with hb | hb
    · exact hA.live_apart (b := (a, 16 * nu)) mem_cons_self hb
    · have h16 : 16 ≤ 16 * nu := hA.live (a, 16 * nu) mem_cons_self
      have hb16 := hA.live b (mem_cons_of_mem _ hb)
      have h : a + 16 * nu ≤ b.1 ∨ b.1 + b.2 ≤ a := hA.lives_apart hb
      unfold Apart
      omega
  have hR0 : Rep base s1.mem R L := hR.congr fun b hb i hi =>
    hkeep1 _ (hold b hb i hi) (by
      have := hapart b hb
      unfold Apart at this
      omega)
  have hR1 : Rep base s1.mem R ((a, 16 * nu) :: L) := by
    refine ⟨hR0.linked, fun b hb => ?_⟩
    rcases mem_live hb with rfl | hb
    · exact congrArg (16 * ·) (sizeAt_put32 (by omega)).symm
    · exact hR0.sizes b hb
  obtain ⟨s', R', hfree, hF⟩ := free_spec (s := s1) hA hR1 hnew hf hfuel
  refine ⟨s1, s', R', ?_, rfl, rfl, hkeep1, hF⟩
  have hfwd : forward a 1 = a + 16 := by
    unfold forward
    omega
  have hcall : s.sbrk O (toInt (nu * 16)) = .ok (a, s0) := by
    unfold sbrk
    rw [hsbrk, ok_bind, if_neg ha]
    rfl
  have hset : s0.setSize O a nu = .ok s1 := Header.setSize (s := s0) (hnew _ mem_cons_self) nu
  show ((s.sbrk O (toInt (morecoreUnits nunits * 16)) >>= _) = _)
  rw [hu, hcall, ok_bind, if_neg ha]
  show (s0.setSize O a (morecoreUnits nunits) >>= fun s => s.free O fuel (forward a 1) >>= fun s =>
    pure (s.freep, s)) = _
  rw [hu, hset, ok_bind, hfwd, hfree, ok_bind]
  rfl

/-! ## What a call that comes back has touched -/

theorem bind_ok {α β : Type} {x : Except Stop α} {f : α → Except Stop β} {b : β}
    (h : (x >>= f) = .ok b) : ∃ a, x = .ok a ∧ f a = .ok b := by
  cases x with
  | error e => cases h
  | ok a => exact ⟨a, rfl, h⟩

theorem setPtr_ok {s' : Proc σ} (hs : s.setPtr O h v = .ok s') : s.can O h 8 = true := by
  unfold setPtr at hs
  split at hs
  · assumption
  · cases hs

theorem setSize_ok {s' : Proc σ} (hs : s.setSize O h v = .ok s') :
    s.can O (h + 8) 4 = true ∧ s'.os = s.os := by
  unfold setSize at hs
  split at hs
  · obtain rfl := Except.ok.inj hs
    exact ⟨‹_›, rfl⟩
  · cases hs

/-- Both ways `join` ends with the pointer of its first block. -/
theorem join_ok {x : Nat} {y : Proc σ → Except Stop Nat} {s' : Proc σ}
    (h : s.join O x y = .ok s') : s.can O x 8 = true := by
  obtain ⟨k, -, h⟩ := bind_ok h
  obtain ⟨q, -, h⟩ := bind_ok h
  by_cases hmeet : forward x k = q
  · rw [if_pos hmeet] at h
    obtain ⟨j, -, h⟩ := bind_ok h
    obtain ⟨s1, hs1, h⟩ := bind_ok h
    obtain ⟨q1, -, h⟩ := bind_ok h
    obtain ⟨r, -, h⟩ := bind_ok h
    have hcan := setPtr_ok h
    unfold can at hcan ⊢
    rwa [(setSize_ok hs1).2] at hcan
  · rw [if_neg hmeet] at h
    exact setPtr_ok h

/-- If `morecore` comes back, `sbrk` has failed or the header of the new block can be touched. -/
theorem morecore_ok {r : Nat} {s' : Proc σ} (h : s.morecore O fuel nunits = .ok (r, s')) :
    ∃ a os', O.sbrk s.os (toInt (morecoreUnits nunits * 16)) = .ok (a, os') ∧
      (a = FAILED ∧ r = 0 ∨ a ≠ FAILED ∧ (a + 16 < 18446744073709551616 → Header O os' a)) := by
  obtain ⟨x, hx, h⟩ := bind_ok h
  obtain ⟨y, hy, hyx⟩ := bind_ok hx
  obtain rfl := Except.ok.inj hyx
  refine ⟨y.1, y.2, hy, ?_⟩
  by_cases hfail : y.1 = FAILED
  · rw [if_pos hfail] at h
    exact .inl ⟨hfail, (congrArg fst (Except.ok.inj h)).symm⟩
  rw [if_neg hfail] at h
  refine .inr ⟨hfail, fun hlt => ?_⟩
  obtain ⟨s1, hs1, h⟩ := bind_ok h
  obtain ⟨s2, hs2, -⟩ := bind_ok h
  obtain ⟨hsize, hos⟩ := setSize_ok hs1
  obtain ⟨p, -, hs2⟩ := bind_ok hs2
  obtain ⟨s3, hs3, -⟩ := bind_ok hs2
  have hback : back (forward y.1 1) = y.1 := by
    unfold back forward
    omega
  have hptr := join_ok hs3
  unfold can at hsize hptr
  rw [hback, hos] at hptr
  rw [all_eq_true] at hsize hptr
  intro i hi
  by_cases hlow : i < 8
  · exact hptr i (mem_range.2 hlow)
  · have := hsize (i - 8) (mem_range.2 (by omega))
    rwa [Nat.add_assoc, Nat.add_sub_cancel' (by omega)] at this

end Xv6.Umalloc
