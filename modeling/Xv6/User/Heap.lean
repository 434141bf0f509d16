/-
  THE HEAP OVER WHOLE RUNS.

  `Grows` is what is asked of the system: `sbrk` fails, or hands out fresh memory above all there
  was.  Over such a system every call of `malloc` and `free` comes back and keeps `Heap`, so after
  any sequence of calls in which `free` gets only what is live, the list, the blocks and their
  contents are as they should be (`heap_integrity`).

  A call RETURNS if it does so with some fuel; more fuel does not change the result (`*_mono`).
-/
import Xv6.User.MallocSpec

namespace Xv6.Umalloc

open Bytes Extents Chain List Umalloc.Proc

variable {σ : Type} {O : Os σ} {I : σ → Prop} {brk : σ → Nat}

/-! ## Fuel -/

theorem bind_mono {α β : Type} {x x' : Except Stop α} {f f' : α → Except Stop β} {b : β}
    (hx : ∀ a, x = .ok a → x' = .ok a) (hf : ∀ a, f a = .ok b → f' a = .ok b)
    (h : (x >>= f) = .ok b) : (x' >>= f') = .ok b := by
  cases x with
  | error e => cases h
  | ok a =>
    rw [hx a rfl]
    exact hf a h

theorem free_mono {fuel' p fuel : Nat} {s s' : Proc σ}
    (hle : fuel ≤ fuel') (h : s.free O fuel p = .ok s') :
    s.free O fuel' p = .ok s' :=
  bind_mono (fun _ hw => walk_mono hw hle) (fun _ h => h) h

theorem morecore_mono {fuel' fuel : Nat} {s : Proc σ} {r : Nat × Proc σ} {nu : Nat} (hle : fuel ≤ fuel')
    (h : s.morecore O fuel nu = .ok r) : s.morecore O fuel' nu = .ok r := by
  refine bind_mono (fun _ h => h) (fun a h => ?_) h
  by_cases ha : a.1 = FAILED
  · rw [if_pos ha] at h ⊢
    exact h
  · rw [if_neg ha] at h ⊢
    exact bind_mono (fun _ h => h)
      (fun _ h => bind_mono (fun _ hf => free_mono hle hf) (fun _ h => h) h) h

theorem mallocFrom_mono {fuel' nunits p fuel : Nat} {s : Proc σ} {r : Nat × Proc σ}
    {prevp : Nat} (hle : fuel ≤ fuel')
    (h : mallocFrom O nunits fuel prevp p s = .ok r) :
    mallocFrom O nunits fuel' prevp p s = .ok r := by
  induction fuel generalizing fuel' prevp p s with
  | zero => exact absurd h (by simp [mallocFrom])
  | succ fuel ih =>
    obtain ⟨fuel', rfl⟩ := Nat.exists_eq_succ_of_ne_zero (by omega : fuel' ≠ 0)
    rw [mallocFrom] at h ⊢
    refine bind_mono (fun _ h => h) (fun k h => ?_) h
    by_cases hfit : nunits ≤ k
    · rw [if_pos hfit] at h ⊢
      exact h
    rw [if_neg hfit] at h ⊢
    by_cases hp : p = s.freep
    · rw [if_pos hp] at h ⊢
      refine bind_mono (fun _ hm => morecore_mono (by omega) hm) (fun a h => ?_) h
      by_cases ha : a.1 = 0
      · rw [if_pos ha] at h ⊢
        exact h
      · rw [if_neg ha] at h ⊢
        exact bind_mono (fun _ h => h) (fun _ h => ih (by omega) h) h
    · rw [if_neg hp] at h ⊢
      exact bind_mono (fun _ h => h) (fun _ h => ih (by omega) h) h

theorem malloc_mono {fuel' base fuel n : Nat} {s : Proc σ} {r : Nat × Proc σ} (hle : fuel ≤ fuel')
    (h : s.malloc O base fuel n = .ok r) : s.malloc O base fuel' n = .ok r :=
  bind_mono (fun _ h => h)
    (fun _ h => bind_mono (fun _ h => h) (fun _ h => mallocFrom_mono hle h) h) h

/-! ## The system and the heap over it -/

/-- `sbrk(n)` comes back: it has failed, or has returned fresh memory above all earlier memory.  The
    size of a process is a `uint`. -/
def Answers (O : Os σ) (I : σ → Prop) (brk : σ → Nat) (os : σ) (n : Nat) : Prop :=
  ∃ a os', O.sbrk os (n : Nat) = .ok (a, os') ∧ I os' ∧ brk os' ≤ 4294967296 ∧
    (∀ x, O.mapped os x = true → O.mapped os' x = true) ∧
    (a = FAILED ∧ brk os' = brk os ∨
      brk os ≤ a ∧ brk os' = a + n ∧ ∀ x, a ≤ x → x < a + n → O.mapped os' x = true)

/-- Every call of `sbrk(n)` for `n` up to `lim` does. -/
structure Grows (O : Os σ) (I : σ → Prop) (brk : σ → Nat) (lim : Nat) : Prop where
  small : ∀ os, I os → brk os ≤ 4294967296
  grow : ∀ os n, I os → 0 < n → n ≤ lim → Answers O I brk os n

/-- The heap in good order: `R` are the free blocks, `L` the live ones. -/
structure Heap (O : Os σ) (base : Nat) (brk : σ → Nat) (s : Proc σ) (R L : List Extent) : Prop where
  arena : Arena base R L s.got
  rep : Rep base s.mem R L
  freep : s.freep ∈ R.map Prod.fst
  static : Header O s.os base ∧ base + 16 ≤ brk s.os
  mapped : ∀ c ∈ s.got, ∀ x, c.1 ≤ x → x < c.1 + c.2 → O.mapped s.os x = true
  below : ∀ c ∈ s.got, c.1 + c.2 ≤ brk s.os

/-- No block is at address 0. -/
theorem freep_pos {L R : List Extent} {p base : Nat}
    {got : List Extent} (hA : Arena base R L got) (hp : p ∈ R.map Prod.fst) :
    p ≠ 0 := by
  obtain ⟨b, hb, rfl⟩ := mem_map.1 hp
  have := hA.place
  rcases hA.free b hb with rfl | h16
  · show base ≠ 0
    omega
  · have := hA.low (mem_append_left L hb) h16
    omega

namespace Heap

/-- Every byte of a block can be touched. -/
theorem byte {b : Extent} {L R : List Extent} {x base : Nat} {s : Proc σ}
    (hH : Heap O base brk s R L) (hb : b ∈ R ++ L) (h1 : b.1 ≤ x)
    (h2 : x < b.1 + b.2) : O.mapped s.os x = true := by
  obtain ⟨c, hc, hx⟩ := hH.arena.obtained hb ⟨h1, h2⟩
  exact hH.mapped c hc x hx.1 hx.2

theorem header {b : Extent} {L R : List Extent} {s : Proc σ} {base : Nat}
    (hH : Heap O base brk s R L) (hb : b ∈ R ++ L) : Header O s.os b.1 := by
  rcases hH.arena.sized hb with rfl | h16
  · exact hH.static.1
  · exact fun i hi => hH.byte hb (by omega) (by omega)

/-- What `free` leaves is in good order. -/
theorem freed {B : Extent} {L R' R : List Extent} {s s' : Proc σ} {base : Nat}
    (hH : Heap O base brk s R (B :: L))
    (hF : Freed base s.got s R L B s' R') : Heap O base brk s' R' L where
  arena := by rw [hF.obtained]; exact hF.arena
  rep := hF.rep
  freep := hF.freep
  static := by rw [hF.os]; exact hH.static
  mapped := by rw [hF.os, hF.obtained]; exact hH.mapped
  below := by rw [hF.os, hF.obtained]; exact hH.below

section

variable {L R : List Extent} {s : Proc σ} {base : Nat} (hH : Heap O base brk s R L)
include hH

/-- What `malloc` leaves is in good order. -/
theorem took {R' : List Extent} {nunits : Nat} {s' : Proc σ} {q : Nat}
    (hT : Took base s.got s R L nunits q s' R') :
    Heap O base brk s' R' ((q, 16 * nunits) :: L) where
  arena := by rw [hT.obtained]; exact hT.arena
  rep := hT.rep
  freep := hT.freep
  static := by rw [hT.os]; exact hH.static
  mapped := by rw [hT.os, hT.obtained]; exact hH.mapped
  below := by rw [hT.os, hT.obtained]; exact hH.below

theorem free {B : Extent} {fuel : Nat} {L' : List Extent} (hp : L.Perm (B :: L'))
    (hfuel : R.length ≤ fuel) :
    ∃ s' R', s.free O fuel (B.1 + 16) = .ok s' ∧ s'.os = s.os ∧ Heap O base brk s' R' L' ∧
      ∀ b ∈ L', ∀ x, b.1 ≤ x → x < b.1 + b.2 → s'.mem x = s.mem x := by
  have hH' : Heap O base brk s R (B :: L') :=
    { hH with
      arena := hH.arena.perm hp
      rep := ⟨hH.rep.linked, fun b hb => hH.rep.sizes b (((hp.append_left R).mem_iff).2 hb)⟩ }
  obtain ⟨s', R', hs, hF⟩ := free_spec hH'.arena hH'.rep
    (fun b hb => hH'.header (by
      rcases mem_cons.1 hb with h | h <;> simp [h])) hH'.freep hfuel
  refine ⟨s', R', hs, hF.os, hH'.freed hF, fun b hb x h1 h2 => hF.frame x fun c hc => ?_⟩
  rcases mem_cons.1 hc with rfl | hc
  · have := hH'.arena.lives_apart hb
    have := hH'.arena.live c mem_cons_self
    omega
  · have := hH'.arena.live_disjoint (mem_cons_of_mem B hb) hc
    omega

/-- Live blocks are not where free ones are. -/
theorem untouched {b : Extent} {x : Nat} {c : Extent} (hb : b ∈ L) (hc : c ∈ R)
    (h1 : b.1 ≤ x) (h2 : x < b.1 + b.2) : x < c.1 ∨ c.1 + max 16 c.2 ≤ x := by
  have := hH.arena.live_disjoint hb hc
  omega

/-- The new memory, as a block that is live for the moment. -/
theorem grown {a : Nat} {k : Nat} (hbrk : brk s.os ≤ a) (hk : 16 ≤ k)
    (hlim : a + k < 68719476736) : Arena base R ((a, k) :: L) ((a, k) :: s.got) := by
  have hfresh : ∀ x, a ≤ x → covers x s.got = 0 := by
    intro x hx
    by_contra hne
    obtain ⟨c, hc, h⟩ := covers_pos.1 (Nat.pos_of_ne_zero hne)
    have := hH.below c hc
    omega
  refine { hH.arena with cover := ?_, once := ?_, live := ?_, above := ?_, bound := ?_ }
  · intro x
    have := hH.arena.cover x
    simp only [covers_append, covers_cons] at this ⊢
    omega
  · intro x
    rw [covers_cons]
    have := hH.arena.once x
    by_cases hx : a ≤ x ∧ x < a + k
    · rw [if_pos hx, hfresh x hx.1]
    · rw [if_neg hx]
      omega
  · intro b hb
    rcases mem_cons.1 hb with rfl | hb
    · exact hk
    · exact hH.arena.live b hb
  · intro c hc
    rcases mem_cons.1 hc with rfl | hc
    · have := hH.static.2
      omega
    · exact hH.arena.above c hc
  · intro c hc
    rcases mem_cons.1 hc with rfl | hc
    · exact hlim
    · exact hH.arena.bound c hc

/-- Memory and system may change as long as what is mapped stays. -/
theorem system {s' : Proc σ} (hmap : ∀ x, O.mapped s.os x = true →
    O.mapped s'.os x = true ∧ s'.mem x = s.mem x) (hbrk : brk s'.os = brk s.os)
    (hfreep : s'.freep = s.freep) (hgot : s'.got = s.got) : Heap O base brk s' R L where
  arena := by rw [hgot]; exact hH.arena
  rep := hH.rep.congr fun b hb i hi => (hmap _ (hH.header hb i hi)).2
  freep := by rw [hfreep]; exact hH.freep
  static := ⟨fun i hi => (hmap _ (hH.static.1 i hi)).1, by rw [hbrk]; exact hH.static.2⟩
  mapped := by
    rw [hgot]
    exact fun c hc x h1 h2 => (hmap x (hH.mapped c hc x h1 h2)).1
  below := by rw [hgot, hbrk]; exact hH.below

/-- A system call that fails leaves the heap as it was; one that succeeds adds a free block. -/
theorem morecore {nunits fuel : Nat}
    (hn : morecoreUnits nunits * 16 < 2147483648)
    (hans : Answers O I brk s.os (morecoreUnits nunits * 16)) (hfuel : R.length ≤ fuel) :
    ∃ r s', s.morecore O fuel nunits = .ok (r, s') ∧ I s'.os ∧
      (∀ b ∈ L, ∀ x, b.1 ≤ x → x < b.1 + b.2 → s'.mem x = s.mem x) ∧
      (r = 0 ∧ Heap O base brk s' R L ∨
        r = s'.freep ∧ r ≠ 0 ∧ ∃ R', Heap O base brk s' R' L ∧ R'.length ≤ R.length + 1 ∧
          ∃ b ∈ R', 16 * nunits ≤ b.2) := by
  have hnu : 1 ≤ morecoreUnits nunits ∧ nunits ≤ morecoreUnits nunits := by
    unfold morecoreUnits
    split <;> omega
  have hint : toInt (morecoreUnits nunits * 16) = (morecoreUnits nunits * 16 : Nat) := by
    unfold toInt
    rw [Nat.mod_eq_of_lt (by omega), if_pos (by omega)]
  obtain ⟨a, os', hsbrk, hI', hsmall, hkeep, hfail | ⟨hbrk, hbrk', hnew⟩⟩ := hans
  · obtain ⟨rfl, hbrk⟩ := hfail
    refine ⟨0, _, morecore_fails (by rw [hint]; exact hsbrk), hI', ?_, .inl ⟨rfl, ?_⟩⟩
    · intro b hb x h1 h2
      have hx := hH.byte (mem_append_right R hb) h1 h2
      show (if O.mapped os' x && !O.mapped s.os x then 0 else s.mem x) = _
      rw [hx]
      simp
    · refine hH.system (fun x hx => ⟨hkeep x hx, ?_⟩) hbrk rfl rfl
      show (if O.mapped os' x && !O.mapped s.os x then 0 else s.mem x) = _
      rw [hx]
      simp
  · have ha : a ≠ FAILED := by
      unfold FAILED
      omega
    have hgrown := hH.grown (a := a) (k := 16 * morecoreUnits nunits) hbrk (by omega) (by omega)
    have hheader : ∀ b ∈ (a, 16 * morecoreUnits nunits) :: R, Header O os' b.1 := by
      intro b hb
      rcases mem_cons.1 hb with rfl | hb
      · exact fun i hi => hnew (a + i) (by omega) (by omega)
      · exact fun i hi => hkeep _ (hH.header (mem_append_left L hb) i hi)
    obtain ⟨s1, s', R', hmore, hos, hgot, hmem, hF⟩ := morecore_spec (by rw [hint]; exact hsbrk) ha
      hgrown hH.rep (fun b hb => hH.header hb) hheader hH.freep hfuel
    have hgot' : s'.got = (a, 16 * morecoreUnits nunits) :: s.got := by
      rw [hF.obtained, hgot, hint, Int.toNat_natCast, mul_comm]
    have hos' : s'.os = os' := hF.os.trans hos
    refine ⟨s'.freep, s', hmore, by rw [hos']; exact hI', ?_, .inr ⟨rfl, ?_, R', ?_, hF.length, ?_⟩⟩
    · intro b hb x h1 h2
      have hlow : b.1 + b.2 ≤ a := by
        obtain ⟨c, hc, hx⟩ := hH.arena.obtained (mem_append_right R hb)
          (x := b.1 + b.2 - 1) (by omega)
        have := hH.below c hc
        omega
      rw [hF.frame x fun c hc => ?_, hmem x (hH.byte (mem_append_right R hb) h1 h2) (by omega)]
      rcases mem_cons.1 hc with rfl | hc
      · exact .inl (by show x < a; omega)
      · have := hH.untouched hb hc h1 h2
        omega
    · exact freep_pos hF.arena hF.freep
    · exact
        { arena := by rw [hgot']; exact hF.arena
          rep := hF.rep
          freep := hF.freep
          static := by
            rw [hos']
            refine ⟨fun i hi => hkeep _ (hH.static.1 i hi), ?_⟩
            have := hH.static.2
            omega
          mapped := by
            rw [hos', hgot']
            intro c hc x h1 h2
            rcases mem_cons.1 hc with rfl | hc
            · exact hnew x h1 (by rw [mul_comm]; exact h2)
            · exact hkeep x (hH.mapped c hc x h1 h2)
          below := by
            rw [hos', hgot']
            intro c hc
            rcases mem_cons.1 hc with rfl | hc
            · show a + 16 * morecoreUnits nunits ≤ brk os'
              omega
            · have := hH.below c hc
              omega }
    · obtain ⟨b, hb, hroom⟩ := hF.room
      refine ⟨b, hb, le_trans ?_ hroom⟩
      omega

/-- With a free block that is big enough there is no need for more memory. -/
theorem fits {nunits fuel : Nat} (hn : 1 ≤ nunits)
    (hfit : ∃ b ∈ R, 16 * nunits ≤ b.2) (hfuel : R.length ≤ fuel) :
    ∃ q s' R', mallocFrom O nunits fuel s.freep (ptrAt s.mem s.freep) s = .ok (q + 16, s') ∧
      s'.os = s.os ∧ (∀ b ∈ L, ∀ x, b.1 ≤ x → x < b.1 + b.2 → s'.mem x = s.mem x) ∧
      Heap O base brk s' R' ((q, 16 * nunits) :: L) := by
  obtain ⟨q, s', R', hs, hT⟩ := mallocFrom_fits hH.arena hH.rep
    (fun b hb => hH.header (mem_append_left L hb)) hH.freep hn hfit
    (fun b hb hbn i hi => hH.byte (mem_append_left L hb) (by omega) (by omega)) hfuel
  exact ⟨q, s', R', hs, hT.os, fun b hb x h1 h2 => hT.frame x fun c hc => hH.untouched hb hc h1 h2,
    hH.took hT⟩

/-- The list is there: `malloc` is its loop. -/
theorem malloc_eq (fuel n : Nat) : s.malloc O base fuel n =
    mallocFrom O (unitsFor n) fuel s.freep (ptrAt s.mem s.freep) s := by
  obtain ⟨b, hb, hbf⟩ := mem_map.1 hH.freep
  have hread : s.ptr O s.freep = .ok (ptrAt s.mem s.freep) := by
    rw [← hbf]
    exact (hH.header (mem_append_left L hb)).ptr
  unfold malloc initList
  rw [if_neg (freep_pos hH.arena hH.freep)]
  show (s.ptr O s.freep >>= _) = _
  rw [hread, ok_bind]

end

theorem malloc {L R : List Extent} {s : Proc σ} {base fuel n : Nat}
    (hI : I s.os) (hH : Heap O base brk s R L) (hn32 : n < 4294967296)
    (hn : morecoreUnits (unitsFor n) * 16 < 2147483648)
    (hans : (∀ b ∈ R, b.2 < 16 * unitsFor n) →
      Answers O I brk s.os (morecoreUnits (unitsFor n) * 16))
    (hfuel : 2 * R.length + 1 ≤ fuel) :
    ∃ p s', s.malloc O base fuel n = .ok (p, s') ∧ I s'.os ∧
      (∀ b ∈ L, ∀ x, b.1 ≤ x → x < b.1 + b.2 → s'.mem x = s.mem x) ∧
      (p = 0 ∧ Heap O base brk s' R L ∨
        ∃ q R', p = q + 16 ∧ Heap O base brk s' R' ((q, 16 * unitsFor n) :: L)) := by
  have hunits : 1 ≤ unitsFor n := by
    unfold unitsFor
    omega
  rw [hH.malloc_eq]
  by_cases hfit : ∃ b ∈ R, 16 * unitsFor n ≤ b.2
  · obtain ⟨q, s', R', hs, hos, hmem, hH'⟩ := hH.fits hunits hfit (show R.length ≤ fuel by omega)
    exact ⟨q + 16, s', hs, by rw [hos]; exact hI, hmem, .inr ⟨q, R', rfl, hH'⟩⟩
  · have hno : ∀ b ∈ R, b.2 < 16 * unitsFor n := fun b hb =>
      not_le.mp fun h => hfit ⟨b, hb, h⟩
    obtain ⟨r, s1, hmore, hI1, hmem1, hcase⟩ :=
      hH.morecore hn (hans hno) (show R.length ≤ fuel - R.length by omega)
    have hsplit : fuel = R.length + (fuel - R.length) := by omega
    rw [hsplit, mallocFrom_none hH.arena hH.rep
      (fun b hb => hH.header (mem_append_left L hb)) hH.freep hno, hmore, ok_bind]
    rcases hcase with ⟨rfl, hH1⟩ | ⟨rfl, hne, R1, hH1, hlen, hroom⟩
    · exact ⟨0, s1, if_pos rfl, hI1, hmem1, .inl ⟨rfl, hH1⟩⟩
    · obtain ⟨b, hb, hbf⟩ := mem_map.1 hH1.freep
      have hread : s1.ptr O s1.freep = .ok (ptrAt s1.mem s1.freep) := by
        rw [← hbf]
        exact (hH1.header (mem_append_left L hb)).ptr
      obtain ⟨q, s', R', hs, hos, hmem, hH'⟩ := hH1.fits hunits hroom
        (show R1.length ≤ fuel - R.length by omega)
      refine ⟨q + 16, s', ?_, by rw [hos]; exact hI1, ?_, .inr ⟨q, R', rfl, hH'⟩⟩
      · rw [if_neg hne]
        rw [hread, ok_bind, hs]
      · exact fun b hb x h1 h2 => (hmem b hb x h1 h2).trans (hmem1 b hb x h1 h2)

/-! ### Whatever `sbrk` answers

  The same without a word on how much memory there is behind the pointer. -/

/-- No block reaches above the break. -/
theorem block_le {b : Extent} {L R : List Extent} {s : Proc σ} {base : Nat}
    (hH : Heap O base brk s R L) (hb : b ∈ R ++ L) :
    b.1 + b.2 ≤ brk s.os := by
  rcases hH.arena.sized hb with rfl | h16
  · have := hH.static.2
    omega
  · obtain ⟨c, hc, hx⟩ := hH.arena.obtained hb (x := b.1 + b.2 - 1) (by omega)
    have := hH.below c hc
    omega

/-- `malloc` has no block that is big enough and comes back with one: `sbrk` has not failed, and the
    header of what it returned can be touched. -/
theorem malloc_asks {L R : List Extent} {p base fuel n : Nat} {s s' : Proc σ}
    (hH : Heap O base brk s R L) (hno : ∀ b ∈ R, b.2 < 16 * unitsFor n)
    (h : s.malloc O base fuel n = .ok (p, s')) (hp : p ≠ 0) :
    ∃ a os', O.sbrk s.os (toInt (morecoreUnits (unitsFor n) * 16)) = .ok (a, os') ∧ a ≠ FAILED ∧
      (a + 16 < 18446744073709551616 → Header O os' a) := by
  have h' := malloc_mono (Nat.le_add_left fuel R.length) h
  rw [hH.malloc_eq, mallocFrom_none hH.arena hH.rep
    (fun b hb => hH.header (mem_append_left L hb)) hH.freep hno] at h'
  obtain ⟨r, hr, h'⟩ := bind_ok h'
  obtain ⟨a, os', hsbrk, ⟨-, hr0⟩ | ⟨ha, hheader⟩⟩ := morecore_ok hr
  · rw [if_pos hr0] at h'
    exact absurd (congrArg Prod.fst (Except.ok.inj h')).symm hp
  · exact ⟨a, os', hsbrk, ha, hheader⟩

/-- `sbrk` returns a pointer at or above the break whose header can be touched: `malloc` takes all it
    has asked for to be there. -/
theorem malloc_believes {L R : List Extent} {a base n : Nat} {s : Proc σ}
    (hH : Heap O base brk s R L) (hno : ∀ b ∈ R, b.2 < 16 * unitsFor n)
    (hbig : 4096 ≤ unitsFor n) {os' : σ}
    (hsbrk : O.sbrk s.os (toInt (unitsFor n * 16)) = .ok (a, os')) (hbrk : brk s.os ≤ a)
    (ha : a + 16 * unitsFor n < 68719476736) (hheader : Header O os' a)
    (hkeep : ∀ x, x < a → O.mapped s.os x = true → O.mapped os' x = true) :
    ∃ fuel q s', s.malloc O base fuel n = .ok (q + 16, s') ∧ s'.os = os' := by
  have hunits : morecoreUnits (unitsFor n) = unitsFor n := if_neg (by omega)
  have hfail : a ≠ FAILED := by
    unfold FAILED
    omega
  have hgrown := hH.grown (a := a) (k := 16 * unitsFor n) hbrk (by omega) ha
  -- a block's header lies below the break
  have hold : ∀ b ∈ R ++ L, Header O os' b.1 := by
    intro b hb i hi
    refine hkeep _ ?_ (hH.header hb i hi)
    rcases hH.arena.sized hb with rfl | h16
    · have := hH.static.2
      omega
    · have := hH.block_le hb
      omega
  have hnew : ∀ b ∈ (a, 16 * unitsFor n) :: R, Header O os' b.1 := by
    intro b hb
    rcases mem_cons.1 hb with rfl | hb
    · exact hheader
    · exact hold b (mem_append_left L hb)
  obtain ⟨s1, s2, R2, hmore, hos, -, -, hF⟩ := morecore_spec
    (by rw [hunits]; exact hsbrk) hfail (by rw [hunits]; exact hgrown) hH.rep
    (fun b hb => hH.header hb) (by rw [hunits]; exact hnew) hH.freep
    (show R.length ≤ R.length + 1 by omega)
  rw [hunits] at hF
  have hos2 : s2.os = os' := hF.os.trans hos
  have hmap2 : ∀ b ∈ R2, Header O s2.os b.1 := by
    intro b hb
    obtain ⟨c, hc, hcb⟩ := hF.headers b hb
    rw [hos2, ← hcb]
    exact hnew c hc
  -- the tail that is handed out starts no later than the new block
  have htail : ∀ b ∈ R2, 16 * unitsFor n ≤ b.2 →
      Header O s2.os (b.1 + b.2 - 16 * unitsFor n) := by
    intro b hb hbn i hi
    have hend : b.1 + b.2 ≤ a + 16 * unitsFor n := by
      obtain ⟨c, hc, hx⟩ := hF.arena.obtained (mem_append_left L hb)
        (x := b.1 + b.2 - 1) (by omega)
      rcases mem_cons.1 hc with rfl | hc
      · simp only at hx
        omega
      · have := hH.below c hc
        omega
    rw [hos2]
    obtain ⟨c, hc, hx⟩ := hF.arena.obtained (mem_append_left L hb)
      (x := b.1 + b.2 - 16 * unitsFor n + i) (by omega)
    rcases mem_cons.1 hc with rfl | hc
    · simp only at hx
      have := hheader (b.1 + b.2 - 16 * unitsFor n + i - a) (by omega)
      rwa [Nat.add_sub_cancel' hx.1] at this
    · have := hH.below c hc
      exact hkeep _ (by omega) (hH.mapped c hc _ hx.1 hx.2)
  obtain ⟨q, s', R', hs, hT⟩ := mallocFrom_fits hF.arena hF.rep hmap2 hF.freep
    (by omega) hF.room htail hF.length
  refine ⟨R.length + (R.length + 1), q, s', ?_, hT.os.trans hos2⟩
  obtain ⟨b, hb, hbf⟩ := mem_map.1 hF.freep
  have hread : s2.ptr O s2.freep = .ok (ptrAt s2.mem s2.freep) := by
    rw [← hbf]
    exact (hmap2 b hb).ptr
  rw [hH.malloc_eq, mallocFrom_none hH.arena hH.rep
    (fun b hb => hH.header (mem_append_left L hb)) hH.freep hno, hmore, ok_bind,
    if_neg (freep_pos hF.arena hF.freep)]
  rw [hread, ok_bind, hs]

end Heap

/-- Before the first call: `freep` is null, nothing has been obtained, and `base` is there. -/
structure Fresh (O : Os σ) (base : Nat) (brk : σ → Nat) (s : Proc σ) : Prop where
  freep : s.freep = 0
  got : s.got = []
  static : Header O s.os base ∧ base + 16 ≤ brk s.os
  place : 0 < base

/-- The first call makes a heap without blocks, and goes on as the others do. -/
theorem Fresh.heap {s : Proc σ} {base : Nat}
    (hF : Fresh O base brk s) (hsmall : brk s.os ≤ 4294967296) : ∃ s0, Heap O base brk s0 [(base, 0)] [] ∧
    s0.os = s.os ∧ ∀ fuel n, s.malloc O base fuel n = s0.malloc O base fuel n := by
  obtain ⟨hfreep, hgot, hstatic, hplace⟩ := hF
  let s1 : Proc σ := { s with freep := base, mem := put64 s.mem base base }
  let s0 : Proc σ := { s1 with mem := put32 s1.mem (base + 8) 0 }
  have hinit : s.initList O base = .ok s0 := by
    unfold initList
    rw [if_pos hfreep, Header.setPtr (s := { s with freep := base }) hstatic.1, ok_bind]
    exact Header.setSize (s := s1) hstatic.1 0
  have hinit0 : s0.initList O base = .ok s0 := if_neg (show base ≠ 0 by omega)
  have hptr : ptrAt s0.mem base = base := ptrAt_put32.trans (ptrAt_put64 (by omega))
  have hsize : sizeAt s0.mem base = 0 := sizeAt_put32 (by decide)
  refine ⟨s0, ?_, rfl, fun fuel n => ?_⟩
  · refine ⟨?_, ⟨⟨hptr, trivial⟩, fun b hb => ?_⟩, mem_singleton.2 rfl, hstatic, ?_, ?_⟩
    · show Arena base [(base, 0)] [] s.got
      rw [hgot]
      exact
        { place := ⟨hplace, by omega⟩
          head := ⟨[], rfl⟩
          spaced := pairwise_singleton ..
          cover := fun x => by
            simp only [append_nil, covers_cons, covers_nil]
            rw [if_neg (by omega)]
          once := fun x => Nat.zero_le _
          free := fun b hb => .inl (mem_singleton.1 hb)
          live := fun b hb => absurd hb not_mem_nil
          above := fun b hb => absurd hb not_mem_nil
          bound := fun b hb => absurd hb not_mem_nil }
    · obtain rfl := mem_singleton.1 hb
      rw [hsize]
    · show ∀ c ∈ s.got, _
      rw [hgot]
      exact fun c hc => absurd hc not_mem_nil
    · show ∀ c ∈ s.got, _
      rw [hgot]
      exact fun c hc => absurd hc not_mem_nil
  · unfold malloc
    rw [hinit, hinit0]

/-! ## Sequences of calls -/

/-- A program that uses the heap: `live` are the pointers it has from `malloc` and has not freed. -/
structure Client (σ : Type) where
  proc : Proc σ
  live : List Nat

/-- A call of the heap. -/
inductive Call
  | malloc (nbytes : Nat)
  | free (p : Nat)

namespace Client

variable {c c' : Client σ} {call : Call}

/-- The calls in question: requests of at most 2^27 bytes, and `free` of a live block. -/
def Allowed (c : Client σ) : Call → Prop
  | .malloc nbytes => nbytes ≤ 134217728
  | .free p => p ∈ c.live

/-- The client makes a call, and keeps what `malloc` returns until it frees it. -/
def step (O : Os σ) (base fuel : Nat) (c : Client σ) : Call → Except Stop (Client σ)
  | .malloc nbytes => do
    let r ← c.proc.malloc O base fuel nbytes
    pure ⟨r.2, if r.1 = 0 then c.live else r.1 :: c.live⟩
  | .free p => do
    let s ← c.proc.free O fuel p
    pure ⟨s, c.live.erase p⟩

/-- The call comes back. -/
def Returns (O : Os σ) (base : Nat) (c : Client σ) (call : Call) (c' : Client σ) : Prop :=
  ∃ fuel, c.step O base fuel call = .ok c'

/-- A sequence of allowed calls leads from `c` to `c'`. -/
inductive Reaches (O : Os σ) (base : Nat) (c : Client σ) : Client σ → Prop
  | refl : Reaches O base c c
  | step {c1 c2 : Client σ} {call : Call} : Reaches O base c c1 → c1.Allowed call →
      Returns O base c1 call c2 → Reaches O base c c2

/-- The block a live pointer points into, its header included. -/
def block (c : Client σ) (p : Nat) : Extent := (p - 16, 16 * sizeAt c.proc.mem (p - 16))

/-- `fs` are the headers of the free blocks. -/
structure Integrity (base : Nat) (c : Client σ) (fs : List Nat) : Prop where
  /-- From `freep` the list visits `base` and the free blocks once each, in increasing order but for
      where it starts, and comes back. -/
  visits : ((List.range (fs.length + 1)).map fun i =>
    (ptrAt c.proc.mem)^[i] c.proc.freep).IsRotated (base :: fs)
  back : (ptrAt c.proc.mem)^[fs.length + 1] c.proc.freep = c.proc.freep
  lowest : ∀ h ∈ fs, base < h
  /-- Each free block ends before the next one starts, with a gap between them. -/
  apart : fs.Pairwise fun h k => h + 16 * sizeAt c.proc.mem h < k
  /-- Free and live blocks cover what was obtained from `sbrk`, and cover it once. -/
  partition : ∀ x, covers x (fs.map (fun h => (h, 16 * sizeAt c.proc.mem h)) ++ c.live.map c.block) =
    covers x c.proc.got
  once : ∀ x, covers x c.proc.got ≤ 1

/-- The invariant of a run: no call yet, or a heap in good order. -/
def Good (O : Os σ) (I : σ → Prop) (brk : σ → Nat) (base : Nat) (c : Client σ) : Prop :=
  I c.proc.os ∧ (Fresh O base brk c.proc ∧ c.live = [] ∨
    ∃ R L, Heap O base brk c.proc R L ∧ c.live.Perm (L.map fun b => b.1 + 16))

theorem step_mono {fuel' base fuel : Nat} (hle : fuel ≤ fuel') (h : c.step O base fuel call = .ok c') :
    c.step O base fuel' call = .ok c' := by
  cases call with
  | malloc nbytes => exact bind_mono (fun _ hm => malloc_mono hle hm) (fun _ h => h) h
  | free p => exact bind_mono (fun _ hf => free_mono hle hf) (fun _ h => h) h

/-- A call that comes back with enough fuel comes back so with any. -/
theorem Returns.unique {base : Nat} {P : Client σ → Prop} {N : Nat}
    (hN : ∀ fuel, N ≤ fuel → ∃ c', c.step O base fuel call = .ok c' ∧ P c')
    (h : Returns O base c call c') : P c' := by
  obtain ⟨fuel, hf⟩ := h
  obtain ⟨c1, h1, hP⟩ := hN (max N fuel) (Nat.le_max_left ..)
  rw [step_mono (Nat.le_max_right ..) hf] at h1
  rwa [Except.ok.inj h1]

theorem heap_block {b : Extent} {L R : List Extent} {base : Nat}
    (hH : Heap O base brk c.proc R L) (hb : b ∈ L) :
    c.block (b.1 + 16) = b := by
  unfold block
  rw [Nat.add_sub_cancel, ← hH.rep.sizes b (mem_append_right R hb)]

/-- What a call of `malloc` does. -/
structure Allocates (c : Client σ) (nbytes : Nat) (c' : Client σ) : Prop where
  keeps : ∀ q ∈ c.live, ∀ x, (c.block q).1 ≤ x → x < (c.block q).1 + (c.block q).2 →
    c'.proc.mem x = c.proc.mem x
  gives : c'.live = c.live ∨ ∃ p, c'.live = p :: c.live ∧ 16 ≤ p ∧
    nbytes + 16 ≤ (c'.block p).2 ∧
    ∀ q ∈ c.live, (c'.block p).1 + (c'.block p).2 ≤ (c.block q).1 ∨
      (c.block q).1 + (c.block q).2 ≤ (c'.block p).1

theorem Good.malloc {base n : Nat} (hO : Grows O I brk 134217744) (hc : c.Good O I brk base)
    (hn : n ≤ 134217728) : ∃ N, ∀ fuel, N ≤ fuel →
      ∃ c', c.step O base fuel (.malloc n) = .ok c' ∧ c'.Good O I brk base ∧ c.Allocates n c' := by
  obtain ⟨hI, hcase⟩ := hc
  have hunits : unitsFor n = (n + 15) / 16 + 1 := Nat.mod_eq_of_lt (by omega)
  obtain ⟨hmore, hmore'⟩ : morecoreUnits (unitsFor n) * 16 ≤ 134217744 ∧
      0 < morecoreUnits (unitsFor n) * 16 := by
    unfold morecoreUnits
    split <;> omega
  -- before the first call the heap is the one the call starts with
  obtain ⟨s0, R, L, hH, hlive, hI0, hstart, hmem0⟩ : ∃ s0 R L, Heap O base brk s0 R L ∧
      c.live.Perm (L.map fun b => b.1 + 16) ∧ I s0.os ∧
      (∀ fuel, c.proc.malloc O base fuel n = s0.malloc O base fuel n) ∧
      (L = [] ∨ s0 = c.proc) := by
    rcases hcase with ⟨hF, hnil⟩ | ⟨R, L, hH, hlive⟩
    · obtain ⟨s0, hH, hos, hm⟩ := hF.heap (hO.small _ hI)
      exact ⟨s0, _, [], hH, by rw [hnil]; exact .refl _, by rw [hos]; exact hI,
        fun fuel => hm fuel n, .inl rfl⟩
    · exact ⟨c.proc, R, L, hH, hlive, hI, fun _ => rfl, .inr rfl⟩
  have hblock : ∀ q ∈ c.live, ∃ b ∈ L, c.block q = b := by
    intro q hq
    obtain ⟨b, hb, rfl⟩ := mem_map.1 (hlive.mem_iff.1 hq)
    rcases hmem0 with rfl | rfl
    · exact absurd hb not_mem_nil
    · exact ⟨b, hb, heap_block hH hb⟩
  refine ⟨2 * R.length + 1, fun fuel hfuel => ?_⟩
  obtain ⟨p, s', hs, hI', hmem, hres⟩ := hH.malloc hI0 (by omega) (by omega)
    (fun _ => hO.grow _ _ hI0 (by omega) hmore) hfuel
  have hkeeps : ∀ q ∈ c.live, ∀ x, (c.block q).1 ≤ x → x < (c.block q).1 + (c.block q).2 →
      s'.mem x = c.proc.mem x := by grind
  have hstep : c.step O base fuel (.malloc n) = .ok ⟨s', if p = 0 then c.live else p :: c.live⟩ := by
    show (c.proc.malloc O base fuel n >>= _) = _
    rw [hstart, hs]
    rfl
  rcases hres with ⟨rfl, hH'⟩ | ⟨q, R', rfl, hH'⟩
  · exact ⟨_, hstep, ⟨hI', .inr ⟨R, L, hH', hlive⟩⟩, hkeeps, .inl rfl⟩
  · rw [if_neg (by omega)] at hstep
    have hnew := heap_block (c := ⟨s', (q + 16) :: c.live⟩) hH' mem_cons_self
    refine ⟨_, hstep, ⟨hI', .inr ⟨R', _, hH', hlive.cons _⟩⟩, hkeeps,
      .inr ⟨q + 16, rfl, by omega, ?_, fun k hk => ?_⟩⟩
    · rw [hnew]
      omega
    · obtain ⟨b, hb, hbk⟩ := hblock k hk
      rw [hnew, hbk]
      exact hH'.arena.lives_apart hb

theorem Good.free {p base : Nat} (hc : c.Good O I brk base) (hp : p ∈ c.live) : ∃ N, ∀ fuel, N ≤ fuel →
    ∃ c', c.step O base fuel (.free p) = .ok c' ∧ c'.Good O I brk base ∧
      ∀ q ∈ c.live, q ≠ p → ∀ x, (c.block q).1 ≤ x → x < (c.block q).1 + (c.block q).2 →
        c'.proc.mem x = c.proc.mem x := by
  obtain ⟨hI, ⟨-, hnil⟩ | ⟨R, L, hH, hlive⟩⟩ := hc
  · rw [hnil] at hp
    exact absurd hp not_mem_nil
  obtain ⟨B, hB, rfl⟩ := mem_map.1 (hlive.mem_iff.1 hp)
  refine ⟨R.length, fun fuel hfuel => ?_⟩
  obtain ⟨s', R', hs, hos, hH', hmem⟩ := hH.free (perm_cons_erase hB) hfuel
  have herase : (c.live.erase (B.1 + 16)).Perm ((L.erase B).map fun b => b.1 + 16) := by
    have h := (hlive.trans ((perm_cons_erase hB).map _)).erase (B.1 + 16)
    rwa [map_cons, erase_cons_head] at h
  refine ⟨⟨s', c.live.erase (B.1 + 16)⟩, ?_, ⟨?_, .inr ⟨R', _, hH', herase⟩⟩, ?_⟩
  · show (c.proc.free O fuel (B.1 + 16) >>= _) = _
    rw [hs]
    rfl
  · show I s'.os
    rw [hos]
    exact hI
  · intro q hq hne x h1 h2
    obtain ⟨b, hb, rfl⟩ := mem_map.1 (hlive.mem_iff.1 hq)
    rw [heap_block hH hb] at h1 h2
    have hbB : b ≠ B := fun e => hne (by rw [e])
    exact hmem b ((mem_erase_of_ne hbB).2 hb) x h1 h2

/-- A heap in good order, read off its memory. -/
theorem Good.integrity {base : Nat} (hc : c.Good O I brk base) :
    (c.proc.freep = 0 ∧ c.proc.got = [] ∧ c.live = []) ∨ ∃ fs, c.Integrity base fs := by
  obtain ⟨-, ⟨hF, hnil⟩ | ⟨R, L, hH, hlive⟩⟩ := hc
  · exact .inl ⟨hF.freep, hF.got, hnil⟩
  right
  obtain ⟨r, hlink, hrot⟩ := hH.rep.from_freep hH.arena hH.freep
  obtain ⟨fb, hfb⟩ := hH.arena.head
  have hvis := hlink.visits
  have hlen : r.length = fb.length := by
    have := hrot.perm.length_eq
    rw [hfb] at this
    simpa using this
  have hmap : R.map Prod.fst = base :: fb.map Prod.fst := by rw [hfb]; rfl
  obtain ⟨hbase, hsp⟩ := pairwise_cons.1 (hfb ▸ hH.arena.spaced)
  have hsize : ∀ b ∈ fb, 16 * sizeAt c.proc.mem b.1 = b.2 := fun b hb =>
    (hH.rep.sizes b (by rw [hfb]; simp [hb])).symm
  refine ⟨fb.map Prod.fst, ?_, ?_, ?_, ?_, ?_, hH.arena.once⟩
  · rw [length_map, ← hlen, hvis.1, ← hmap]
    exact hrot
  · rw [length_map, ← hlen]
    exact hvis.2
  · intro h hh
    obtain ⟨b, hb, rfl⟩ := mem_map.1 hh
    exact hbase b hb
  · refine pairwise_map.2 (hsp.imp_of_mem fun hb _ h => ?_)
    rw [hsize _ hb]
    exact h
  · intro x
    have hfree : (fb.map Prod.fst).map (fun h => (h, 16 * sizeAt c.proc.mem h)) = fb := by
      rw [map_map]
      refine (map_congr_left fun b hb => ?_).trans (map_id fb)
      show (b.1, 16 * sizeAt c.proc.mem b.1) = b
      rw [hsize b hb]
    have hlive' : covers x (c.live.map c.block) = covers x L := by
      have hperm := covers_perm (x := x) (hlive.map c.block)
      have hL : (L.map fun b => b.1 + 16).map c.block = L := by
        rw [map_map]
        exact (map_congr_left fun b hb => heap_block hH hb).trans (map_id L)
      rw [hperm, hL]
    have hcov := hH.arena.cover x
    rw [hfb] at hcov
    rw [hfree, covers_append, hlive', ← hcov]
    simp only [covers_append, covers_cons, cons_append]
    rw [if_neg (by omega), add_zero]

theorem Good.step {base : Nat}
    (hO : Grows O I brk 134217744) (hc : c.Good O I brk base) (ha : c.Allowed call)
    (h : Returns O base c call c') : c'.Good O I brk base := by
  cases call with
  | malloc n =>
    obtain ⟨N, hN⟩ := hc.malloc hO ha
    exact (h.unique hN).1
  | free p =>
    obtain ⟨N, hN⟩ := hc.free ha
    exact (h.unique hN).1

theorem Good.run {base : Nat} (hO : Grows O I brk 134217744) (hc : c.Good O I brk base)
    (h : Reaches O base c c') : c'.Good O I brk base := by
  induction h with
  | refl => exact hc
  | step _ ha hs ih => exact ih.step hO ha hs

/-- **The heap keeps its integrity** over every system whose `sbrk` fails or hands out fresh memory
    above all there was: after any sequence of calls of `malloc`, for at most 2^27 bytes each, and of
    `free`, for live blocks only, the free list and the blocks are in good order, every further such
    call comes back, `malloc` hands out as much as it was asked for, clear of all live blocks, and no
    call touches the contents of a live block other than the one it frees. -/
theorem heap_integrity {s : Proc σ} {base : Nat}
    (hO : Grows O I brk 134217744) (hs : Fresh O base brk s) (hI : I s.os)
    (h : Reaches O base ⟨s, []⟩ c) :
    ((c.proc.freep = 0 ∧ c.proc.got = [] ∧ c.live = []) ∨ ∃ fs, c.Integrity base fs) ∧
    (∀ call, c.Allowed call → ∃ c', Returns O base c call c') ∧
    (∀ nbytes c', nbytes ≤ 134217728 → Returns O base c (.malloc nbytes) c' →
      c.Allocates nbytes c') ∧
    (∀ p c', p ∈ c.live → Returns O base c (.free p) c' → ∀ q ∈ c.live, q ≠ p →
      ∀ x, (c.block q).1 ≤ x → x < (c.block q).1 + (c.block q).2 →
        c'.proc.mem x = c.proc.mem x) := by
  have hgood : c.Good O I brk base := Good.run hO ⟨hI, .inl ⟨hs, rfl⟩⟩ h
  refine ⟨hgood.integrity, fun call ha => ?_, fun nbytes c' hn hr => ?_, fun p c' hp hr => ?_⟩
  · cases call with
    | malloc nbytes =>
      obtain ⟨N, hN⟩ := hgood.malloc hO ha
      obtain ⟨c', hc', -⟩ := hN N le_rfl
      exact ⟨c', N, hc'⟩
    | free p =>
      obtain ⟨N, hN⟩ := hgood.free ha
      obtain ⟨c', hc', -⟩ := hN N le_rfl
      exact ⟨c', N, hc'⟩
  · obtain ⟨N, hN⟩ := hgood.malloc hO hn
    exact (hr.unique hN).2
  · obtain ⟨N, hN⟩ := hgood.free hp
    exact (hr.unique hN).2

end Client

/-- A system with a megabyte of memory: the state is the break. -/
def bump : Os Nat where
  mapped os x := decide (x < os)
  sbrk os n := if 0 ≤ n ∧ os + n ≤ 1048576 then .ok (os, os + n.toNat) else .ok (FAILED, os)

theorem bump_grows : Grows bump (fun os => os ≤ 1048576) id 134217744 where
  small := fun os h => le_trans h (by decide)
  grow := by
    intro os n hos hn _
    by_cases hroom : os + n ≤ 1048576
    · refine ⟨os, os + n, if_pos ⟨by omega, by omega⟩, hroom, le_trans hroom (by decide),
        fun x hx => ?_, .inr ⟨le_rfl, rfl, ?_⟩⟩
      · have : x < os := of_decide_eq_true hx
        exact decide_eq_true (by omega)
      · exact fun x _ hx => decide_eq_true hx
    · exact ⟨FAILED, os, if_neg (by omega), hos, le_trans hos (by decide), fun _ h => h,
        .inl ⟨rfl, rfl⟩⟩

/-- A process of two pages that has not called `malloc` yet; `base` is at the second one. -/
def newProc : Proc Nat := ⟨fun _ => 0, 0, 8192, []⟩

namespace Client

instance (c : Client σ) (call : Call) : Decidable (c.Allowed call) :=
  Call.casesOn call (fun n => inferInstanceAs (Decidable (n ≤ 134217728)))
    (fun p => inferInstanceAs (Decidable (p ∈ c.live)))

/-- The client after these calls, if all are allowed and come back with this much fuel. -/
def calls (O : Os σ) (base fuel : Nat) : Client σ → List Call → Option (Client σ)
  | c, [] => some c
  | c, call :: rest =>
    if c.Allowed call then
      (c.step O base fuel call).toOption.bind fun c' => c'.calls O base fuel rest
    else none

/-- A sequence of calls that come back is a run. -/
theorem Reaches.calls {base fuel : Nat} {c0 : Client σ} {rest : List Call} (hc : Reaches O base c0 c)
    (h : c.calls O base fuel rest = some c') : Reaches O base c0 c' := by
  induction rest generalizing c with
  | nil => exact Option.some.inj h ▸ hc
  | cons call rest ih =>
    rw [Client.calls] at h
    split at h
    · rename_i hallowed
      obtain ⟨c1, h1, hrest⟩ := Option.bind_eq_some_iff.1 h
      refine ih (.step hc hallowed ⟨fuel, ?_⟩) hrest
      cases hstep : c.step O base fuel call with
      | error e =>
        rw [hstep] at h1
        cases h1
      | ok c2 =>
        rw [hstep] at h1
        exact congrArg _ (Option.some.inj h1)
    · cases h

/-- Three blocks of 100 bytes, from the end of the first 64 KiB down; the second is freed, and then
    the third, which lies between it and the rest: the three extents become one free block again. -/
theorem heap_integrity_coalesced : ∃ c, Reaches bump 4096 ⟨newProc, []⟩ c ∧ c.live = [73616] ∧
    sizeAt c.proc.mem 8192 = 4088 ∧ ∃ fs, c.Integrity 4096 fs := by
  have hrun : (calls bump 4096 9 ⟨newProc, []⟩
      [.malloc 100, .malloc 100, .malloc 100, .free 73488, .free 73360]).map
        (fun c => (c.live, sizeAt c.proc.mem 8192)) = some ([73616], 4088) := by
    decide +kernel
  obtain ⟨c, hc, heq⟩ := Option.map_eq_some_iff.1 hrun
  obtain ⟨hlive, hsize⟩ := Prod.mk.inj heq
  have hreach : Reaches bump 4096 ⟨newProc, []⟩ c := Reaches.refl.calls hc
  have hfresh : Fresh bump 4096 id newProc :=
    ⟨rfl, rfl, ⟨fun i hi => decide_eq_true (show 4096 + i < 8192 by omega), by decide⟩, by decide⟩
  rcases (heap_integrity bump_grows hfresh (show 8192 ≤ 1048576 by decide) hreach).1 with
    ⟨-, -, hnil⟩ | hgood
  · rw [hnil] at hlive
    exact absurd hlive (by decide)
  · exact ⟨c, hreach, hlive, hsize, hgood⟩

end Client

end Xv6.Umalloc
