/-
  CHANGING THE SIZE OF A PROCESS: `growproc`.

  A process HAS ITS PAGES (`St.Space`) if exactly the virtual pages below `PGROUNDUP(p->sz)` are mapped.
  `growproc` computes the new size in a `uint`; memory is so small that this is exact as long as the new
  size is not negative.  A larger `n` downwards WRAPS to a size above the old one, `uvmdealloc` finds
  nothing to do, and the call reports success.
-/
import Xv6.Vm.Bare

namespace Xv6.Vm

open Function Prog Vcode

variable {d : Int} {sz : Nat} {s1 : St}

/-- Exactly the pages below `PGROUNDUP(p->sz)` are mapped, but for the two at the top. -/
def St.Space (L : Layout) (s : St) (p : Nat) : Prop :=
  ∃ own u, Heap L own s ∧ User own s (.proc p) (s.mem p).pagetable (((s.mem p).sz + 4095) / 4096) u

/-- The pages that a space of `sz` bytes has. -/
def MappedBelow (s : St) (r sz : Nat) : Prop :=
  ∀ va, va < TRAPFRAME → (s.pte r va ≠ none ↔ va < PGROUNDUP sz)

/-- The size of process `p` has changed by `n`: its pages are those of the new size, with what they held, and
    zeros in the new ones. -/
structure Resized (p : Nat) (n : Int) (s s' : St) : Prop where
  size : ((s'.mem p).sz : Int) = (s.mem p).sz + n
  mem : s'.mem = update s.mem p { s.mem p with sz := (s'.mem p).sz }
  mapped : MappedBelow s' (s.mem p).pagetable (s'.mem p).sz
  kept : St.Kept (s.mem p).pagetable (min (((s.mem p).sz + 4095) / 4096) (((s'.mem p).sz + 4095) / 4096)) s s'
  zeroed : St.Zeroed (s.mem p).pagetable (((s.mem p).sz + 4095) / 4096) (((s'.mem p).sz + 4095) / 4096) s'

/-- The sizes and the space of process `p` are as they were. -/
structure Unmoved (p : Nat) (s s' : St) : Prop where
  mem : s'.mem = s.mem
  pte : ∀ va, va < MAXVA → s'.pte (s.mem p).pagetable va = s.pte (s.mem p).pagetable va
  word : ∀ va w, va < TRAPFRAME → s.pte (s.mem p).pagetable va = some w →
    s'.word (PTE2PA w) = s.word (PTE2PA w)

section Grow

variable {L : Layout} {may : Prop} {ok : Err → Prop} {s s' : St} {p r n : Nat} {own own' : Nat → Place}
  {t : Owner} {u u' : Bool}

/-- Sizes are small. -/
theorem User.size_le (hH : Heap L own s) (hU : User own s t r ((sz + 4095) / 4096) u) : sz ≤ 134217728 := by
  obtain ⟨map, hT, hm, -⟩ := hU
  have := hm.bound hH hT
  omega

/-- A page is mapped exactly if it is below the size. -/
theorem User.pte_iff (hH : Heap L own s) (hU : User own s t r n u) {va : Nat} (hva : va < TRAPFRAME) :
    s.pte r va ≠ none ↔ va / 4096 < n := by
  obtain ⟨map, hT, hm, -⟩ := hU
  have hlt : va / 4096 < 67108862 := by
    have h : TRAPFRAME = 274877898752 := rfl
    omega
  have hS : ¬Special (va / 4096) := by
    rintro (h | h) <;> omega
  rw [hT.pte hH (by unfold MAXVA; omega), ← or_iff_left (a := va / 4096 < n) hS, ← hm.iff]
  constructor
  · intro h h0
    rw [h0] at h
    exact h rfl
  · intro h
    rw [valid_of_ne (hT.leafy _ h).1]
    exact Option.some_ne_none _

theorem User.mappedBelow (hH : Heap L own s) (hU : User own s t r ((sz + 4095) / 4096) u) :
    MappedBelow s r sz := by
  intro va hva
  have hle := hU.size_le hH
  rw [hU.pte_iff hH hva, roundup sz rfl (by omega)]
  omega

/-- Both before and after, the space has the same pages. -/
theorem User.unmoved (hH : Heap L own s) (hU : User own s t (s.mem p).pagetable n u) (hH' : Heap L own' s')
    (hU' : User own' s' t (s.mem p).pagetable n u') (hk : St.Kept (s.mem p).pagetable n s s')
    (hmem : s'.mem = s.mem) : Unmoved p s s' := by
  have hpte : ∀ va, va < MAXVA → s'.pte (s.mem p).pagetable va = s.pte (s.mem p).pagetable va := by
    intro va hva
    by_cases htop : va < TRAPFRAME
    · by_cases hn : va / 4096 < n
      · exact hk.pte va hn
      · rw [not_not.mp (mt (hU.pte_iff hH htop).mp hn), not_not.mp (mt (hU'.pte_iff hH' htop).mp hn)]
    · refine hk.top va hva ?_
      have h : TRAPFRAME = 274877898752 := rfl
      unfold MAXVA at hva
      unfold Special
      omega
  refine ⟨hmem, hpte, fun va w hva hw => ?_⟩
  refine hk.word va w ((hU.pte_iff hH hva).mp ?_) hw
  rw [hw]
  exact Option.some_ne_none w

theorem Kept.setMem (h : St.Kept r n s s1) (p : Nat) (x : ProcMem) : St.Kept r n s (s1.setMem p x) :=
  ⟨h.pte, h.word, h.top⟩

/-- The new size is stored, and the space has the pages for it. -/
theorem Leaves.resized
    (hl : Leaves L t (s.mem p).pagetable ((sz + 4095) / 4096) u own s s1) (hsz : (sz : Int) = (s.mem p).sz + d)
    (hk : St.Kept (s.mem p).pagetable (min (((s.mem p).sz + 4095) / 4096) ((sz + 4095) / 4096)) s s1)
    (hz : St.Zeroed (s.mem p).pagetable (((s.mem p).sz + 4095) / 4096) ((sz + 4095) / 4096) s1) :
    Resized p d s (s1.setMem p { s.mem p with sz := sz }) := by
  obtain ⟨own', hF, hH', hU'⟩ := hl
  have hmem : ((s1.setMem p { s.mem p with sz := sz }).mem p).sz = sz := by rw [St.setMem_self]
  refine ⟨by rw [hmem]; exact hsz, ?_, ?_, ?_, ?_⟩
  · rw [hmem]
    show update s1.mem p _ = _
    rw [hF.mem]
  · rw [hmem]
    have := hU'.mappedBelow hH'
    exact this
  · rw [hmem]
    exact Kept.setMem hk p _
  · rw [hmem]
    exact hz

/-- The space has the pages of the size that is stored. -/
theorem Leaves.space (hl : Leaves L (.proc p) (s.mem p).pagetable ((sz + 4095) / 4096) u own s s1) :
    (s1.setMem p { s.mem p with sz := sz }).Space L p := by
  obtain ⟨own', -, hH', hU'⟩ := hl
  refine ⟨own', u, hH'.same rfl, ?_⟩
  rw [St.setMem_self]
  exact hU'

/-- How `growproc` comes back: as it should, or after too large a step downwards with nothing done. -/
structure Grew (p : Nat) (d : Int) (s : St) (res : Int) (s' : St) : Prop where
  exact : 0 ≤ (s.mem p).sz + d → (res = 0 ∧ Resized p d s s') ∨ (res = -1 ∧ Unmoved p s s')
  wrapped : (s.mem p).sz + d < 0 → res = 0 ∧ s'.mem = s.mem

/-- The process still has its pages, and after too large a step downwards nothing has changed at all. -/
structure Settles (L : Layout) (p : Nat) (d : Int) (s : St) (res : Int) (s' : St) : Prop where
  grew : Grew p d s res s'
  space : s'.Space L p
  same : (s.mem p).sz + d < 0 → s' = s
  down : d ≤ 0 → res = 0

theorem growproc_settles (hH : Heap L own s)
    (hU : User own s (.proc p) (s.mem p).pagetable (((s.mem p).sz + 4095) / 4096) u)
    (hd : -2147483648 ≤ d ∧ d < 2147483648) : (growproc p d).wp (spec L may ok) (Settles L p d s) s := by
  have hle := hU.size_le hH
  have hsz : (s.mem p).sz % 4294967296 = (s.mem p).sz := Nat.mod_eq_of_lt (by omega)
  unfold growproc
  refine wp_mem ?_
  rw [hsz]
  rcases Int.lt_trichotomy d 0 with hneg | rfl | hpos
  · rw [if_neg (by omega), if_pos hneg]
    by_cases hroom : 0 ≤ (s.mem p).sz + d
    · -- down to a size that is not negative
      obtain ⟨k, hk⟩ : ∃ k : Nat, ((s.mem p).sz : Int) + d = k := ⟨_, (Int.toNat_of_nonneg hroom).symm⟩
      have huint : toUint ((s.mem p).sz + d) = k := by
        unfold toUint
        omega
      rw [huint]
      refine wp_seq (uvmdealloc_spec hH hU) ?_
      rintro sz1 s' ⟨rfl, hl, hkept⟩
      have hmin : min (s.mem p).sz k = k := by omega
      rw [hmin] at hl hkept ⊢
      rw [Nat.mod_eq_of_lt (by omega)]
      refine wp_setMem ⟨⟨fun _ => .inl ⟨rfl, hl.resized hk.symm ?_ fun va h1 h2 => by omega⟩,
        fun h => by omega⟩, hl.space, fun h => by omega, fun _ => rfl⟩
      exact hkept.mono (by omega)
    · -- the `uint` is larger than the size
      have huint : (s.mem p).sz ≤ toUint ((s.mem p).sz + d) := by
        unfold toUint
        omega
      unfold uvmdealloc
      rw [if_pos huint]
      have hsame : s.setMem p { s.mem p with sz := (s.mem p).sz % 4294967296 } = s := by
        rw [hsz]
        exact congrArg (fun f => { s with mem := f }) (update_eq_self ..)
      refine wp_setMem ?_
      rw [hsame]
      exact ⟨⟨fun h => absurd h hroom, fun _ => ⟨rfl, rfl⟩⟩, ⟨own, u, hH, hU⟩, fun _ => rfl, fun _ => rfl⟩
  · rw [if_neg (by omega), if_neg (by omega)]
    have hl : Leaves L (.proc p) (s.mem p).pagetable (((s.mem p).sz + 4095) / 4096) u own s s :=
      ⟨own, .refl _ own s, hH, hU⟩
    exact wp_setMem ⟨⟨fun _ => .inl ⟨rfl, hl.resized (by omega) (.refl ..)
      fun va h1 h2 => by omega⟩, fun h => by omega⟩, hl.space, fun h => by omega, fun _ => rfl⟩
  · rw [if_pos hpos]
    obtain ⟨k, hk⟩ : ∃ k : Nat, ((s.mem p).sz : Int) + d = k :=
      ⟨_, (Int.toNat_of_nonneg (by omega)).symm⟩
    have huint : toUint ((s.mem p).sz + d) = k := by
      unfold toUint
      omega
    rw [huint]
    refine wp_seq (uvmalloc_spec hH hU) ?_
    have hmax : max (s.mem p).sz k = k := by omega
    rw [hmax]
    rintro sz1 s' ⟨⟨rfl, -, own', hF, hH', hU'⟩ | ⟨rfl, hl, hz⟩, hkept⟩
    · rw [if_pos (by rfl)]
      refine ⟨⟨fun _ => .inr ⟨rfl, hU.unmoved hH hH' hU' hkept hF.mem⟩, fun h => by omega⟩,
        ⟨own', u, hH', ?_⟩, fun h => by omega, fun h => by omega⟩
      rw [hF.mem]
      exact hU'
    · rw [if_neg (by omega), Nat.mod_eq_of_lt (by omega)]
      refine wp_setMem ⟨⟨fun _ => .inl ⟨rfl, hl.resized hk.symm ?_ hz⟩, fun h => by omega⟩, hl.space,
        fun h => by omega, fun h => by omega⟩
      exact hkept.mono (by omega)

theorem growproc_spec (hH : Heap L own s)
    (hU : User own s (.proc p) (s.mem p).pagetable (((s.mem p).sz + 4095) / 4096) u)
    (hd : -2147483648 ≤ d ∧ d < 2147483648) : (growproc p d).wp (spec L may ok) (Grew p d s) s :=
  wp_mono (growproc_settles hH hU hd) fun _ _ h => h.grew

end Grow

/-- **`growproc` changes the size by what was asked**, exactly if that leaves a size: for every process that has
    its pages and every 32-bit `n`. -/
theorem growproc_exact_iff (L : Layout) (m : Machine) (p : Nat) (n : Int) (hs : m.st.Space L p)
    (hn : -2147483648 ≤ n ∧ n < 2147483648) :
    (∃ ret m', (growproc p n).run (I := Calls) (Machine.serve L) m = .ok (ret, m') ∧
      ((ret = 0 ∧ Resized p n m.st m'.st) ∨ (ret = -1 ∧ Unmoved p m.st m'.st))) ↔
    0 ≤ ((m.st.mem p).sz : Int) + n := by
  obtain ⟨own, u, hH, hU⟩ := hs
  obtain ⟨ret, m', hrun, hG⟩ := wp_runs (L := L) (m := m) (growproc_spec hH hU hn)
  constructor
  · rintro ⟨ret1, m1, hrun1, hres⟩
    obtain ⟨rfl, rfl⟩ := Prod.mk.inj (Except.ok.inj (hrun.symm.trans hrun1))
    by_contra hneg
    obtain ⟨rfl, hmem⟩ := hG.wrapped (by omega)
    rcases hres with ⟨-, hR⟩ | ⟨h, -⟩
    · have := hR.size
      rw [hmem] at this
      have hn0 : n = 0 := by omega
      omega
    · exact absurd h (by decide)
  · intro h
    exact ⟨ret, m', hrun, hG.exact h⟩

/-- A process of 5000 bytes. -/
theorem fiveThousand : ∃ m : Machine, m.st.Space bareLayout 0 ∧ (m.st.mem 0).sz = 5000 := by
  obtain ⟨m, own, -, hmem, hH, hU, -⟩ := exists_space 5000 0x87FE0000 (by decide) (by decide)
    (by decide +kernel)
  refine ⟨m, ⟨own, true, hH, ?_⟩, by rw [hmem]⟩
  rw [hmem]
  exact hU

theorem growproc_down : ∃ m : Machine, m.st.Space bareLayout 0 ∧ (m.st.mem 0).sz = 5000 ∧
    ∃ ret m', (growproc 0 (-3000)).run (I := Calls) (Machine.serve bareLayout) m = .ok (ret, m') ∧
      ((ret = 0 ∧ Resized 0 (-3000) m.st m'.st) ∨ (ret = -1 ∧ Unmoved 0 m.st m'.st)) := by
  obtain ⟨m, hs, hsz⟩ := fiveThousand
  exact ⟨m, hs, hsz, (growproc_exact_iff bareLayout m 0 (-3000) hs (by decide)).mpr (by rw [hsz]; decide)⟩

/-- Giving back more than there is is reported as a success, and changes nothing. -/
theorem growproc_below_zero : ∃ m m' : Machine, m.st.Space bareLayout 0 ∧ (m.st.mem 0).sz = 5000 ∧
    (growproc 0 (-5001)).run (I := Calls) (Machine.serve bareLayout) m = .ok (0, m') ∧
    (m'.st.mem 0).sz = 5000 := by
  obtain ⟨m, ⟨own, u, hH, hU⟩, hsz⟩ := fiveThousand
  obtain ⟨ret, m', hrun, hG⟩ := wp_runs (L := bareLayout) (m := m) (growproc_spec (d := -5001) hH hU (by decide))
  obtain ⟨rfl, hmem⟩ := hG.wrapped (by rw [hsz]; decide)
  exact ⟨m, m', ⟨own, u, hH, hU⟩, hsz, hrun, by rw [hmem, hsz]⟩

end Xv6.Vm
