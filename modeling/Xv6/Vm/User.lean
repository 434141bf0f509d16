/-
  USER MEMORY: what `uvmalloc`, `uvmdealloc` and the functions that make and free a page table do to
  the space of a process.

  `User t r n` says that the table of `t` at `r` is that of a process with `n` pages: exactly the
  virtual pages below `n` and the two at the top of the address space are mapped.  The page that holds
  the trampoline and the one that holds the trapframe are not the table's own (`Special`).

  Every function here says how many pages the space has afterwards, on success and on failure: a failed
  `uvmalloc` leaves the number as it was, whatever it took in between.
-/
import Mathlib.Combinatorics.Pigeonhole
import Xv6.Vm.Walk
import Xv6.Vm.Procs

namespace Xv6.Vm

open Function Prog Vcode

variable {u : Bool} {L : Layout} {k m n newsz oldsz pg r : Nat} {word' : Nat → Nat → Nat}
  {own' : Nat → Place} {S : Nat → Prop} {t t' : Owner} {may : Prop} {s s' s1 : St}

variable {word : Nat → Nat → Nat} {map : Nat → Nat} {own1 : Nat → Place}

/-- The virtual pages of the trapframe and of the trampoline. -/
def Special (v : Nat) : Prop := v = 67108862 ∨ v = 67108863

/-- The map of a process with `n` pages.  `u` says that user code may use them all. -/
structure Mapping (n : Nat) (u : Bool) (map : Nat → Nat) : Prop where
  iff : ∀ v, map v ≠ 0 ↔ v < n ∨ Special v
  super : ∀ v, Special v → map v &&& PTE_U = 0
  user : u = true → ∀ v, v < n → map v &&& PTE_U ≠ 0

/-- The table of `t` at `r` is that of a process with `n` pages. -/
def User (own : Nat → Place) (s : St) (t : Owner) (r n : Nat) (u : Bool) : Prop :=
  ∃ map, Table own s.word t r Special map ∧ Mapping n u map ∧ ∀ a, own a ≠ .held t

/-- No page has anything to do with the table of `t`. -/
def Absent (own : Nat → Place) (t : Owner) : Prop := ∀ a, (own a).Of t → own a = .free

section Frames

variable {own : Nat → Place}

/-- A page that is neither node nor leaf of the table may be relabelled and written to. -/
theorem Table.relabel {word : Nat → Nat → Nat} (hT : Table own word t r S map) {a : Nat} {pl : Place}
    (ha : ∀ l x v, own a ≠ .node t l x ∧ own a ≠ .leaf t v)
    (hpl : ∀ l x v, pl ≠ .node t l x ∧ pl ≠ .leaf t v) (hword : ∀ b, b ≠ a → word' b = word b) :
    Table (update own a pl) word' t r S map := by
  refine hT.congr (fun b l x => relabel_iff rfl (ha l x 0).1 (hpl l x 0).1)
    (fun b v => relabel_iff rfl (ha 0 0 v).2 (hpl 0 0 v).2) fun b l x hb => hword b ?_
  exact label_ne hb rfl (ha l x 0).1.symm

/-- Only contents of pages that are no nodes have changed. -/
theorem Table.contents {word : Nat → Nat → Nat}
    (hT : Table own word t r S map) (hword : ∀ a l x, own a = .node t l x → word' a = word a) :
    Table own word' t r S map :=
  hT.congr (fun _ _ _ => Iff.rfl) (fun _ _ => Iff.rfl) hword

/-- Memory is finite: 128 megabytes. -/
theorem Mapping.bound (hm : Mapping n u map) (hH : Heap L own s)
    (hT : Table own s.word t r Special map) : n ≤ 32768 := by
  by_contra hn
  have hleaf : ∀ v, v < 32769 → own (PTE2PA (map v)) = .leaf t v := by
    intro v hv
    refine hT.owned v ((hm.iff v).mpr (.inl (by omega))) ?_
    rintro (h | h) <;> omega
  have hpage : ∀ v, v < 32769 → L.Page (PTE2PA (map v)) := fun v hv =>
    (hH.page _).mp (by rw [hleaf v hv]; simp)
  have hbase : 2147483648 ≤ L.kend := L.base
  obtain ⟨x, hx, y, hy, hne, heq⟩ := Finset.exists_ne_map_eq_of_card_lt_of_maps_to
    (s := Finset.range 32769) (t := Finset.range 32768) (f := fun v => PTE2PA (map v) / 4096 - 524288)
    (by simp) (by
      intro v hv
      obtain ⟨-, h2, h3⟩ := hpage v (Finset.mem_range.mp (by simpa using hv))
      unfold PHYSTOP PGSIZE at h3
      have : PTE2PA (map v) / 4096 - 524288 < 32768 := by omega
      simpa using this)
  have hx := Finset.mem_range.mp hx
  have hy := Finset.mem_range.mp hy
  have heq' : PTE2PA (map x) = PTE2PA (map y) := by
    obtain ⟨h1, h2, -⟩ := hpage x hx
    obtain ⟨h3, h4, -⟩ := hpage y hy
    unfold PGSIZE at h1 h3
    omega
  have hx' := hleaf x hx
  have hy' := hleaf y hy
  rw [heq', hy'] at hx'
  exact hne (Place.leaf.inj hx').2.symm

/-- A page of an address space, not at the top of it. -/
theorem not_special {v : Nat} (h : v ≤ 32768) : ¬Special v := by
  rintro (h | h) <;> omega

end Frames

/-! ## What stays -/

/-- The pages below `n` are mapped as they were, to memory that holds what it held, and so are the two at
    the top. -/
structure St.Kept (r n : Nat) (s s' : St) : Prop where
  pte : ∀ va, va / 4096 < n → s'.pte r va = s.pte r va
  word : ∀ va w, va / 4096 < n → s.pte r va = some w → s'.word (PTE2PA w) = s.word (PTE2PA w)
  top : ∀ va, va < MAXVA → Special (va / 4096) → s'.pte r va = s.pte r va

/-- The pages from `n` up to `m` are there for the user, and hold zeros. -/
def St.Zeroed (r n m : Nat) (s : St) : Prop := ∀ va, n ≤ va / 4096 → va / 4096 < m →
  ∃ w, s.pte r va = some w ∧ PTE_FLAGS w = PTE_W ||| PTE_X ||| PTE_R ||| PTE_U ||| PTE_V ∧
    ∀ i, s.word (PTE2PA w) i = 0

section Keeps

variable {own : Nat → Place} {map map' : Nat → Nat}

theorem St.Kept.refl (r n : Nat) (s : St) : St.Kept r n s s :=
  ⟨fun _ _ => rfl, fun _ _ _ _ => rfl, fun _ _ _ => rfl⟩

theorem St.Kept.trans (h : St.Kept r n s s1) (h' : St.Kept r n s1 s') : St.Kept r n s s' := by
  refine ⟨fun va hva => (h'.pte va hva).trans (h.pte va hva), fun va w hva hw => ?_,
    fun va hva hS => (h'.top va hva hS).trans (h.top va hva hS)⟩
  rw [h'.word va w hva ((h.pte va hva).trans hw), h.word va w hva hw]

theorem St.Kept.mono (h : St.Kept r n s s') (hm : m ≤ n) : St.Kept r m s s' :=
  ⟨fun va hva => h.pte va (by omega), fun va w hva => h.word va w (by omega), h.top⟩

/-- New pages stay new. -/
theorem St.Zeroed.kept (h : St.Zeroed r n m s) (hk : St.Kept r m s s') : St.Zeroed r n m s' := by
  intro va h1 h2
  obtain ⟨w, hw, hflags, hzero⟩ := h va h1 h2
  refine ⟨w, (hk.pte va h2).trans hw, hflags, fun i => ?_⟩
  rw [hk.word va w h2 hw]
  exact hzero i

/-- The same part of the map, and the leaves are spared. -/
theorem St.Kept.of_table (hn : n ≤ 32768) (hH : Heap L own s) (hT : Table own s.word t r Special map)
    (hH' : Heap L own' s') (hT' : Table own' s'.word t r Special map')
    (hmap : ∀ v, v < n ∨ Special v → map' v = map v) (hsp : Spares t (· < n) own own' s s') :
    St.Kept r n s s' := by
  have hlt : ∀ {va}, va / 4096 < n → va < MAXVA := fun h => by
    unfold MAXVA
    omega
  have hpte : ∀ va, va < MAXVA → va / 4096 < n ∨ Special (va / 4096) → s'.pte r va = s.pte r va := by
    intro va hva hv
    rw [hT'.pte hH' hva, hT.pte hH hva, hmap _ hv]
  refine ⟨fun va hva => hpte va (hlt hva) (.inl hva), fun va w hva hw => ?_,
    fun va hva hS => hpte va hva (.inr hS)⟩
  rw [hT.pte hH (hlt hva)] at hw
  unfold valid at hw
  split at hw
  · next hv =>
    obtain rfl := Option.some.inj hw
    have hne : map (va / 4096) ≠ 0 := by
      intro h0
      rw [h0] at hv
      exact hv rfl
    exact (hsp _ _ hva (hT.owned _ hne (not_special (by omega)))).2
  · cases hw

end Keeps

/-! ## Shrinking -/

section Shrink

variable {ok : Err → Prop} {own : Nat → Place}

/-- What a function leaves of the space: `n` pages. -/
def Leaves (L : Layout) (t : Owner) (r n : Nat) (u : Bool) (own : Nat → Place) (s s' : St) : Prop :=
  ∃ own', Frame t own own' s s' ∧ Heap L own' s' ∧ User own' s' t r n u

theorem Leaves.trans (hF : Frame t own own1 s s1)
    (h : Leaves L t r n u own1 s1 s') : Leaves L t r n u own s s' := by
  obtain ⟨own', hF', hH', hU'⟩ := h
  exact ⟨own', hF.trans hF', hH', hU'⟩

/-- Unmapping the pages from `k` on. -/
theorem uvmunmap_tail (hH : Heap L own s) (hU : User own s t r n u) (hk : k ≤ n) :
    (uvmunmap r (k * 4096) (n - k) true).wp (spec L may ok)
      (fun _ s' => Leaves L t r k u own s s' ∧ St.Kept r k s s') s := by
  obtain ⟨map, hT, hm, hheld⟩ := hU
  have hn := hm.bound hH hT
  have hdiv : k * 4096 / 4096 = k := Nat.mul_div_cancel k (by decide)
  unfold uvmunmap
  rw [if_neg (by unfold PGSIZE; omega)]
  refine wp_mono (unmapLoop_spec true (n - k) hH hT (by unfold MAXVA; omega) (by omega) ?_ ?_) ?_
  · intro v h1 h2
    exact (hm.iff v).mpr (.inl (by omega))
  · intro v h1 h2
    exact iff_of_true rfl (not_special (by omega))
  · rintro _ s' ⟨own', hF, hH', hT', hsp, hheld'⟩
    rw [hdiv] at hT' hsp
    refine ⟨⟨own', hF, hH', _, hT', ⟨?_, ?_, ?_⟩, fun a ha => hheld a (hheld' a ha)⟩,
      .of_table (by omega) hH hT hH' hT' ?_ (hsp.mono fun v hv => by omega)⟩
    · grind [Mapping, unmapped, not_special]
    · grind [Mapping, unmapped]
    · intro hu v hv
      unfold unmapped
      rw [if_neg (by omega)]
      exact hm.user hu v (by omega)
    · rintro v (hv | hv)
      · exact if_neg (by omega)
      · exact if_neg fun h => not_special (by omega) hv

/-- Rounding up a size that memory can hold. -/
theorem roundup (sz : Nat) (h : m = (sz + 4095) / 4096) (hm : m ≤ 32770) : PGROUNDUP sz = m * 4096 := by
  unfold PGROUNDUP wrap PGSIZE
  omega

theorem uvmdealloc_spec (hH : Heap L own s) (hU : User own s t r ((oldsz + 4095) / 4096) u) :
    (uvmdealloc r oldsz newsz).wp (spec L may ok) (fun res s' => res = min oldsz newsz ∧
      Leaves L t r ((res + 4095) / 4096) u own s s' ∧ St.Kept r ((res + 4095) / 4096) s s') s := by
  have hbound : (oldsz + 4095) / 4096 ≤ 32768 := by
    obtain ⟨map, hT, hm, -⟩ := hU
    exact hm.bound hH hT
  unfold uvmdealloc
  by_cases hle : oldsz ≤ newsz
  · rw [if_pos hle]
    exact ⟨(Nat.min_eq_left hle).symm, ⟨own, .refl t own s, hH, hU⟩, .refl r _ s⟩
  · rw [if_neg hle]
    have hold := roundup oldsz rfl (by omega)
    have hnew := roundup newsz rfl (by omega)
    have hmin : newsz = min oldsz newsz := by omega
    rw [hold, hnew]
    by_cases hlt : (newsz + 4095) / 4096 * 4096 < (oldsz + 4095) / 4096 * 4096
    · rw [if_pos hlt]
      have hcount : viaInt (((oldsz + 4095) / 4096 * 4096 - (newsz + 4095) / 4096 * 4096) / PGSIZE) =
          (oldsz + 4095) / 4096 - (newsz + 4095) / 4096 := by
        unfold viaInt PGSIZE
        rw [if_pos (by omega)]
        omega
      rw [hcount]
      refine wp_seq (uvmunmap_tail hH hU (by omega)) ?_
      intro _ s' h
      exact ⟨hmin, h⟩
    · rw [if_neg hlt]
      have heq : (newsz + 4095) / 4096 = (oldsz + 4095) / 4096 := by omega
      refine ⟨hmin, ⟨own, .refl t own s, hH, ?_⟩, .refl r _ s⟩
      rw [heq]
      exact hU

end Shrink

/-! ## Growing -/

section Grow

variable {ok : Err → Prop} {own : Nat → Place} {α : Type} {Q : α → St → Prop}

/-- A page in hand: the space is as it was, and the page has a label of its own. -/
structure InHand (L : Layout) (t : Owner) (r n : Nat) (u : Bool) (pg : Nat) (own : Nat → Place) (s : St) :
    Prop where
  heap : Heap L own s
  held : ∀ a, own a = .held t ↔ a = pg
  user : ∃ map, Table own s.word t r Special map ∧ Mapping n u map

/-- `kalloc`, for a page that is to be mapped. -/
theorem wp_kalloc_hand (hH : Heap L own s) (hU : User own s t r n u) {k : Nat → Vcode α}
    (h0 : may → (k 0).wp (spec L may ok) Q s)
    (h1 : ∀ pg own' s', pg ≠ 0 → Frame t own own' s s' → St.Kept r n s s' → InHand L t r n u pg own' s' →
      (k pg).wp (spec L may ok) Q s') :
    (kalloc >>= k).wp (spec L may ok) Q s := by
  obtain ⟨map, hT, hm, hheld⟩ := hU
  refine wp_kalloc hH (.held t) (by simp) (by simp) h0 ?_
  intro pg rest hpg hpg0 hH'
  have hword : ∀ b, b ≠ pg → (s.take pg rest).word b = s.word b := fun b hb =>
    update_of_ne hb ..
  have hT' : Table (update own pg (.held t)) (s.take pg rest).word t r Special map :=
    hT.relabel (fun l x v => by rw [hpg]; simp) (by simp) hword
  have hbound := hm.bound hH hT
  have hof : (own pg).Of t := by
    rw [hpg]
    trivial
  have hnl : ∀ v, v < n → own pg ≠ .leaf t v := fun v _ h => nomatch hpg.symm.trans h
  refine h1 pg (update own pg (.held t)) _ hpg0 (.step hof rfl hof rfl rfl)
    (.of_table (by omega) hH hT hH' hT' (fun _ _ => rfl) (.step hnl hnl rfl)) ⟨hH', ?_, map, hT', hm⟩
  · grind

/-- Writing to the page in hand. -/
theorem InHand.write (h : InHand L t r n u pg own s) (f : Nat → Nat) :
    InHand L t r n u pg own { s with word := update s.word pg f } ∧
      Frame t own own s { s with word := update s.word pg f } ∧
      St.Kept r n s { s with word := update s.word pg f } := by
  obtain ⟨hH, hheld, map, hT, hm⟩ := h
  have hpg := (hheld pg).mpr rfl
  have hbound := hm.bound hH hT
  have hT' : Table own (update s.word pg f) t r Special map :=
    hT.contents fun a l x ha => update_of_ne (label_ne ha hpg nofun) ..
  have hH' : Heap L own { s with word := update s.word pg f } := hH.same rfl
  refine ⟨⟨hH', hheld, map, hT', hm⟩, .write ?_ rfl rfl,
    .of_table hbound hH hT hH' hT' (fun _ _ => rfl) (.write (fun v _ h => nomatch hpg.symm.trans h) rfl)⟩
  rw [hpg]
  exact rfl

/-- **One more page.**  The page in hand is mapped behind the others, or given back. -/
theorem wp_add_page {perm : Nat} (h : InHand L t r n u pg own s) (hperm : perm < 1024)
    (hrwx : perm &&& RWX ≠ 0) (hu : u = true → perm &&& PTE_U ≠ 0) {X Y : Vcode α}
    (hX : ∀ own' s', may → Frame t own own' s s' → St.Kept r n s s' → Heap L own' s' → User own' s' t r n u →
      X.wp (spec L may ok) Q s')
    (hY : ∀ own' s', Frame t own own' s s' → St.Kept r n s s' →
      (∀ va, va / 4096 = n → s'.pte r va = some (mkPte pg perm)) → s'.word pg = s.word pg →
      Heap L own' s' → User own' s' t r (n + 1) u → Y.wp (spec L may ok) Q s') :
    (mappages r (n * 4096) PGSIZE pg perm >>= fun res =>
      if res ≠ 0 then kfree pg >>= fun _ => X else Y).wp (spec L may ok) Q s := by
  obtain ⟨hH, hheld, map, hT, hm⟩ := h
  have hpg := (hheld pg).mpr rfl
  have hpage : L.Page pg := (hH.page pg).mp (by rw [hpg]; simp)
  have hn := hm.bound hH hT
  have hdiv : n * 4096 / 4096 = n := Nat.mul_div_cancel n (by decide)
  have hfree : map n = 0 := by
    by_contra hne
    rcases (hm.iff n).mp hne with h | h
    · omega
    · exact not_special hn h
  refine wp_seq (mappages_one (n * 4096) hH hT (by unfold MAXVA; omega) (by unfold PGSIZE; omega)
    (by rw [hdiv]; exact hfree) pg perm) ?_
  rw [hdiv]
  rintro res s' ⟨own1, s1, hg, hH1, hT1, hres⟩
  have hpg1 := hg.keep hpg (by simp)
  have hof : (own1 pg).Of t := by
    rw [hpg1]
    exact rfl
  have hnl : ∀ v, v < n → own1 pg ≠ .leaf t v := fun v _ h => nomatch hpg1.symm.trans h
  have hheld1 : ∀ {pl : Place} a, pl ≠ .held t → update own1 pg pl a ≠ .held t := fun a hpl ha => by
    obtain ⟨hapg, ha⟩ := of_relabel ha hpl
    exact hapg ((hheld a).mp (hg.was ha (by simp)))
  rcases hres with ⟨rfl, hmay, rfl⟩ | ⟨rfl, b, hb, rfl⟩
  · -- The table could not grow.
    rw [if_pos (by decide)]
    refine wp_kfree hH1 hpage (by rw [hpg1]; simp) ?_
    intro hH2
    have hword : ∀ a, a ≠ pg → (s'.give pg).word a = s'.word a := fun a ha =>
      update_of_ne ha ..
    have hT2 : Table (update own1 pg .free) (s'.give pg).word t r Special map :=
      hT1.relabel (fun l x v => by rw [hpg1]; simp) (by simp) hword
    exact hX (update own1 pg .free) _ hmay (hg.frame.trans (.step hof trivial hof rfl rfl))
      (.of_table hn hH hT hH2 hT2 (fun _ _ => rfl) ((hg.spares _).trans (.step hnl hnl rfl))) hH2
      ⟨map, hT2, hm, fun a => hheld1 a nofun⟩
  · -- The page has become a leaf.
    have hpa := PTE2PA_mkPte hpage.1 hperm
    have hleaf := isLeaf_mkPte pg hperm hrwx
    have hT2 := hT1.set_leaf hH1 hb (not_special hn) hleaf (by rw [hpa]; exact hpg1) hfree
    rw [hpa] at hT2
    rw [if_neg (by decide)]
    have hH2 : Heap L (update own1 pg (.leaf t n)) (s1.store b (n % 512) (mkPte pg perm)) :=
      (hH1.move (by rw [hpg1]; simp) hpage (by simp) (by simp)).same rfl
    refine hY (update own1 pg (.leaf t n)) _ (hg.frame.trans (.step hof rfl ?_ rfl rfl))
      (.of_table hn hH hT hH2 hT2
        (fun v hv => update_of_ne (by rintro rfl; exact hv.elim (lt_irrefl _) (not_special hn)) ..)
        ((hg.spares _).trans (.step hnl (fun v _ h => nomatch hb.symm.trans h) rfl))) ?_ ?_ hH2
      ⟨_, hT2, ⟨?_, ?_, ?_⟩, fun a => hheld1 a nofun⟩
    · rw [hb]
      exact rfl
    · intro va hva
      rw [Table.pte hH2 hT2 (by unfold MAXVA; omega), hva, update_self]
      exact valid_of_ne hleaf.1
    · exact (update_of_ne (label_ne hpg1 hb nofun) ..).trans
        (hg.word pg fun l x hl => nomatch hpg1.symm.trans hl)
    · intro v
      by_cases hv : v = n
      · subst hv
        rw [update_self]
        exact iff_of_true hleaf.ne_zero (.inl (Nat.lt_succ_self v))
      · rw [update_of_ne hv, hm.iff v]
        refine or_congr_left ?_
        omega
    · intro v hv
      rw [update_of_ne (by rintro rfl; exact not_special hn hv)]
      exact hm.super v hv
    · intro hut v hv
      by_cases hvn : v = n
      · subst hvn
        rw [update_self, mkPte_and hperm (by decide), Nat.and_or_distrib_right]
        intro h0
        exact hu hut (Nat.or_eq_zero_iff.mp h0).1
      · rw [update_of_ne hvn]
        exact hm.user hut v (by omega)

/-- Back to `n` pages after a failure. -/
theorem undo_alloc (hF : Frame t own own1 s s1)
    (hk : St.Kept r n s s1) (hn : n ≤ m) (hH : Heap L own1 s1) (hU : User own1 s1 t r m u)
    {R : Nat → St → Prop} (hR : ∀ s', Leaves L t r n u own s s' → St.Kept r n s s' → R 0 s') :
    (uvmdealloc r (m * 4096) (n * 4096) >>= fun _ => (pure 0 : Vcode Nat)).wp (spec L may ok) R s1 := by
  have hm : (m * 4096 + 4095) / 4096 = m := by omega
  have hn' : (min (m * 4096) (n * 4096) + 4095) / 4096 = n := by omega
  refine wp_seq (uvmdealloc_spec hH (by rw [hm]; exact hU)) ?_
  rintro res s' ⟨rfl, hl, hk'⟩
  rw [hn'] at hl hk'
  exact hR s' (hl.trans hF) (hk.trans hk')

/-- How `uvmalloc` comes back: the space has the pages that it had, and on success new ones. -/
def Alloced (L : Layout) (may : Prop) (t : Owner) (r n : Nat) (u : Bool) (size : Nat) (own : Nat → Place)
    (s : St) (res : Nat) (s' : St) : Prop :=
  ((res = 0 ∧ may ∧ Leaves L t r n u own s s') ∨
    (res = size ∧ Leaves L t r ((size + 4095) / 4096) u own s s' ∧
      St.Zeroed r n ((size + 4095) / 4096) s')) ∧ St.Kept r n s s'

theorem allocLoop_spec (k : Nat)
    (hF : Frame t own own1 s s1) (hkept : St.Kept r n s s1) (hzero : St.Zeroed r n m s1)
    (hH : Heap L own1 s1) (hU : User own1 s1 t r m u) (hn : n ≤ m)
    (hk : 0 < k ∧ newsz ≤ (m + k - 1) * 4096) (hm : m * 4096 < newsz + 4096) :
    (allocLoop r (n * 4096) newsz k (m * 4096)).wp (spec L may ok)
      (Alloced L may t r n u newsz own s) s1 := by
  induction k generalizing m own1 s1 with
  | zero => omega
  | succ k ih =>
    rw [allocLoop]
    by_cases hend : newsz ≤ m * 4096
    · rw [if_pos hend]
      have hpages : (newsz + 4095) / 4096 = m := by omega
      refine ⟨.inr ⟨rfl, ⟨own1, hF, hH, ?_⟩, ?_⟩, hkept⟩
      · rw [hpages]
        exact hU
      · rw [hpages]
        exact hzero
    · rw [if_neg hend]
      refine wp_kalloc_hand hH hU ?_ ?_
      · intro hmay
        rw [if_pos rfl]
        exact undo_alloc hF hkept hn hH hU fun s' h hk' => ⟨.inl ⟨rfl, hmay, h⟩, hk'⟩
      · intro pg own2 s2 hpg0 hF2 hk2 hhand
        rw [if_neg hpg0]
        refine wp_memset ?_
        have hpa : pg % PGSIZE = 0 := hhand.heap.aligned ((hhand.held pg).mpr rfl) (by simp)
        obtain ⟨hhand, hF3, hk3⟩ := hhand.write fun _ => 0
        have hF3 := (hF.trans hF2).trans hF3
        have hk3 := hk2.trans hk3
        refine wp_add_page hhand (by decide) (by decide) (fun _ => by decide) ?_ ?_
        · intro own' s' hmay hF' hk' hH' hU'
          exact undo_alloc (hF3.trans hF') (hkept.trans ((hk3.trans hk').mono hn)) hn hH' hU'
            fun s' h hk' => ⟨.inl ⟨rfl, hmay, h⟩, hk'⟩
        · intro own' s' hF' hk' hnew hword hH' hU'
          have hk' := hk3.trans hk'
          -- the pages that were new, and this one
          have hzero' : St.Zeroed r n (m + 1) s' := by
            intro va h1 h2
            by_cases hva : va / 4096 = m
            · refine ⟨_, hnew va hva, mkPte_flags _ (by decide), fun i => ?_⟩
              rw [PTE2PA_mkPte hpa (by decide), hword]
              show update s2.word pg (fun _ => 0) pg i = 0
              rw [update_self]
            · exact hzero.kept hk' va h1 (by omega)
          have hnext : m * 4096 + PGSIZE = (m + 1) * 4096 := by
            unfold PGSIZE
            omega
          have hlast : (m + 1) * 4096 < newsz + 4096 := by
            rw [Nat.succ_mul]
            exact Nat.add_lt_add_right (not_le.mp hend) 4096
          rw [hnext]
          exact ih (hF3.trans hF') (hkept.trans (hk'.mono hn)) hzero' hH' hU' (by omega) (by omega) hlast

theorem uvmalloc_spec (hH : Heap L own s) (hU : User own s t r ((oldsz + 4095) / 4096) u) :
    (uvmalloc r oldsz newsz).wp (spec L may ok)
      (Alloced L may t r ((oldsz + 4095) / 4096) u (max oldsz newsz) own s) s := by
  have hbound : (oldsz + 4095) / 4096 ≤ 32768 := by
    obtain ⟨map, hT, hm, -⟩ := hU
    exact hm.bound hH hT
  unfold uvmalloc
  by_cases hlt : newsz < oldsz
  · rw [if_pos hlt, Nat.max_eq_left (by omega)]
    exact ⟨.inr ⟨rfl, ⟨own, .refl t own s, hH, hU⟩, fun va h1 h2 => by omega⟩, .refl r _ s⟩
  · rw [if_neg hlt, Nat.max_eq_right (by omega)]
    rw [roundup oldsz rfl (by omega)]
    refine allocLoop_spec _ (.refl t own s) (.refl r _ s) (fun va h1 h2 => by omega) hH hU le_rfl ?_
      (by omega)
    unfold PGSIZE
    omega

end Grow

/-! ## Making and freeing a page table -/

section Make

variable {ok : Err → Prop} {own : Nat → Place} {map : Nat → Nat}

/-- The table is gone. -/
def Gone (L : Layout) (t : Owner) (own : Nat → Place) (s s' : St) : Prop :=
  ∃ own', Frame t own own' s s' ∧ Heap L own' s' ∧ Absent own' t

theorem Gone.trans (hF : Frame t own own1 s s1) (h : Gone L t own1 s1 s') : Gone L t own s s' := by
  obtain ⟨own', hF', h'⟩ := h
  exact ⟨own', hF.trans hF', h'⟩

theorem freewalk_gone (hH : Heap L own s) (hT : Table own s.word t r Special map)
    (hmap : ∀ v, map v = 0) (hheld : ∀ a, own a ≠ .held t) :
    (freewalk 3 r).wp (spec L may ok) (fun _ s' => Gone L t own s s') s := by
  obtain rfl : map = fun _ => 0 := funext hmap
  refine wp_mono (freewalk_root hH hT) ?_
  rintro _ s' ⟨own', hH', hF, hfree, hkeep⟩
  refine ⟨own', hF, hH', ?_⟩
  intro a ha
  by_cases hnode : ∃ l x, own a = .node t l x
  · obtain ⟨l, x, hlx⟩ := hnode
    exact hfree a l x hlx
  · rw [hkeep a fun l x h => hnode ⟨l, x, h⟩] at ha ⊢
    cases hb : own a with
    | free => rfl
    | node t' l x =>
      rw [hb] at ha
      obtain rfl : t' = t := ha
      exact absurd ⟨l, x, hb⟩ hnode
    | leaf t' v =>
      rw [hb] at ha
      obtain rfl : t' = t := ha
      exact absurd rfl (hT.back a v hb).1
    | held t' =>
      rw [hb] at ha
      obtain rfl : t' = t := ha
      exact absurd hb (hheld a)
    | _ =>
      rw [hb] at ha
      exact absurd ha id

theorem uvmfree_spec (sz : Nat) (hH : Heap L own s) (hT : Table own s.word t r Special map)
    (hbound : (sz + 4095) / 4096 ≤ 32768) (hmap : ∀ v, map v ≠ 0 ↔ v < (sz + 4095) / 4096)
    (hheld : ∀ a, own a ≠ .held t) :
    (uvmfree r sz).wp (spec L may ok) (fun _ s' => Gone L t own s s') s := by
  have hcount : (sz + 4095) / 4096 * 4096 / PGSIZE = (sz + 4095) / 4096 :=
    Nat.mul_div_cancel _ (by decide)
  unfold uvmfree
  by_cases hsz : 0 < sz
  · rw [if_pos hsz, roundup sz rfl (by omega), hcount]
    unfold uvmunmap
    rw [if_neg (by decide)]
    refine wp_seq (unmapLoop_spec true _ hH hT (by unfold MAXVA; omega) rfl ?_ ?_) ?_
    · intro v _ hv
      exact (hmap v).mpr (by omega)
    · intro v _ hv
      exact iff_of_true rfl (not_special (by omega))
    · rintro _ s' ⟨own', hF, hH', hT', -, hheld'⟩
      refine wp_mono (freewalk_gone hH' hT' ?_ fun a ha => hheld a (hheld' a ha)) ?_
      · grind [unmapped]
      · intro _ s'' h
        exact h.trans hF
  · grind [freewalk_gone]

/-- Unmapping one of the two pages at the top. -/
theorem uvmunmap_special (hH : Heap L own s) (hT : Table own s.word t r Special map) {va : Nat}
    (hva : va + 4096 ≤ MAXVA) (hal : va % 4096 = 0) (hS : Special (va / 4096))
    (hmap : map (va / 4096) ≠ 0) :
    (uvmunmap r va 1 false).wp (spec L may ok) (fun _ s' => ∃ own', Frame t own own' s s' ∧
      Heap L own' s' ∧ Table own' s'.word t r Special (update map (va / 4096) 0) ∧
      ∀ a, own' a = .held t → own a = .held t) s := by
  unfold uvmunmap
  rw [if_neg (show ¬va % PGSIZE ≠ 0 from not_not_intro hal)]
  refine wp_mono (unmapLoop_spec false 1 hH hT (by omega) hal ?_ ?_) ?_
  · intro v h1 h2
    obtain rfl : v = va / 4096 := by omega
    exact hmap
  · grind
  · rintro _ s' ⟨own', hF, hH', hT', -, hheld'⟩
    refine ⟨own', hF, hH', ?_, hheld'⟩
    have heq : unmapped map (va / 4096) 1 = update map (va / 4096) 0 := by grind [unmapped]
    rwa [heq] at hT'

theorem Absent.eq_free (h : Absent own t) {a : Nat} {pl : Place} (ha : own a = pl) (hpl : pl.Of t) :
    pl = .free := by
  rw [← ha] at hpl ⊢
  exact h a hpl

/-- A page of zeros is a table without entries. -/
theorem Absent.table (h : Absent own t) {pt : Nat} (hzero : ∀ i, word pt i = 0)
    (S : Nat → Prop) : Table (update own pt (.node t 2 0)) word t pt S fun _ => 0 := by
  have hnode : ∀ a l x, update own pt (.node t 2 0) a = .node t l x → a = pt ∧ l = 2 ∧ x = 0 := by
    intro a l x ha
    by_cases hb : a = pt
    · grind
    · rw [update_of_ne hb] at ha
      cases h.eq_free ha rfl
  refine ⟨update_self .., ?_, ?_, ?_, ?_, fun _ h => absurd rfl h, fun _ h => absurd rfl h,
    fun _ h => absurd rfl h, ?_⟩
  · grind
  · intro a l q i ha _
    obtain ⟨rfl, -⟩ := hnode a _ _ ha
    exact .inl (hzero i)
  · intro b l x hb hl
    obtain ⟨-, rfl, -⟩ := hnode b l x hb
    omega
  · intro a q i ha _
    obtain ⟨-, h2, -⟩ := hnode a _ _ ha
    omega
  · intro b v hb
    cases h.eq_free (of_relabel hb nofun).2 rfl

/-- How `proc_pagetable` comes back: without a table, or with one that has no user memory. -/
def Made (L : Layout) (may : Prop) (t : Owner) (own : Nat → Place) (s : St) (res : Nat) (s' : St) : Prop :=
  (res = 0 ∧ may ∧ Gone L t own s s') ∨ (res ≠ 0 ∧ Leaves L t res 0 false own s s')

theorem mkPte_super {pa perm : Nat} (hp : perm < 1024) (hU : (perm ||| 1) &&& PTE_U = 0) :
    mkPte pa perm &&& PTE_U = 0 := by
  rw [mkPte_and hp (by decide)]
  exact hU

theorem procPagetable_spec (hH : Heap L own s) (habs : Absent own t) (trapframe : Nat) :
    (procPagetable L trapframe).wp (spec L may ok) (Made L may t own s) s := by
  have hS1 : Special (TRAMPOLINE / 4096) := .inr rfl
  have hS2 : Special (TRAPFRAME / 4096) := .inl rfl
  unfold procPagetable uvmcreate
  rw [bind_assoc]
  refine wp_kalloc hH (.node t 2 0) (by simp) (by simp) ?_ ?_
  · intro hmay
    rw [if_pos rfl]
    exact .inl ⟨rfl, hmay, own, .refl t own s, hH, habs⟩
  intro pt rest hpt hpt0 hH1
  rw [if_neg hpt0, bind_assoc]
  refine wp_memset ?_
  show (if pt = 0 then _ else _ : Vcode Nat).wp _ _ _
  rw [if_neg hpt0]
  have hT1 : Table (update own pt (.node t 2 0)) ((s.take pt rest).fill pt 0).word t pt Special
      fun _ => 0 := habs.table (fun i => by simp [St.fill]) Special
  have hof : (own pt).Of t := by
    rw [hpt]
    trivial
  have hF1 : Frame t own (update own pt (.node t 2 0)) s ((s.take pt rest).fill pt 0) :=
    .step hof rfl hof (update_idem ..) rfl
  have hheld1 : ∀ a, update own pt (.node t 2 0) a ≠ .held t := fun a ha => by
    cases habs.eq_free (of_relabel ha (by simp)).2 rfl
  generalize update own pt (.node t 2 0) = own1 at hT1 hF1 hheld1 hH1
  replace hH1 : Heap L own1 ((s.take pt rest).fill pt 0) := hH1.same rfl
  generalize (s.take pt rest).fill pt 0 = s1 at hT1 hF1 hH1
  refine wp_seq (mappages_one TRAMPOLINE hH1 hT1 (by decide) (by decide) rfl L.trampoline
    (PTE_R ||| PTE_X)) ?_
  rintro res s' ⟨own2, s2, hg, hH2, hT2, ⟨rfl, hmay, rfl⟩ | ⟨rfl, b, hb, rfl⟩⟩
  · rw [if_pos (by decide)]
    refine wp_seq (uvmfree_spec 0 hH2 hT2 (by decide) ?_ ?_) ?_
    · intro v
      exact iff_of_false (fun h => h rfl) (Nat.not_lt_zero v)
    · intro a ha
      exact hheld1 a (hg.was ha (by simp))
    · intro _ s' h
      exact .inl ⟨rfl, hmay, h.trans (hF1.trans hg.frame)⟩
  rw [if_neg (by decide)]
  have hT3 := hT2.set_special hH2 hb hS1 (fun _ => isLeaf_mkPte L.trampoline
    (show PTE_R ||| PTE_X < 1024 by decide) (by decide))
  have hF3 : Frame t own own2 s (s2.store b (TRAMPOLINE / 4096 % 512) (mkPte L.trampoline (PTE_R ||| PTE_X))) := by
    refine (hF1.trans hg.frame).trans (.write ?_ rfl rfl)
    rw [hb]
    exact rfl
  have hH3 : Heap L own2 (s2.store b (TRAMPOLINE / 4096 % 512) (mkPte L.trampoline (PTE_R ||| PTE_X))) :=
    hH2.same rfl
  have hheld2 : ∀ a, own2 a ≠ .held t := fun a ha => hheld1 a (hg.was ha (by simp))
  replace hT3 : Table own2 (s2.store b (TRAMPOLINE / 4096 % 512)
    (mkPte L.trampoline (PTE_R ||| PTE_X))).word t pt Special _ := hT3
  generalize s2.store b (TRAMPOLINE / 4096 % 512) (mkPte L.trampoline (PTE_R ||| PTE_X)) = s3 at hT3 hF3 hH3
  refine wp_seq (mappages_one TRAPFRAME hH3 hT3 (by decide) (by decide)
    (update_of_ne (by decide) ..) trapframe (PTE_R ||| PTE_W)) ?_
  rintro res s' ⟨own4, s4, hg4, hH4, hT4, ⟨rfl, hmay, rfl⟩ | ⟨rfl, c, hc, rfl⟩⟩
  · rw [if_pos (by decide)]
    refine wp_seq (uvmunmap_special hH4 hT4 (by decide) (by decide) hS1 ?_) ?_
    · rw [update_self]
      exact (isLeaf_mkPte _ (by decide) (by decide)).ne_zero
    rintro _ s5 ⟨own5, hF5, hH5, hT5, hheld5⟩
    refine wp_seq (uvmfree_spec 0 hH5 hT5 (by decide) ?_ ?_) ?_
    · grind
    · intro a ha
      exact hheld2 a (hg4.was (hheld5 a ha) (by simp))
    · intro _ s' h
      exact .inl ⟨rfl, hmay, h.trans ((hF3.trans hg4.frame).trans hF5)⟩
  · rw [if_neg (by decide)]
    have hT5 := hT4.set_special hH4 hc hS2 (fun _ => isLeaf_mkPte trapframe
      (show PTE_R ||| PTE_W < 1024 by decide) (by decide))
    refine .inr ⟨hpt0, own4, (hF3.trans hg4.frame).trans ?_, hH4.same rfl, _, hT5, ⟨?_, ?_, by simp⟩, ?_⟩
    · refine .write ?_ rfl rfl
      rw [hc]
      exact rfl
    · intro v
      by_cases hv2 : v = TRAPFRAME / 4096
      · subst hv2
        rw [update_self]
        exact iff_of_true (isLeaf_mkPte _ (by decide) (by decide)).ne_zero (.inr hS2)
      · rw [update_of_ne hv2]
        by_cases hv1 : v = TRAMPOLINE / 4096
        · subst hv1
          rw [update_self]
          exact iff_of_true (isLeaf_mkPte _ (by decide) (by decide)).ne_zero (.inr hS1)
        · rw [update_of_ne hv1]
          refine iff_of_false (fun h => h rfl) ?_
          rintro (h | h | h)
          · omega
          · exact hv2 h
          · exact hv1 h
    · intro v hv
      by_cases hv2 : v = TRAPFRAME / 4096
      · subst hv2
        rw [update_self]
        exact mkPte_super (by decide) (by decide)
      · rw [update_of_ne hv2]
        by_cases hv1 : v = TRAMPOLINE / 4096
        · subst hv1
          rw [update_self]
          exact mkPte_super (by decide) (by decide)
        · rw [update_of_ne hv1]
          rfl
    · intro a ha
      exact hheld2 a (hg4.was ha (by simp))

end Make

end Xv6.Vm
