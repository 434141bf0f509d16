/-
  TRANSLATION: what a page table maps a virtual address to, and `mappages` and `uvmunmap` as updates of
  that map.

  To `walk` a page table is a radix tree of three levels whose pointers are the valid PTEs.  `St.node` is
  the page that a path of indices leads to, and the MAP is `St.pte`: the PTE of a virtual address, if it
  is valid.  A table is WELL FORMED when no interior page is met twice and no leaf refers to one, and the
  pages that `kalloc` will hand out are not met at all; nothing is asked of what is not valid.

  A walk that allocates hangs empty pages into the tree: the map stays as it is (`Grown`).  A store on the
  lowest level changes the map in one place (`pte_store`).  The two loops are inductions over these.
-/
import Xv6.Lib.Radix
import Xv6.BioSpec
import Xv6.Fs.Image
import Xv6.Vm.Table

namespace Xv6.Vm

open Function Prog Vcode Machine Option List Radix

variable {i : Fin 512} {L : Layout} {p q : List (Fin 512)} {a n pa r va va' w : Nat} {may : Prop}
  {s s' s1 : St}

variable {perm : Nat}

/-! ## The tree and the map -/

/-- A PTE that is valid. -/
def valid (w : Nat) : Option Nat := if w &&& PTE_V ≠ 0 then some w else none

/-- The page that a valid PTE refers to. -/
def pteDec (w : Nat) : Option Nat := (valid w).map PTE2PA

theorem valid_of_ne (h : w &&& PTE_V ≠ 0) : valid w = some w := if_pos h

theorem pteDec_of_ne (h : w &&& PTE_V ≠ 0) : pteDec w = some (PTE2PA w) :=
  congrArg (Option.map PTE2PA) (valid_of_ne h)

theorem pteDec_of_not (h : ¬w &&& PTE_V ≠ 0) : pteDec w = none := congrArg (Option.map PTE2PA) (if_neg h)

theorem PX_lt (level va : Nat) : PX level va < 512 := by
  rw [PX_eq]
  exact Nat.mod_lt _ (by decide)

/-- `PX` as an index of a page-table page. -/
def px (level va : Nat) : Fin 512 := ⟨PX level va, PX_lt level va⟩

/-- The indices that `walk` uses for its first `k` pages, the last one first. -/
def indices (va : Nat) : Nat → List (Fin 512)
  | 0 => []
  | k + 1 => px (2 - k) va :: indices va k

theorem length_indices (va k : Nat) : (indices va k).length = k := by
  induction k with
  | zero => rfl
  | succ k ih => rw [indices, length_cons, ih]

theorem indices_lt (va : Nat) : (indices va 2).length < 3 := by
  rw [length_indices]
  decide

/-- The three indices tell the virtual pages apart. -/
theorem indices_inj (hva : va < MAXVA) (hva' : va' < MAXVA) :
    indices va 3 = indices va' 3 ↔ va / 4096 = va' / 4096 := by
  unfold MAXVA at hva hva'
  constructor
  · intro h
    obtain ⟨h0, h⟩ := cons.inj h
    obtain ⟨h1, h⟩ := cons.inj h
    obtain ⟨h2, -⟩ := cons.inj h
    have h0 : PX 0 va = PX 0 va' := congrArg Fin.val h0
    have h1 : PX 1 va = PX 1 va' := congrArg Fin.val h1
    have h2 : PX 2 va = PX 2 va' := congrArg Fin.val h2
    rw [PX_eq, PX_eq] at h0 h1 h2
    omega
  · intro h
    have hpx : ∀ l, px l va = px l va' := fun l => by
      apply Fin.ext
      show PX l va = PX l va'
      rw [PX_eq, PX_eq, h]
    unfold indices indices indices
    rw [hpx, hpx, hpx]
    rfl

/-- The words of the pages, by index. -/
def ptes (word : Nat → Nat → Nat) : Nat → Fin 512 → Nat := fun a i => word a i

namespace St

variable (s : St) (r : Nat)

/-- The page that a path leads to from the root `r`. -/
def node (p : List (Fin 512)) : Option Nat := Radix.node pteDec (ptes s.word) r p

/-- What `walk` finds for `va`: the page and the index of its PTE. -/
def walks (va : Nat) : Option (Nat × Nat) := (s.node r (indices va 2)).map fun a => (a, PX 0 va)

/-- The PTE of `va`, if there is one and it is valid. -/
def pte (va : Nat) : Option Nat := (s.node r (indices va 2)).bind fun a => valid (s.word a (PX 0 va))

/-- The table at `r` is a tree, and the free pages have nothing to do with it. -/
structure WellFormed : Prop where
  separate : Radix.Separate pteDec 3 (ptes s.word) r
  fresh : ∀ b ∈ s.freelist, b % PGSIZE = 0 ∧ b ≠ 0 ∧ ∀ p, p.length ≤ 3 → s.node r p ≠ some b
  nodup : s.freelist.Nodup

/-- An interior page of the table. -/
def Interior (a : Nat) : Prop := ∃ p, p.length < 3 ∧ s.node r p = some a

end St

section Tree

variable {b : Nat}

theorem ptes_store (s : St) (a : Nat) (i : Fin 512) (w : Nat) :
    ptes (s.store a i w).word = set (ptes s.word) a i w := by
  funext b j
  show update s.word a (update (s.word a) i w) b j = _
  by_cases hb : b = a
  · subst hb
    rw [update_self]
    by_cases hj : j = i
    · subst hj
      rw [update_self, set_self]
    · rw [update_of_ne fun h => hj (Fin.ext h), set_of_ne fun h => hj h.2]
      rfl
  · rw [update_of_ne hb, set_of_ne fun h => hb h.1]
    rfl

theorem node_cons : s.node r (i :: p) = (s.node r p).bind fun a => pteDec (s.word a i) := rfl

/-- The leaf is the page that the PTE refers to. -/
theorem node_leaf (s : St) (r va : Nat) : s.node r (indices va 3) = (s.pte r va).map PTE2PA := by
  rw [indices, node_cons, St.pte]
  cases s.node r (indices va 2) with
  | none => rfl
  | some a => rfl

/-- An interior page is met on one path. -/
theorem St.WellFormed.path_eq (hs : s.WellFormed r) (hp : p.length ≤ 3) (hq : q.length < 3)
    (hpa : s.node r p = some a) (hqa : s.node r q = some a) : p = q :=
  hs.separate p q a hp hq hpa hqa

/-- A store on the lowest level changes one leaf, and the table stays a tree if the leaf is no page of it. -/
theorem node_store (hs : Separate pteDec 3 (ptes s.word) r) (ha : s.node r (indices va 2) = some a) (w : Nat) :
    (∀ p, p.length ≤ 3 → (s.store a (PX 0 va) w).node r p =
      if p = indices va 3 then pteDec w else s.node r p) ∧
    ((∀ b, pteDec w = some b → ¬s.Interior r b) →
      Separate pteDec 3 (ptes (s.store a (PX 0 va) w).word) r) := by
  have hlen : (indices va 2).length + 1 = 3 := by rw [length_indices]
  have hset : ptes (s.store a (PX 0 va) w).word = Radix.set (ptes s.word) a (px 0 va) w :=
    ptes_store s a (px 0 va) w
  refine ⟨fun p hp => ?_, fun hw => ?_⟩
  · unfold St.node
    rw [hset]
    exact hs.node_put ha hlen hp
  · rw [hset]
    exact hs.put ha hlen fun b hb c hc h => hw b hb ⟨c, hc, h⟩

/-- **A store on the lowest level changes the map in one place.** -/
theorem pte_store (hs : Radix.Separate pteDec 3 (ptes s.word) r) (ha : s.node r (indices va 2) = some a)
    (hva : va < MAXVA) (hva' : va' < MAXVA) :
    (s.store a (PX 0 va) w).pte r va' = if va' / 4096 = va / 4096 then valid w else s.pte r va' := by
  have hnode : (s.store a (PX 0 va) w).node r (indices va' 2) = s.node r (indices va' 2) := by
    rw [(node_store hs ha w).1 _ (le_of_lt (indices_lt va')), if_neg]
    intro h
    have := congrArg length h
    rw [length_indices, length_indices] at this
    omega
  have hpath : px 0 va' = px 0 va ∧ indices va' 2 = indices va 2 ↔ va' / 4096 = va / 4096 := by
    rw [← indices_inj hva' hva]
    exact ⟨fun h => congrArg₂ cons h.1 h.2, cons.inj⟩
  unfold St.pte
  rw [hnode]
  cases hc : s.node r (indices va' 2) with
  | none =>
    rw [if_neg]
    · rfl
    · intro h
      rw [(hpath.mpr h).2, ha] at hc
      cases hc
  | some c =>
    have hword : (s.store a (PX 0 va) w).word c (PX 0 va') =
        set (ptes s.word) a (px 0 va) w c (px 0 va') := by
      rw [← ptes_store]
      rfl
    show valid _ = ite _ _ (valid _)
    rw [hword]
    split
    · grind [set_self]
    · next h =>
      rw [set_of_ne]
      · rfl
      · rintro ⟨rfl, hpx⟩
        refine h (hpath.mp ⟨hpx, ?_⟩)
        exact hs _ _ c (le_of_lt (indices_lt va')) (indices_lt va) hc ha

/-- A page that is not interior may change. -/
theorem pte_off (hb : ¬s.Interior r b) (hword : ∀ a, a ≠ b → s'.word a = s.word a) :
    (∀ p, p.length ≤ 3 → s'.node r p = s.node r p) ∧ ∀ va, s'.pte r va = s.pte r va := by
  have hnode : ∀ p, p.length ≤ 3 → s'.node r p = s.node r p := fun p hp =>
    node_off (fun c hc h => hb ⟨c, hc, h⟩) (fun a ha => by unfold ptes; rw [hword a ha]) hp
  refine ⟨hnode, fun va => ?_⟩
  unfold St.pte
  rw [hnode _ (le_of_lt (indices_lt va))]
  cases hc : s.node r (indices va 2) with
  | none => rfl
  | some c =>
    show valid _ = valid _
    rw [hword c]
    rintro rfl
    exact hb ⟨_, indices_lt va, hc⟩

end Tree

/-! ## `walk` -/

/-- Empty pages have been hung into the tree. -/
structure Grown (r : Nat) (s s' : St) : Prop where
  wf : s'.WellFormed r
  pte : ∀ va, s'.pte r va = s.pte r va
  node : ∀ p a, p.length ≤ 3 → s'.node r p = some a → s.node r p = some a ∨ a ∈ s.freelist
  free : ∀ b, b ∈ s'.freelist → b ∈ s.freelist

theorem Grown.refl (h : s.WellFormed r) : Grown r s s :=
  ⟨h, fun _ => rfl, fun _ _ _ h => .inl h, fun _ h => h⟩

theorem Grown.trans (h : Grown r s s1) (h' : Grown r s1 s') : Grown r s s' := by
  refine ⟨h'.wf, fun va => (h'.pte va).trans (h.pte va), ?_, fun b hb => h.free b (h'.free b hb)⟩
  intro p a hp ha
  rcases h'.node p a hp ha with ha | ha
  · exact h.node p a hp ha
  · exact .inr (h.free a ha)

section Walk

variable {ok : Err → Prop}

/-- A free page becomes the empty page at entry `i` of the page `a`. -/
theorem grown_step (hs : s.WellFormed r) {pg : Nat} {rest : List Nat}
    (hfree : s.freelist = pg :: rest) (hq : q.length < 2) (ha : s.node r q = some a)
    (h0 : pteDec (s.word a i) = none) :
    Grown r s (((s.take pg rest).fill pg 0).store a i (dirPte pg)) ∧
    (((s.take pg rest).fill pg 0).store a i (dirPte pg)).node r (i :: q) = some pg := by
  obtain ⟨hal, hpg0, hfresh⟩ := hs.fresh pg (by rw [hfree]; exact mem_cons_self ..)
  have hout : ¬s.Interior r pg := fun ⟨c, hc, h⟩ => hfresh c hc.le h
  have hapg : a ≠ pg := fun h => hout ⟨q, by omega, h ▸ ha⟩
  -- the page is cleared before it is in the tree
  obtain ⟨s1, hs1, hlist, hword, hzero⟩ : ∃ s1, (s.take pg rest).fill pg 0 = s1 ∧ s1.freelist = rest ∧
      (∀ b, b ≠ pg → s1.word b = s.word b) ∧ ∀ j, s1.word pg j = 0 := by
    refine ⟨_, rfl, rfl, ?_, ?_⟩
    · intro b hb
      simp [St.fill, St.take, hb]
    · intro j
      simp [St.fill]
  rw [hs1]
  obtain ⟨hnode1, -⟩ := pte_off hout hword
  have hsep1 : Radix.Separate pteDec 3 (ptes s1.word) r :=
    hs.separate.off (fun c hc h => hout ⟨c, hc, h⟩) fun b hb => by unfold ptes; rw [hword b hb]
  have ha1 : s1.node r q = some a := (hnode1 q (by omega)).trans ha
  have h01 : pteDec (s1.word a i) = none := by rwa [hword a hapg]
  have hw : pteDec (dirPte pg) = some pg := by
    rw [pteDec_of_ne (dirPte_valid pg), PTE2PA_dirPte hal]
  have hfresh1 : ∀ c : List (Fin 512), c.length ≤ 3 → s1.node r c ≠ some pg := fun c hc h =>
    hfresh c hc ((hnode1 c hc).symm.trans h)
  have hempty : ∀ j : Fin 512, pteDec (s1.word pg j) = none := fun j => by
    rw [hzero]
    rfl
  have hnode : ∀ p, p.length ≤ 3 →
      (s1.store a i (dirPte pg)).node r p = if p = i :: q then some pg else s.node r p := by
    intro p hp
    show node pteDec (ptes (s1.store a i (dirPte pg)).word) r p = _
    rw [ptes_store, hsep1.node_grow ha1 (by omega) h01 hw (fun c hc => hfresh1 c hc.le) hempty hp]
    rw [← hnode1 p hp]
    rfl
  have hnone : s.node r (i :: q) = none := by
    rw [node_cons, ha]
    exact h0
  refine ⟨⟨⟨?_, ?_, ?_⟩, ?_, ?_, ?_⟩, ?_⟩
  · rw [ptes_store]
    exact hsep1.grow ha1 (by omega) h01 hw hfresh1 hempty
  · intro b hb
    have hb : b ∈ rest := by
      rw [← hlist]
      exact hb
    have hnd := hs.nodup
    rw [hfree] at hnd
    obtain ⟨h1, h2, h3⟩ := hs.fresh b (by rw [hfree]; exact mem_cons_of_mem _ hb)
    refine ⟨h1, h2, fun p hp h => ?_⟩
    rw [hnode p hp] at h
    split at h
    · obtain rfl := some.inj h
      exact (nodup_cons.mp hnd).1 hb
    · exact h3 p hp h
  · have hnd := hs.nodup
    rw [hfree] at hnd
    show s1.freelist.Nodup
    rw [hlist]
    exact (nodup_cons.mp hnd).2
  · intro va
    unfold St.pte
    rw [hnode _ (le_of_lt (indices_lt va))]
    split
    · next h =>
      -- nothing is mapped under the new page
      rw [h, hnone]
      show valid (update s1.word a _ pg _) = none
      rw [update_of_ne (Ne.symm hapg), hzero]
      rfl
    · cases hc : s.node r (indices va 2) with
      | none => rfl
      | some c =>
        show valid (update s1.word a _ c _) = valid _
        rw [update_of_ne, hword]
        · rintro rfl
          exact hout ⟨_, indices_lt va, hc⟩
        · rintro rfl
          have := hs.path_eq (le_of_lt (indices_lt va)) (by omega) hc ha
          rw [← this, length_indices] at hq
          omega
  · grind
  · intro b hb
    rw [hfree]
    refine mem_cons_of_mem _ ?_
    rw [← hlist]
    exact hb
  · rw [hnode _ (by simp; omega), if_pos rfl]

/-- The index of the next level. -/
theorem indices_succ (va : Nat) {l : Nat} (hl : l + 1 ≤ 2) :
    indices va (2 - l) = px (l + 1) va :: indices va (2 - (l + 1)) := by
  obtain ⟨k, hk⟩ : ∃ k, 2 - l = k + 1 := ⟨1 - l, by omega⟩
  rw [hk, indices, show 2 - (l + 1) = k by omega, show 2 - k = l + 1 by omega]

theorem indices_suffix (va : Nat) {k m : Nat} (h : k ≤ m) : indices va k <:+ indices va m := by
  induction h with
  | refl => exact suffix_refl _
  | step _ ih => exact ih.trans (suffix_cons ..)

/-- One step of a walk. -/
theorem node_step {l : Nat} (hl : l + 1 ≤ 2) (ha : s.node r (indices va (2 - (l + 1))) = some a) :
    s.node r (indices va (2 - l)) = pteDec (s.word a (PX (l + 1) va)) := by
  rw [indices_succ va hl, node_cons, ha]
  rfl

/-- How a walk that allocates comes back. -/
def Walks (may : Prop) (r va : Nat) (s : St) (res : Option (Nat × Nat)) (s' : St) : Prop :=
  Grown r s s' ∧ ((res = none ∧ may) ∨
    ∃ a, s'.node r (indices va 2) = some a ∧ res = some (a, PX 0 va))

theorem walkFrom_walks (va l : Nat) (hl : l ≤ 2) (hs : s.WellFormed r)
    (ha : s.node r (indices va (2 - l)) = some a) :
    (walkFrom va true l a).wp (spec L may ok) (Walks may r va s) s := by
  induction l generalizing a s with
  | zero => exact ⟨.refl hs, .inr ⟨a, ha, rfl⟩⟩
  | succ l ih =>
    rw [walkFrom]
    refine wp_load ?_
    split
    · next hv => exact ih (by omega) hs ((node_step hl ha).trans (pteDec_of_ne hv))
    · next hv =>
      rw [if_neg (by simp)]
      refine wp_take (fun hmay => ?_) fun pg rest hfree => ?_
      · rw [if_pos rfl]
        exact ⟨.refl hs, .inl ⟨rfl, hmay⟩⟩
      · rw [if_neg (hs.fresh pg (by rw [hfree]; exact mem_cons_self ..)).2.1]
        refine wp_memset (wp_store ?_)
        obtain ⟨hg, hnode⟩ := grown_step (i := px (l + 1) va) hs hfree (by rw [length_indices]; omega) ha
          (pteDec_of_not hv)
        rw [← indices_succ va hl] at hnode
        refine wp_mono (ih (by omega) hg.wf hnode) ?_
        rintro res s' ⟨hg', hres⟩
        exact ⟨hg.trans hg', hres⟩

theorem walk_walks (hva : va < MAXVA) (hs : s.WellFormed r) :
    (walk r va true).wp (spec L may ok) (Walks may r va s) s := by
  unfold walk
  rw [if_neg (not_le.mpr hva)]
  exact walkFrom_walks va 2 le_rfl hs rfl

/-- A walk that does not allocate reads the tree. -/
theorem walkFrom_reads (va l : Nat) (hl : l ≤ 2)
    (ha : s.node r (indices va (2 - l)) = some a) :
    (walkFrom va false l a).wp (spec L may ok) (fun res s' => res = s.walks r va ∧ s' = s) s := by
  induction l generalizing a with
  | zero =>
    refine ⟨?_, rfl⟩
    unfold St.walks
    rw [show indices va 2 = indices va (2 - 0) from rfl, ha]
    rfl
  | succ l ih =>
    rw [walkFrom]
    refine wp_load ?_
    split
    · next hv => exact ih (by omega) ((node_step hl ha).trans (pteDec_of_ne hv))
    · next hv =>
      rw [if_pos (by rfl)]
      refine ⟨?_, rfl⟩
      have hnone := (node_step hl ha).trans (pteDec_of_not hv)
      have h2 : s.node r (indices va 2) = none :=
        node_none_of_suffix (indices_suffix va (Nat.sub_le 2 l)) hnone
      unfold St.walks
      rw [h2]
      rfl

theorem walk_reads (hva : va < MAXVA) :
    (walk r va false).wp (spec L may ok) (fun res s' => res = s.walks r va ∧ s' = s) s := by
  unfold walk
  rw [if_neg (not_le.mpr hva)]
  exact walkFrom_reads va 2 le_rfl rfl

theorem wp_walk (hva : va < MAXVA) {α : Type} {Q : α → St → Prop}
    {k : Option (Nat × Nat) → Vcode α} (h : (k (s.walks r va)).wp (spec L may ok) Q s) :
    (walk r va false >>= k).wp (spec L may ok) Q s := by
  refine wp_seq (walk_reads hva) ?_
  rintro res s' ⟨rfl, rfl⟩
  exact h

/-- The PTE at the place where `walk` finds it. -/
theorem pte_of_node (ha : s.node r (indices va 2) = some a) :
    s.pte r va = valid (s.word a (PX 0 va)) := by
  unfold St.pte
  rw [ha]
  rfl

end Walk

/-! ## `mappages` -/

section Map

variable {ok : Err → Prop}

/-- How mapping the pages from `v` up to `last`, to the frames from `pa` on, comes back. -/
structure Maps (r v last pa perm : Nat) (s : St) (res : Int) (s' : St) : Prop where
  ret : res = 0 ∨ res = -1
  wf : s'.WellFormed r
  inside : res = 0 → ∀ va, va < MAXVA → v ≤ va / 4096 → va / 4096 ≤ last →
    s'.pte r va = some (mkPte (pa + (va / 4096 - v) * PGSIZE) perm)
  outside : ∀ va, va < MAXVA → (va / 4096 < v ∨ last < va / 4096) → s'.pte r va = s.pte r va

/-- The frames from `pa` on are neither pages of the table nor free. -/
def Outside (r pa n : Nat) (s : St) : Prop :=
  ∀ k, k < n → pa + k * PGSIZE ∉ s.freelist ∧ ¬s.Interior r (pa + k * PGSIZE)

theorem Outside.grown (h : Outside r pa n s) (hg : Grown r s s') : Outside r pa n s' := by
  intro k hk
  obtain ⟨h1, h2⟩ := h k hk
  refine ⟨fun hb => h1 (hg.free _ hb), ?_⟩
  rintro ⟨p, hp, ha⟩
  rcases hg.node p _ hp.le ha with ha | ha
  · exact h2 ⟨p, hp, ha⟩
  · exact h1 ha

/-- A leaf is set: the interior stays, and the table is well formed if the frame is none of its pages. -/
theorem leaf_step (hs : s.WellFormed r) (ha : s.node r (indices va 2) = some a) (w : Nat)
    (hw : ∀ b, pteDec w = some b → b ∉ s.freelist ∧ ¬s.Interior r b) :
    (s.store a (PX 0 va) w).WellFormed r ∧
    ∀ b, (s.store a (PX 0 va) w).Interior r b ↔ s.Interior r b := by
  obtain ⟨hnode, hsep⟩ := node_store hs.separate ha w
  have hin : ∀ p, p.length < 3 → (s.store a (PX 0 va) w).node r p = s.node r p := by
    intro p hp
    rw [hnode p hp.le, if_neg]
    rintro rfl
    rw [length_indices] at hp
    omega
  refine ⟨⟨hsep fun b hb => (hw b hb).2, ?_, hs.nodup⟩, fun b => ?_⟩
  · intro b hb
    obtain ⟨h1, h2, h3⟩ := hs.fresh b hb
    refine ⟨h1, h2, fun p hp h => ?_⟩
    rw [hnode p hp] at h
    split at h
    · exact (hw b h).1 hb
    · exact h3 p hp h
  · constructor
    · rintro ⟨p, hp, h⟩
      exact ⟨p, hp, (hin p hp).symm.trans h⟩
    · rintro ⟨p, hp, h⟩
      exact ⟨p, hp, (hin p hp).trans h⟩

/-- One round of the loop of `mappages`. -/
theorem wp_map_one {K : Vcode Int} {Q : Int → St → Prop} (hs : s.WellFormed r)
    (ha : a < MAXVA) (hpa : pa % PGSIZE = 0) (hperm : perm < 1024) (hfree : s.pte r a = none)
    (hout : pa ∉ s.freelist ∧ ¬s.Interior r pa) (hfail : ∀ s', Grown r s s' → Q (-1) s')
    (hK : ∀ s', s'.WellFormed r → (∀ va, va < MAXVA → s'.pte r va =
        if va / 4096 = a / 4096 then some (mkPte pa perm) else s.pte r va) →
      (∀ pa' n, Outside r pa' n s → Outside r pa' n s') → K.wp (spec L may ok) Q s') :
    (do
      match ← walk r a true with
      | none => pure (-1)
      | some (pg, i) => do
        let pte ← load pg i
        if pte &&& PTE_V ≠ 0 then Vcode.panic "remap"
        else do
          store pg i (PA2PTE pa ||| perm ||| PTE_V)
          K : Vcode Int).wp (spec L may ok) Q s := by
  refine wp_seq (walk_walks ha hs) ?_
  rintro res s1 ⟨hg, ⟨rfl, -⟩ | ⟨b, hb, rfl⟩⟩
  · exact hfail s1 hg
  · have hpte : s1.pte r a = none := (hg.pte a).trans hfree
    rw [pte_of_node hb] at hpte
    have hnot : ¬s1.word b (PX 0 a) &&& PTE_V ≠ 0 := fun h => by
      rw [valid_of_ne h] at hpte
      cases hpte
    refine wp_load ?_
    rw [if_neg hnot]
    refine wp_store ?_
    have hdec : pteDec (mkPte pa perm) = some pa := by
      rw [pteDec_of_ne (mkPte_valid hperm), PTE2PA_mkPte hpa hperm]
    have hout1 : pa ∉ s1.freelist ∧ ¬s1.Interior r pa := by
      have h : Outside r pa 1 s := by
        intro k hk
        obtain rfl : k = 0 := by omega
        simpa using hout
      simpa using h.grown hg 0 (by decide)
    obtain ⟨hwf, hint⟩ := leaf_step hg.wf hb (mkPte pa perm) fun c hc => by
      rw [hdec] at hc
      exact some.inj hc ▸ hout1
    refine hK _ hwf (fun va hva => ?_) fun pa' n h k hk => ?_
    · rw [← hg.pte, ← valid_of_ne (mkPte_valid hperm)]
      exact pte_store hg.wf.separate hb ha hva
    · obtain ⟨h1, h2⟩ := h.grown hg k hk
      exact ⟨h1, fun hi => h2 ((hint _).mp hi)⟩

theorem mapLoop_maps (n : Nat) {last perm : Nat} (hs : s.WellFormed r) (ha : a % 4096 = 0)
    (hlast : last = a + n * 4096) (hmax : last + 4096 ≤ MAXVA) (hpa : pa % PGSIZE = 0) (hperm : perm < 1024)
    (hfree : ∀ va, va < MAXVA → a / 4096 ≤ va / 4096 → va / 4096 ≤ last / 4096 → s.pte r va = none)
    (hout : Outside r pa (n + 1) s) :
    (mapLoop r last perm (n + 1) a pa).wp (spec L may ok) (Maps r (a / 4096) (last / 4096) pa perm s) s := by
  have hpg : PGSIZE = 4096 := rfl
  induction n generalizing a pa s with
  | zero =>
    obtain rfl : last = a := by omega
    rw [mapLoop]
    refine wp_map_one hs (by omega) hpa hperm (hfree _ (by omega) le_rfl le_rfl)
      (by simpa using hout 0 (by decide)) ?_ ?_
    · intro s' hg
      exact ⟨.inr rfl, hg.wf, fun h => absurd h (by decide), fun va _ _ => hg.pte va⟩
    · intro s' hwf hpte _
      rw [if_pos rfl]
      refine ⟨.inl rfl, hwf, fun _ va hva h1 h2 => ?_, fun va hva h => ?_⟩
      · grind
      · rw [hpte va hva, if_neg (by omega)]
  | succ n ih =>
    have hne : a ≠ last := by omega
    rw [mapLoop]
    refine wp_map_one hs (by omega) hpa hperm (hfree _ (by omega) le_rfl (by omega))
      (by simpa using hout 0 (by omega)) ?_ ?_
    · intro s' hg
      exact ⟨.inr rfl, hg.wf, fun h => absurd h (by decide), fun va _ _ => hg.pte va⟩
    · intro s1 hwf hpte hkeep
      rw [if_neg hne]
      generalize ha' : a + PGSIZE = a'
      generalize hpa' : pa + PGSIZE = pa'
      have hnext : a' / 4096 = a / 4096 + 1 := by omega
      refine wp_mono (ih hwf (by omega) (by omega) (by rw [hpg] at hpa ⊢; omega) ?_ ?_) ?_
      · grind
      · intro k hk
        have h := hkeep pa (n + 2) hout (k + 1) (by omega)
        rwa [Nat.succ_mul, add_comm (k * PGSIZE), ← add_assoc, hpa'] at h
      rintro res s' ⟨hret, hwf', hin, hout'⟩
      rw [hnext] at hin hout'
      refine ⟨hret, hwf', fun h0 va hva h1 h2 => ?_, fun va hva h => ?_⟩
      · by_cases heq : va / 4096 = a / 4096
        · grind
        · grind
      · rw [hout' va hva (by omega), hpte va hva, if_neg (by omega)]

theorem mappages_maps {size perm : Nat} (hs : s.WellFormed r) (hsize : 0 < size)
    (hmax : va + size ≤ MAXVA) (hpa : pa % PGSIZE = 0) (hperm : perm < 1024)
    (hfree : ∀ a, a < MAXVA → va / 4096 ≤ a / 4096 → a / 4096 ≤ (va + size - 1) / 4096 → s.pte r a = none)
    (hout : Outside r pa ((va + size - 1) / 4096 - va / 4096 + 1) s) :
    (mappages r va size pa perm).wp (spec L may ok)
      (Maps r (va / 4096) ((va + size - 1) / 4096) pa perm s) s := by
  have hdown : ∀ a, PGROUNDDOWN a = a / 4096 * 4096 := fun _ => rfl
  have hcancel : ∀ v, v * 4096 / 4096 = v := fun v => Nat.mul_div_cancel v (by decide)
  have hn : ((va + size - 1) / 4096 * 4096 - va / 4096 * 4096) / PGSIZE + 1 =
      ((va + size - 1) / 4096 - va / 4096) + 1 := by
    unfold PGSIZE
    omega
  unfold MAXVA at hmax
  unfold mappages
  dsimp only
  rw [hdown, hdown, hn]
  have h : (mapLoop r ((va + size - 1) / 4096 * 4096) perm ((va + size - 1) / 4096 - va / 4096 + 1)
      (va / 4096 * 4096) pa).wp (spec L may ok) _ s :=
    mapLoop_maps _ hs (by omega) (by omega) (by unfold MAXVA; omega) hpa hperm
      (by rw [hcancel, hcancel]; exact hfree) hout
  rwa [hcancel, hcancel] at h

end Map

/-! ## `uvmunmap` -/

section Unmap

variable {ok : Err → Prop}

/-- The `n` pages from `va` on are mapped, and none of their PTEs looks like a pointer to a table. -/
def MappedAt (r va n : Nat) (s : St) : Prop :=
  ∀ k, k < n → ∃ w, s.pte r (va + k * PGSIZE) = some w ∧ PTE_FLAGS w ≠ PTE_V

/-- The frames of these pages can be freed: they are pages of the allocator that are in use, and
    different ones. -/
structure Reclaimable (L : Layout) (r va n : Nat) (s : St) : Prop where
  page : ∀ k w, k < n → s.pte r (va + k * PGSIZE) = some w →
    L.Freeable (PTE2PA w) ∧ PTE2PA w ∉ s.freelist
  inj : ∀ j k w w', j < n → k < n → s.pte r (va + j * PGSIZE) = some w →
    s.pte r (va + k * PGSIZE) = some w' → PTE2PA w = PTE2PA w' → j = k

/-- The `n` pages from `va` on are out of the map. -/
structure Unmaps (r va n : Nat) (s s' : St) : Prop where
  pte : ∀ a, a < MAXVA → s'.pte r a =
    if va / 4096 ≤ a / 4096 ∧ a / 4096 < va / 4096 + n then none else s.pte r a
  separate : Radix.Separate pteDec 3 (ptes s'.word) r
  node : ∀ p a, p.length ≤ 3 → s'.node r p = some a → s.node r p = some a

/-- A PTE that is valid is in the page that `walk` finds. -/
theorem walks_of_pte (h : s.pte r va = some w) :
    ∃ a, s.node r (indices va 2) = some a ∧ s.walks r va = some (a, PX 0 va) ∧ s.word a (PX 0 va) = w ∧
      w &&& PTE_V ≠ 0 := by
  obtain ⟨a, ha, hv⟩ := bind_eq_some_iff.mp h
  unfold valid at hv
  split at hv
  · grind [St.walks]
  · cases hv

/-- One entry is cleared. -/
theorem clear_step (hs : Radix.Separate pteDec 3 (ptes s.word) r) (hva : va < MAXVA)
    (ha : s.node r (indices va 2) = some a) : Unmaps r va 1 s (s.store a (PX 0 va) 0) := by
  obtain ⟨hnode, hsep⟩ := node_store hs ha 0
  refine ⟨fun b hb => ?_, hsep nofun, fun p b hp hb => ?_⟩
  · rw [pte_store hs ha hva hb]
    by_cases h : b / 4096 = va / 4096
    · rw [if_pos h, if_pos (by omega)]
      rfl
    · rw [if_neg h, if_neg (by omega)]
  · rw [hnode p hp] at hb
    split at hb
    · cases hb
    · exact hb

theorem Unmaps.trans (h : Unmaps r va 1 s s1)
    (h' : Unmaps r (va + PGSIZE) n s1 s') : Unmaps r va (n + 1) s s' := by
  have hnext : (va + PGSIZE) / 4096 = va / 4096 + 1 := by
    unfold PGSIZE
    omega
  refine ⟨fun a ha => ?_, h'.separate, fun p a hp ha => h.node p a hp (h'.node p a hp ha)⟩
  rw [h'.pte a ha, h.pte a ha, hnext]
  split_ifs <;> first | rfl | omega

theorem unmapLoop_unmaps (doFree : Bool) (n : Nat)
    (hs : Radix.Separate pteDec 3 (ptes s.word) r) (hmax : va + n * 4096 ≤ MAXVA)
    (hmap : MappedAt r va n s) (hfree : doFree = true → Reclaimable L r va n s) :
    (unmapLoop r doFree n va).wp (spec L may ok) (fun _ s' => Unmaps r va n s s' ∧
      (doFree = false → s'.freelist = s.freelist)) s := by
  have hpg : PGSIZE = 4096 := rfl
  induction n generalizing va s with
  | zero => exact ⟨⟨fun a _ => (if_neg (by omega)).symm, hs, fun _ _ _ h => h⟩, fun _ => rfl⟩
  | succ n ih =>
    obtain ⟨w, hw, hflags⟩ := hmap 0 (Nat.succ_pos n)
    rw [Nat.zero_mul, add_zero] at hw
    obtain ⟨a, ha, hwalks, hword, hv⟩ := walks_of_pte hw
    have hnext : ∀ k, va + PGSIZE + k * PGSIZE = va + (k + 1) * PGSIZE := fun k => by
      rw [Nat.succ_mul]
      omega
    rw [unmapLoop]
    refine wp_walk (by omega) ?_
    rw [hwalks]
    refine wp_load ?_
    rw [hword, if_neg hv, if_neg hflags]
    -- the rest of the round, whether or not the frame has been freed
    have hrest : ∀ s1, (∀ p, p.length ≤ 3 → s1.node r p = s.node r p) →
        (∀ va, s1.pte r va = s.pte r va) → Radix.Separate pteDec 3 (ptes s1.word) r →
        (doFree = false → s1.freelist = s.freelist) →
        (doFree = true → s1.freelist = PTE2PA w :: s.freelist) →
        (store a (PX 0 va) 0 >>= fun _ => unmapLoop r doFree n (va + PGSIZE)).wp (spec L may ok)
          (fun _ s' => Unmaps r va (n + 1) s s' ∧ (doFree = false → s'.freelist = s.freelist)) s1 := by
      intro s1 hnode hpte hsep hkeep hpush
      have hclear : Unmaps r va 1 s (s1.store a (PX 0 va) 0) := by
        have h := clear_step hsep (by omega) ((hnode _ (le_of_lt (indices_lt va))).trans ha)
        refine ⟨fun b hb => ?_, h.separate, fun p b hp hb => ?_⟩
        · rw [h.pte b hb, hpte]
        · rw [← hnode p hp]
          exact h.node p b hp hb
      -- the pages that are left are as they were
      have hleft : ∀ k, k < n → (s1.store a (PX 0 va) 0).pte r (va + PGSIZE + k * PGSIZE) =
          s.pte r (va + (k + 1) * PGSIZE) := by
        intro k hk
        rw [hnext, hclear.pte _ (by rw [hpg]; omega), if_neg (by rw [hpg]; omega)]
      refine wp_store (wp_mono (ih hclear.separate (by omega) ?_ fun hd => ?_) ?_)
      · intro k hk
        rw [hleft k hk]
        exact hmap (k + 1) (by omega)
      · have hR := hfree hd
        constructor
        · intro k x hk hx
          rw [hleft k hk] at hx
          obtain ⟨h1, h2⟩ := hR.page (k + 1) x (by omega) hx
          refine ⟨h1, ?_⟩
          show _ ∉ s1.freelist
          rw [hpush hd]
          intro hmem
          rcases mem_cons.mp hmem with heq | hmem
          · have := hR.inj (k + 1) 0 x w (by omega) (by omega) hx (by simpa using hw) heq
            omega
          · exact h2 hmem
        · grind [Reclaimable]
      · rintro _ s' ⟨hun, hlist⟩
        exact ⟨hclear.trans hun, fun hd => (hlist hd).trans (hkeep hd)⟩
    cases doFree with
    | false => exact hrest s (fun _ _ => rfl) (fun _ => rfl) hs (fun _ => rfl) fun h => absurd h (by decide)
    | true =>
      obtain ⟨hpage, hnot⟩ := (hfree rfl).page 0 w (Nat.succ_pos n) (by simpa using hw)
      -- the frame is a leaf, and no interior page
      have hout : ¬s.Interior r (PTE2PA w) := by
        rintro ⟨p, hp, h⟩
        have hleaf : s.node r (indices va 3) = some (PTE2PA w) := by
          rw [node_leaf, hw]
          rfl
        have := hs _ _ _ (by rw [length_indices]) hp hleaf h
        rw [← this, length_indices] at hp
        omega
      have hoff : ∀ b, b ≠ PTE2PA w → (s.give (PTE2PA w)).word b = s.word b := by
        intro b hb
        simp [St.give, St.fill, hb]
      obtain ⟨hnode, hpte⟩ := pte_off hout hoff
      refine wp_give hpage hnot (hrest _ hnode hpte ?_ (fun h => absurd h (by decide)) fun _ => rfl)
      exact hs.off (fun c hc h => hout ⟨c, hc, h⟩) fun b hb => by unfold ptes; rw [hoff b hb]

end Unmap

/-! ## On the machine -/

/-- `walk` finds the valid PTE `w` for `va`. -/
def Translates (L : Layout) (m : Machine) (r va w : Nat) : Prop :=
  ∃ a i m', (walk r va false).run (I := Calls) (Machine.serve L) m = .ok (some (a, i), m') ∧
    m'.st = m.st ∧ m.st.word a i = w ∧ w &&& PTE_V ≠ 0

theorem translates_iff (L : Layout) (m : Machine) (r : Nat) (hva : va < MAXVA) :
    Translates L m r va w ↔ m.st.pte r va = some w := by
  obtain ⟨res, m', hrun, rfl, hst⟩ := wp_runs (L := L) (m := m) (walk_reads (r := r) hva)
  constructor
  · rintro ⟨a, i, m1, h, -, hw, hv⟩
    obtain ⟨h, -⟩ := Prod.mk.inj (Except.ok.inj (hrun.symm.trans h))
    obtain ⟨a', ha, h⟩ := map_eq_some_iff.mp h
    obtain ⟨rfl, rfl⟩ := Prod.mk.inj h
    unfold St.pte
    rw [ha, bind_some, hw]
    exact valid_of_ne hv
  · intro h
    obtain ⟨a, -, hwalks, hw, hv⟩ := walks_of_pte h
    rw [hwalks] at hrun
    exact ⟨a, PX 0 va, m', hrun, hst, hw, hv⟩

theorem mkPte_flags (pa : Nat) (hp : perm < 1024) :
    PTE_FLAGS (mkPte pa perm) = perm ||| PTE_V := by
  obtain ⟨-, hlt⟩ := mkPte_eq pa hp
  unfold PTE_FLAGS
  rw [mkPte_and hp (by decide), show (0x3FF : Nat) = 2 ^ 10 - 1 from rfl, Nat.and_two_pow_sub_one_eq_mod]
  exact Nat.mod_eq_of_lt hlt

/-- **`mappages` and `uvmunmap` update the map of a page table.**  Mapping a range returns, with the whole
    range mapped or with an error; nothing else is mapped differently and the table stays well formed, if
    the frames are neither pages of the table nor free.  Unmapping removes exactly the range, if its pages
    have a flag besides `PTE_V`. -/
theorem page_table_updates (L : Layout) (m : Machine) (r : Nat) (hwf : m.st.WellFormed r) :
    (∀ va size pa perm, 0 < size → va + size ≤ MAXVA →
      (∀ a, a < MAXVA → va / 4096 ≤ a / 4096 → a / 4096 ≤ (va + size - 1) / 4096 → m.st.pte r a = none) →
      pa % PGSIZE = 0 → pa < 2 ^ 56 → perm < 1024 →
      Outside r pa ((va + size - 1) / 4096 - va / 4096 + 1) m.st →
      ∃ ret m', (mappages r va size pa perm).run (I := Calls) (Machine.serve L) m = .ok (ret, m') ∧
        (ret = 0 ∨ ret = -1) ∧
        (ret = 0 → ∀ a, a < MAXVA → va / 4096 ≤ a / 4096 → a / 4096 ≤ (va + size - 1) / 4096 →
          ∃ w, Translates L m' r a w ∧ PTE2PA w = pa + (a / 4096 - va / 4096) * PGSIZE ∧
            PTE_FLAGS w = perm ||| PTE_V) ∧
        (∀ a, a < MAXVA → (a / 4096 < va / 4096 ∨ (va + size - 1) / 4096 < a / 4096) →
          ∀ w, Translates L m' r a w ↔ Translates L m r a w) ∧
        m'.st.WellFormed r) ∧
    (∀ va n doFree, va % PGSIZE = 0 → va + n * PGSIZE ≤ MAXVA → MappedAt r va n m.st →
      (doFree = true → Reclaimable L r va n m.st) →
      ∃ m', (uvmunmap r va n doFree).run (I := Calls) (Machine.serve L) m = .ok ((), m') ∧
        (∀ a, a < MAXVA → ∀ w, Translates L m' r a w ↔
          Translates L m r a w ∧ ¬(va / 4096 ≤ a / 4096 ∧ a / 4096 < va / 4096 + n)) ∧
        (doFree = false → m'.st.WellFormed r)) := by
  constructor
  · intro va size pa perm hsize hmax hfree hpa _ hperm hout
    obtain ⟨ret, m', hrun, hM⟩ := wp_runs (L := L) (mappages_maps hwf hsize hmax hpa hperm hfree hout)
    refine ⟨ret, m', hrun, hM.ret, fun h0 a ha h1 h2 => ?_, fun a ha hne w => ?_, hM.wf⟩
    · have hal : (pa + (a / 4096 - va / 4096) * PGSIZE) % PGSIZE = 0 := by
        rw [Nat.add_mul_mod_self_right, hpa]
      exact ⟨_, (translates_iff L m' r ha).mpr (hM.inside h0 a ha h1 h2), PTE2PA_mkPte hal hperm,
        mkPte_flags _ hperm⟩
    · rw [translates_iff L m' r ha, translates_iff L m r ha, hM.outside a ha hne]
  · intro va n doFree hal hmax hmap hfree
    have hp : (uvmunmap r va n doFree).wp (spec L True fun _ => False) (fun _ s' =>
        Unmaps r va n m.st s' ∧ (doFree = false → s'.freelist = m.st.freelist)) m.st := by
      unfold uvmunmap
      rw [if_neg (not_not_intro hal)]
      exact unmapLoop_unmaps doFree n hwf.separate hmax hmap hfree
    obtain ⟨⟨⟩, m', hrun, hU, hlist⟩ := wp_runs hp
    refine ⟨m', hrun, fun a ha w => ?_, fun hd => ⟨hU.separate, fun b hb => ?_, ?_⟩⟩
    · rw [translates_iff L m' r ha, translates_iff L m r ha, hU.pte a ha]
      split
      · next h => exact ⟨nofun, fun hw => absurd h hw.2⟩
      · next h => exact (and_iff_left h).symm
    · rw [hlist hd] at hb
      obtain ⟨h1, h2, h3⟩ := hwf.fresh b hb
      exact ⟨h1, h2, fun p hp h => h3 p hp (hU.node p b hp h)⟩
    · rw [hlist hd]
      exact hwf.nodup

/-- Four pages from `KERNBASE + PGSIZE` on: an empty page table, two free pages, and one that is neither. -/
def fourPages : Machine where
  st :=
    { freelist := [0x80002000, 0x80003000]
      word := fun _ _ => 0
      mem := fun _ => .zero }
  deny := []

/-- A kernel of one page. -/
def smallLayout : Layout := ⟨0x80001000, 0x80000000, by decide⟩

theorem fourPages_node (h : fourPages.st.node r p = some a) :
    p = [] ∧ r = a := by
  cases p with
  | nil => exact ⟨rfl, some.inj h⟩
  | cons i p =>
    obtain ⟨b, -, h⟩ := bind_eq_some_iff.mp h
    have h : pteDec 0 = some a := h
    rw [show pteDec 0 = none from rfl] at h
    cases h

theorem fourPages_wellFormed : fourPages.st.WellFormed 0x80001000 where
  separate := fun p q a _ _ hp hq => (fourPages_node hp).1.trans (fourPages_node hq).1.symm
  fresh := by
    intro b hb
    obtain ⟨h1, h2, h3⟩ : b % PGSIZE = 0 ∧ b ≠ 0 ∧ b ≠ 0x80001000 :=
      (by decide : ∀ b ∈ [0x80002000, 0x80003000], b % PGSIZE = 0 ∧ b ≠ 0 ∧ b ≠ 0x80001000) b hb
    exact ⟨h1, h2, fun p _ h => h3 (fourPages_node h).2.symm⟩
  nodup := by decide

/-- A page is mapped for the user, and unmapped again. -/
theorem page_table_updates_one : ∃ m1 m2,
    (mappages 0x80001000 0x5000 PGSIZE 0x80004000 (PTE_R ||| PTE_U)).run (I := Calls)
      (Machine.serve smallLayout) fourPages = .ok (0, m1) ∧
    (∃ w, Translates smallLayout m1 0x80001000 0x5000 w ∧ PTE2PA w = 0x80004000 ∧ PTE_FLAGS w = 19) ∧
    (uvmunmap 0x80001000 0x5000 1 true).run (I := Calls) (Machine.serve smallLayout) m1 = .ok ((), m2) ∧
    ∀ w, ¬Translates smallLayout m2 0x80001000 0x5000 w := by
  obtain ⟨hmap, -⟩ := page_table_updates smallLayout fourPages 0x80001000 fourPages_wellFormed
  have hnone : ∀ a, fourPages.st.pte 0x80001000 a = none := by
    intro a
    cases h : fourPages.st.pte 0x80001000 a with
    | none => rfl
    | some w =>
      obtain ⟨b, -, -, hw, hv⟩ := walks_of_pte h
      have hw : 0 = w := hw
      rw [← hw] at hv
      exact absurd rfl hv
  have hout : Outside 0x80001000 0x80004000 1 fourPages.st := by
    intro k hk
    obtain rfl : k = 0 := by omega
    refine ⟨by decide, ?_⟩
    rintro ⟨p, -, hp⟩
    exact absurd (fourPages_node hp).2 (by decide)
  obtain ⟨ret, m1, hrun, -, hin, -, hwf⟩ := hmap 0x5000 PGSIZE 0x80004000 (PTE_R ||| PTE_U) (by decide)
    (by decide) (fun a _ _ _ => hnone a) (by decide) (by decide) (by decide) hout
  have hret : ((mappages 0x80001000 0x5000 PGSIZE 0x80004000 (PTE_R ||| PTE_U)).run
      (serve smallLayout) fourPages).toOption.map (·.1) = some 0 := by decide +kernel
  have hlist : ((mappages 0x80001000 0x5000 PGSIZE 0x80004000 (PTE_R ||| PTE_U)).run
      (serve smallLayout) fourPages).toOption.map (·.2.st.freelist) = some [] := by decide +kernel
  rw [hrun] at hret hlist
  obtain rfl : ret = 0 := some.inj hret
  have hlist : m1.st.freelist = [] := some.inj hlist
  obtain ⟨w, hw, hpa, hflags⟩ := hin rfl 0x5000 (by decide) (by decide) (by decide)
  have hpte := (translates_iff smallLayout m1 0x80001000 (by decide)).mp hw
  obtain ⟨-, hunmap⟩ := page_table_updates smallLayout m1 0x80001000 hwf
  have hone : ∀ {k}, k < 1 → 0x5000 + k * PGSIZE = 0x5000 := fun hk => by
    rw [Nat.lt_one_iff.mp hk]
    rfl
  obtain ⟨m2, hrun2, hgone, -⟩ := hunmap 0x5000 1 true (by decide) (by decide)
    (fun k hk => ⟨w, by rw [hone hk]; exact hpte, by rw [hflags]; decide⟩)
    (fun _ => ⟨fun k w' hk h => by
        rw [hone hk, hpte] at h
        obtain rfl := some.inj h
        rw [hpa, hlist]
        decide,
      fun j k _ _ hj hk _ _ _ => by omega⟩)
  exact ⟨m1, m2, hrun, ⟨w, hw, hpa, hflags⟩, hrun2,
    fun w' h => ((hgone 0x5000 (by decide) w').mp h).2 (by decide)⟩

/-- Without a flag a mapped page cannot be unmapped; and the table's own root can be mapped, which makes it no
    tree any more. -/
theorem page_table_updates_not_always :
    (∃ m1, (mappages 0x80001000 0x5000 PGSIZE 0x80004000 0).run (I := Calls)
        (Machine.serve smallLayout) fourPages = .ok (0, m1) ∧
      (uvmunmap 0x80001000 0x5000 1 false).run (I := Calls) (Machine.serve smallLayout) m1 =
        .error (.panic "uvmunmap: not a leaf")) ∧
    ∃ m1, (mappages 0x80001000 0x5000 PGSIZE 0x80001000 (PTE_R ||| PTE_U)).run (I := Calls)
        (Machine.serve smallLayout) fourPages = .ok (0, m1) ∧ ¬m1.st.WellFormed 0x80001000 := by
  constructor
  · have h : (((mappages 0x80001000 0x5000 PGSIZE 0x80004000 0).run
        (serve smallLayout) fourPages).toOption.map fun r => (r.1,
          failsWith ((uvmunmap 0x80001000 0x5000 1 false).run (serve smallLayout) r.2)
            (.panic "uvmunmap: not a leaf"))) = some (0, true) := by decide +kernel
    obtain ⟨⟨_, m1⟩, hrun, h⟩ := map_eq_some_iff.mp h
    obtain ⟨rfl, h⟩ := Prod.mk.inj h
    exact ⟨m1, toOption_eq_some hrun, failsWith_eq h⟩
  · have h : (((mappages 0x80001000 0x5000 PGSIZE 0x80001000 (PTE_R ||| PTE_U)).run
        (serve smallLayout) fourPages).toOption.map fun r =>
          (r.1, r.2.st.node 0x80001000 (indices 0x5000 3))) = some (0, some 0x80001000) := by decide +kernel
    obtain ⟨⟨_, m1⟩, hrun, h⟩ := map_eq_some_iff.mp h
    obtain ⟨rfl, h⟩ := Prod.mk.inj h
    refine ⟨m1, toOption_eq_some hrun, fun hwf => ?_⟩
    cases hwf.separate (indices 0x5000 3) [] 0x80001000 (by decide) (by decide) h rfl

end Xv6.Vm
