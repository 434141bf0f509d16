/-
  WALKING A PAGE TABLE: `walk`, `mappages`, `uvmunmap`, `freewalk`.

  A walk that allocates GROWS the table: free pages become nodes, and the map from virtual pages to PTEs
  stays as it is (`walk_grows`), also when it runs out of memory half-way.  Mapping and unmapping change
  one entry of the map.

  `freewalk` frees the nodes under a page, children first, while the labels of what is freed already no
  longer agree with the words above.  Its specification therefore compares with the table as it was at
  the start: the nodes of the subtree are as they were, and afterwards they are free (`freewalk_spec`).
-/
import Xv6.Vm.Sv39

namespace Xv6.Vm

open Function Prog Vcode

variable {L : Layout} {S : Nat → Prop} {t : Owner} {may : Prop}

/-- The leaves of the pages with `P` are where they were, with what they held. -/
def Spares (t : Owner) (P : Nat → Prop) (own own' : Nat → Place) (s s' : St) : Prop :=
  ∀ a v, P v → own a = .leaf t v → own' a = .leaf t v ∧ s'.word a = s.word a

theorem Spares.refl (t : Owner) (P : Nat → Prop) (own : Nat → Place) (s : St) : Spares t P own own s s :=
  fun _ _ _ h => ⟨h, rfl⟩

theorem Spares.trans {own' own1 : Nat → Place} {P : Nat → Prop} {s s' s1 : St} {own : Nat → Place}
    (h : Spares t P own own1 s s1) (h' : Spares t P own1 own' s1 s') : Spares t P own own' s s' := by
  intro a v hv ha
  obtain ⟨h1, h2⟩ := h a v hv ha
  obtain ⟨h3, h4⟩ := h' a v hv h1
  exact ⟨h3, h4.trans h2⟩

theorem Spares.mono {own' own : Nat → Place} {P : Nat → Prop} {s s' : St} {P' : Nat → Prop}
    (h : Spares t P own own' s s') (hP : ∀ v, P' v → P v) : Spares t P' own own' s s' :=
  fun a v hv ha => h a v (hP v hv) ha

/-- A page is written to that is no leaf of these, and another one gets a new place. -/
theorem Spares.step {b : Nat} {s s' : St} {own : Nat → Place} {P : Nat → Prop} {x : Nat} {pl : Place} {f : Nat → Nat}
    (hx : ∀ v, P v → own x ≠ .leaf t v) (hb : ∀ v, P v → own b ≠ .leaf t v)
    (hw : s'.word = update s.word b f) : Spares t P own (update own x pl) s s' := by
  intro a v hv ha
  refine ⟨(update_of_ne (label_ne ha rfl (hx v hv).symm) ..).trans ha, ?_⟩
  rw [hw, update_of_ne (label_ne ha rfl (hb v hv).symm)]

theorem Spares.write {b : Nat} {s s' : St} {own : Nat → Place} {P : Nat → Prop} {f : Nat → Nat} (hb : ∀ v, P v → own b ≠ .leaf t v)
    (hw : s'.word = update s.word b f) : Spares t P own own s s' := by
  have h : Spares t P own (update own b (own b)) s s' := .step hb hb hw
  rwa [update_eq_self] at h

/-! ## Growing -/

/-- Free pages have become nodes of the table of `t`, and nothing else has changed. -/
structure Grows (t : Owner) (own own' : Nat → Place) (s s' : St) : Prop where
  label : ∀ a, own' a = own a ∨ own a = .free ∧ ∃ l x, own' a = .node t l x
  word : ∀ a, (∀ l x, own' a ≠ .node t l x) → s'.word a = s.word a
  mem : s'.mem = s.mem

namespace Grows

variable {own : Nat → Place}

theorem refl (t : Owner) (own : Nat → Place) (s : St) : Grows t own own s s :=
  ⟨fun _ => .inl rfl, fun _ _ => rfl, rfl⟩

/-- A label that is not `free` stays. -/
theorem keep {a : Nat} {own' : Nat → Place} {pl : Place} {s s' : St}
    (h : Grows t own own' s s') (ha : own a = pl) (hpl : pl ≠ .free) :
    own' a = pl := by
  rcases h.label a with heq | ⟨hfree, -⟩
  · rw [heq, ha]
  · exact absurd (ha.symm.trans hfree) hpl

/-- A label that is neither `free` nor of a node was there before. -/
theorem was {a : Nat} {own' : Nat → Place} {pl : Place} {s s' : St}
    (h : Grows t own own' s s') (ha : own' a = pl)
    (hpl : ∀ l x, pl ≠ .node t l x) : own a = pl := by
  rcases h.label a with heq | ⟨-, l, x, hnode⟩
  · rw [← heq, ha]
  · exact absurd (ha.symm.trans hnode) (hpl l x)

theorem trans {own' own1 : Nat → Place} {s s' s1 : St}
    (h : Grows t own own1 s s1) (h' : Grows t own1 own' s1 s') : Grows t own own' s s' := by
  refine ⟨?_, ?_, h'.mem.trans h.mem⟩
  · grind [Grows]
  · grind [Grows]

theorem spares {own' : Nat → Place} {s s' : St}
    (h : Grows t own own' s s') (P : Nat → Prop) : Spares t P own own' s s' := by
  intro a v _ ha
  have ha' := h.keep ha (by simp)
  refine ⟨ha', h.word a ?_⟩
  intro l x hl
  rw [ha'] at hl
  cases hl

theorem frame {own' : Nat → Place} {s s' : St} (h : Grows t own own' s s') : Frame t own own' s s' := by
  refine ⟨?_, ?_, h.mem⟩
  · intro a ha
    have hkeep : own' a = own a := by
      rcases h.label a with heq | ⟨hfree, -⟩
      · exact heq
      · rw [hfree] at ha
        exact absurd trivial ha
    refine ⟨hkeep, h.word a ?_⟩
    intro l x hl
    rw [← hkeep, hl] at ha
    exact ha rfl
  · intro a ha
    rcases h.label a with heq | ⟨-, l, x, hl⟩
    · rw [heq]
      exact ha
    · rw [hl]
      exact rfl

end Grows

section Walk

variable {ok : Err → Prop} {own : Nat → Place} {map : Nat → Nat}

/-- A free page becomes the node under entry `i` of page `a`. -/
theorem Table.grow {a i l q r : Nat} {word' : Nat → Nat → Nat}
    {s : St} {word : Nat → Nat → Nat} (hT : Table own word t r S map) (hH : Heap L own s)
    {pg : Nat} (ha : own a = .node t (l + 1) q) (hi : i < 512) (h0 : word a i = 0)
    (hpg : own pg = .free) (hzero : ∀ j, word' pg j = 0)
    (hworda : word' a = update (word a) i (dirPte pg))
    (hother : ∀ b, b ≠ pg → b ≠ a → word' b = word b) :
    Table (update own pg (.node t l (512 * q + i))) word' t r S map := by
  have hl := (hT.top a _ _ ha).1
  have hdiv : (512 * q + i) / 512 = q := by omega
  have hmod : (512 * q + i) % 512 = i := by omega
  -- A page that has a label is not the new one.
  have hne : ∀ {b : Nat} {pl : Place}, own b = pl → pl ≠ .free → b ≠ pg := fun hb => label_ne hb hpg
  have hold : ∀ {b : Nat} {pl : Place}, own b = pl → pl ≠ .free →
      update own pg (.node t l (512 * q + i)) b = pl := by
    intro b pl hb hpl
    rw [update_of_ne (hne hb hpl), hb]
  -- There was no node in its place.
  have hnew : ∀ b, own b ≠ .node t l (512 * q + i) := by
    intro b hb
    obtain ⟨a', ha', hw⟩ := hT.up b _ _ hb (by omega)
    rw [hdiv] at ha'
    rw [hmod, hT.eq_of_node hH ha' ha, h0] at hw
    exact dirPte_ne b hw.symm
  refine ⟨hold hT.root (by simp), ?_, ?_, ?_, ?_, ?_, hT.leafy, ?_, ?_⟩
  · intro b l' x' hb
    by_cases hbpg : b = pg
    · subst hbpg
      rw [update_self] at hb
      obtain ⟨-, rfl, rfl⟩ := Place.node.inj hb
      exact ⟨by omega, fun h2 => by omega⟩
    · rw [update_of_ne hbpg] at hb
      exact hT.top b l' x' hb
  · intro b l' q' i' hb hi'
    by_cases hbpg : b = pg
    · subst hbpg
      exact .inl (hzero i')
    · rw [update_of_ne hbpg] at hb
      have hdown := hT.down b l' q' i' hb hi'
      by_cases hba : b = a
      · subst hba
        obtain ⟨-, hl', rfl⟩ := Place.node.inj (ha.symm.trans hb)
        obtain rfl : l = l' := by omega
        rw [hworda]
        by_cases hii : i' = i
        · subst hii
          rw [update_self]
          exact .inr ⟨pg, rfl, update_self ..⟩
        · rw [update_of_ne hii]
          rcases hdown with hz | ⟨c, hc, hlab⟩
          · exact .inl hz
          · exact .inr ⟨c, hc, hold hlab (by simp)⟩
      · rw [hother b hbpg hba]
        rcases hdown with hz | ⟨c, hc, hlab⟩
        · exact .inl hz
        · exact .inr ⟨c, hc, hold hlab (by simp)⟩
  · intro b l' x' hb hl'
    by_cases hbpg : b = pg
    · subst hbpg
      rw [update_self] at hb
      obtain ⟨-, rfl, rfl⟩ := Place.node.inj hb
      refine ⟨a, hold (by rw [hdiv]; exact ha) (by simp), ?_⟩
      rw [hmod, hworda, update_self]
    · rw [update_of_ne hbpg] at hb
      obtain ⟨c, hc, hw⟩ := hT.up b l' x' hb hl'
      refine ⟨c, hold hc (by simp), ?_⟩
      by_cases hca : c = a
      · subst hca
        rw [hworda, update_of_ne, hw]
        intro hii
        rw [hii, h0] at hw
        exact dirPte_ne b hw.symm
      · rw [hother c (hne hc (by simp)) hca, hw]
  · intro b q' j hb hj
    by_cases hbpg : b = pg
    · subst hbpg
      rw [update_self] at hb
      obtain ⟨-, rfl, rfl⟩ := Place.node.inj hb
      rw [hzero j]
      by_contra hmap
      obtain ⟨c, hc⟩ := hT.home _ (Ne.symm hmap)
      rw [show (512 * (512 * q + i) + j) / 512 = 512 * q + i by omega] at hc
      exact hnew c hc
    · rw [update_of_ne hbpg] at hb
      rw [hother b hbpg (label_ne hb ha nofun)]
      exact hT.low b q' j hb hj
  · intro v hv
    obtain ⟨b, hb⟩ := hT.home v hv
    exact ⟨b, hold hb (by simp)⟩
  · intro v hv hS
    exact hold (hT.owned v hv hS) (by simp)
  · exact fun b v hb => hT.back b v (of_relabel hb nofun).2

/-! ## `walk` -/

/-- The index that `walk` uses at level `l`, and the node it leads to. -/
theorem px_node (l va : Nat) : PX l va < 512 ∧
    512 * (va / 4096 / 512 ^ (l + 1)) + PX l va = va / 4096 / 512 ^ l := by
  rw [PX_eq, Nat.pow_succ, ← Nat.div_div_eq_div_mul]
  omega

/-- How a walk that allocates comes back. -/
def Walked (L : Layout) (may : Prop) (t : Owner) (r : Nat) (S : Nat → Prop) (map : Nat → Nat) (v : Nat)
    (own : Nat → Place) (s : St) (res : Option (Nat × Nat)) (s' : St) : Prop :=
  ∃ own', Grows t own own' s s' ∧ Heap L own' s' ∧ Table own' s'.word t r S map ∧
    ((res = none ∧ may) ∨ ∃ b, own' b = .node t 0 (v / 512) ∧ res = some (b, v % 512))

theorem walkFrom_grows {a r : Nat} {s : St} (va : Nat) (l : Nat) (hH : Heap L own s)
    (hT : Table own s.word t r S map) (ha : own a = .node t l (va / 4096 / 512 ^ (l + 1))) :
    (walkFrom va true l a).wp (spec L may ok) (Walked L may t r S map (va / 4096) own s) s := by
  induction l generalizing a own s with
  | zero =>
    refine ⟨own, .refl t own s, hH, hT, .inr ⟨a, ?_, ?_⟩⟩
    · simpa using ha
    · rw [PX_eq, Nat.pow_zero, Nat.div_one]
  | succ l ih =>
    obtain ⟨hi, hnode⟩ := px_node (l + 1) va
    rw [walkFrom]
    refine wp_load ?_
    rcases hT.down a l _ _ ha hi with h0 | ⟨b, hb, hlab⟩
    · rw [h0, if_neg (by simp), if_neg (by simp)]
      refine wp_kalloc hH (.node t l (va / 4096 / 512 ^ (l + 1))) (by simp) (by simp) ?_ ?_
      · intro hmay
        rw [if_pos rfl]
        exact ⟨own, .refl t own s, hH, hT, .inl ⟨rfl, hmay⟩⟩
      · intro pg rest hpg hpg0 hheap
        rw [if_neg hpg0]
        refine wp_memset (wp_store ?_)
        have hapg : a ≠ pg := label_ne ha hpg (by simp)
        have hT' : Table (update own pg (.node t l (va / 4096 / 512 ^ (l + 1))))
            (((s.take pg rest).fill pg 0).store a (PX (l + 1) va) (dirPte pg)).word t r S map := by
          rw [← hnode]
          refine hT.grow hH ha hi h0 hpg ?_ ?_ ?_
          · intro j
            simp [St.store, St.fill, hapg.symm]
          · simp [St.store, St.fill, St.take, hapg]
          · intro b hbpg hba
            simp [St.store, St.fill, St.take, hbpg, hba]
        have hgrow : Grows t own (update own pg (.node t l (va / 4096 / 512 ^ (l + 1)))) s
            (((s.take pg rest).fill pg 0).store a (PX (l + 1) va) (dirPte pg)) := by
          refine ⟨?_, ?_, rfl⟩
          · grind
          · intro b hb
            have hbpg : b ≠ pg := by
              rintro rfl
              exact hb _ _ (update_self ..)
            have hba : b ≠ a := by
              rintro rfl
              exact hb _ _ ((update_of_ne hbpg ..).trans ha)
            simp [St.store, St.fill, St.take, hbpg, hba]
        refine wp_mono (ih (hheap.same rfl) hT' (update_self ..)) ?_
        rintro res s' ⟨own', hg, hH', hT', hres⟩
        exact ⟨own', hgrow.trans hg, hH', hT', hres⟩
    · rw [hb, if_pos (dirPte_valid b), PTE2PA_dirPte (hH.aligned hlab (by simp))]
      rw [hnode] at hlab
      exact ih hH hT hlab

/-- A virtual page that `walk` accepts is under the root. -/
theorem Table.root_node {r va : Nat} {word : Nat → Nat → Nat} (hT : Table own word t r S map)
    (hva : va < MAXVA) : own r = .node t 2 (va / 4096 / 512 ^ 3) := by
  have h0 : va / 4096 / 512 ^ 3 = 0 := by
    unfold MAXVA at hva
    omega
  rw [h0]
  exact hT.root

theorem walk_grows {r va : Nat} {s : St}
    (hH : Heap L own s) (hT : Table own s.word t r S map) (hva : va < MAXVA) :
    (walk r va true).wp (spec L may ok) (Walked L may t r S map (va / 4096) own s) s := by
  unfold walk
  rw [if_neg (by omega)]
  exact walkFrom_grows va 2 hH hT (hT.root_node hva)

/-- A node has a page above it at every level. -/
theorem Table.ancestor {r : Nat} {word : Nat → Nat → Nat}
    (hT : Table own word t r S map) (d : Nat) {b l x : Nat}
    (hb : own b = .node t l x) (hl : l + d ≤ 2) : ∃ c, own c = .node t (l + d) (x / 512 ^ d) := by
  induction d with
  | zero => exact ⟨b, by rw [Nat.pow_zero, Nat.div_one]; exact hb⟩
  | succ d ih =>
    obtain ⟨c, hc⟩ := ih (by omega)
    obtain ⟨e, he, -⟩ := hT.up c _ _ hc (by omega)
    refine ⟨e, ?_⟩
    rw [Nat.pow_succ, ← Nat.div_div_eq_div_mul]
    exact he

theorem walkFrom_finds {a r : Nat} {s : St}
    (va : Nat) (hH : Heap L own s) (hT : Table own s.word t r S map) (l : Nat)
    (ha : own a = .node t l (va / 4096 / 512 ^ (l + 1))) :
    (walkFrom va false l a).wp (spec L may ok) (fun res s' => s' = s ∧
      ((∃ b, own b = .node t 0 (va / 4096 / 512) ∧ res = some (b, va / 4096 % 512)) ∨
        (res = none ∧ map (va / 4096) = 0))) s := by
  induction l generalizing a with
  | zero =>
    refine ⟨rfl, .inl ⟨a, ?_, ?_⟩⟩
    · simpa using ha
    · rw [PX_eq, Nat.pow_zero, Nat.div_one]
  | succ l ih =>
    obtain ⟨hi, hnode⟩ := px_node (l + 1) va
    rw [walkFrom]
    refine wp_load ?_
    rcases hT.down a l _ _ ha hi with h0 | ⟨b, hb, hlab⟩
    · rw [h0, if_neg (by simp), if_pos (by rfl)]
      refine ⟨rfl, .inr ⟨rfl, ?_⟩⟩
      -- A mapped page has its nodes all the way up, so an entry of `a` would point to one.
      by_contra hmap
      obtain ⟨c, hc⟩ := hT.home _ hmap
      have hl2 := (hT.top a _ _ ha).1
      obtain ⟨d, hd⟩ := hT.ancestor l hc (by omega)
      rw [Nat.zero_add, Nat.div_div_eq_div_mul, ← Nat.pow_succ'] at hd
      obtain ⟨e, he, hw⟩ := hT.up d _ _ hd (by omega)
      rw [Nat.div_div_eq_div_mul, ← Nat.pow_succ] at he
      rw [hT.eq_of_node hH he ha, ← PX_eq, h0] at hw
      exact dirPte_ne d hw.symm
    · rw [hb, if_pos (dirPte_valid b), PTE2PA_dirPte (hH.aligned hlab (by simp))]
      rw [hnode] at hlab
      exact ih hlab

/-- A walk that does not allocate. -/
theorem walk_finds {r va : Nat} {s : St}
    (hH : Heap L own s) (hT : Table own s.word t r S map) (hva : va < MAXVA) :
    (walk r va false).wp (spec L may ok) (fun res s' => s' = s ∧
      ((∃ b, own b = .node t 0 (va / 4096 / 512) ∧ res = some (b, va / 4096 % 512)) ∨
        (res = none ∧ map (va / 4096) = 0))) s := by
  unfold walk
  rw [if_neg (by omega)]
  exact walkFrom_finds va hH hT 2 (hT.root_node hva)

/-- The map of the table is what `walk` reads. -/
theorem Table.pte {r va : Nat} {s : St}
    (hH : Heap L own s) (hT : Table own s.word t r S map) (hva : va < MAXVA) :
    s.pte r va = valid (map (va / 4096)) := by
  obtain ⟨res, m', -, ⟨hst, hfound⟩, hres, -⟩ := wp_runs (L := L) (m := ⟨s, []⟩)
    (wp_and (walk_finds hH hT hva) (walk_reads hva))
  unfold St.walks at hres
  unfold St.pte
  cases hn : s.node r (indices va 2) with
  | none =>
    rw [hn] at hres
    rcases hfound with ⟨b, -, hb⟩ | ⟨-, h0⟩
    · rw [hres] at hb
      cases hb
    · rw [h0]
      rfl
  | some a =>
    rw [hn] at hres
    rcases hfound with ⟨b, hlab, hb⟩ | ⟨hb, -⟩
    · obtain ⟨rfl, hpx⟩ := Prod.mk.inj (Option.some.inj (hres.symm.trans hb))
      rw [hpx, Option.bind_some, hT.low a _ _ hlab (Nat.mod_lt _ (by decide)), Nat.div_add_mod]
    · rw [hres] at hb
      cases hb

/-- A path through the table leads to its nodes. -/
theorem Table.node {r : Nat} {s : St}
    (hH : Heap L own s) (hT : Table own s.word t r S map) {p : List (Fin 512)} :
    ∀ {a}, p.length < 3 → s.node r p = some a → ∃ x, own a = .node t (2 - p.length) x := by
  induction p with
  | nil =>
    intro a _ ha
    obtain rfl := Option.some.inj ha
    exact ⟨0, hT.root⟩
  | cons i p ih =>
    intro a hp ha
    have hp : p.length + 1 < 3 := hp
    obtain ⟨b, hb, hdec⟩ := Option.bind_eq_some_iff.mp ha
    obtain ⟨x, hx⟩ := ih (by omega) hb
    obtain ⟨l, hl⟩ : ∃ l, 2 - p.length = l + 1 := ⟨1 - p.length, by omega⟩
    rw [hl] at hx
    have hdec : pteDec (s.word b i) = some a := hdec
    rcases hT.down b l x i hx i.isLt with h0 | ⟨c, hc, hlab⟩
    · rw [h0] at hdec
      cases hdec
    · unfold pteDec at hdec
      rw [hc, valid_of_ne (dirPte_valid c), Option.map_some, PTE2PA_dirPte (hH.aligned hlab (by simp))] at hdec
      obtain rfl := Option.some.inj hdec
      refine ⟨512 * x + i, ?_⟩
      rw [List.length_cons, show 2 - (p.length + 1) = l by omega]
      exact hlab

/-- The PTE of a page that is in use. -/
theorem wp_walk_mapped {r va : Nat} {s : St} (hH : Heap L own s) (hT : Table own s.word t r S map)
    (hva : va < MAXVA) (hmap : map (va / 4096) ≠ 0) {α : Type} {Q : α → St → Prop}
    {k : Option (Nat × Nat) → Vcode α}
    (h : ∀ b, own b = .node t 0 (va / 4096 / 512) → s.word b (va / 4096 % 512) = map (va / 4096) →
      (k (some (b, va / 4096 % 512))).wp (spec L may ok) Q s) :
    (walk r va false >>= k).wp (spec L may ok) Q s := by
  refine wp_seq (walk_finds hH hT hva) ?_
  rintro res s' ⟨rfl, ⟨b, hb, rfl⟩ | ⟨-, h0⟩⟩
  · refine h b hb ?_
    rw [hT.low b _ _ hb (Nat.mod_lt _ (by decide)), Nat.div_add_mod]
  · exact absurd h0 hmap

/-! ## `mappages` -/

/-- How mapping one page comes back: it has failed and the map is as it was, or the PTE has been stored
    in the page `b`. -/
def Mapped (L : Layout) (may : Prop) (t : Owner) (r : Nat) (S : Nat → Prop) (map : Nat → Nat) (v w : Nat)
    (own : Nat → Place) (s : St) (res : Int) (s' : St) : Prop :=
  ∃ own1 s1, Grows t own own1 s s1 ∧ Heap L own1 s1 ∧ Table own1 s1.word t r S map ∧
    ((res = -1 ∧ may ∧ s' = s1) ∨
      (res = 0 ∧ ∃ b, own1 b = .node t 0 (v / 512) ∧ s' = s1.store b (v % 512) w))

/-- `mappages` of one page. -/
theorem mappages_page {va pa perm r : Nat} (hal : va % PGSIZE = 0) :
    mappages r va PGSIZE pa perm = mapLoop r va perm 1 va pa := by
  unfold PGSIZE at hal
  have hdown : PGROUNDDOWN va = va := by
    unfold PGROUNDDOWN PGSIZE
    omega
  have hlast : PGROUNDDOWN (va + PGSIZE - 1) = va := by
    unfold PGROUNDDOWN PGSIZE
    omega
  unfold mappages
  rw [hdown, hlast]
  dsimp only
  rw [Nat.sub_self, Nat.zero_div]

theorem mappages_one {r : Nat} {s : St}
    (va : Nat) (hH : Heap L own s) (hT : Table own s.word t r S map) (hva : va < MAXVA)
    (hal : va % PGSIZE = 0) (hfree : map (va / 4096) = 0) (pa perm : Nat) :
    (mappages r va PGSIZE pa perm).wp (spec L may ok)
      (Mapped L may t r S map (va / 4096) (mkPte pa perm) own s) s := by
  rw [mappages_page hal, mapLoop]
  refine wp_seq (walk_grows hH hT hva) ?_
  rintro res s1 ⟨own1, hg, hH1, hT1, ⟨rfl, hmay⟩ | ⟨b, hb, rfl⟩⟩
  · exact ⟨own1, s1, hg, hH1, hT1, .inl ⟨rfl, hmay, rfl⟩⟩
  · refine wp_load ?_
    rw [hT1.low b _ _ hb (Nat.mod_lt _ (by decide)), Nat.div_add_mod, hfree, if_neg (by simp)]
    refine wp_store ?_
    rw [if_pos rfl]
    exact ⟨own1, s1, hg, hH1, hT1, .inr ⟨rfl, b, hb, rfl⟩⟩

/-- The new entry is about memory that the table does not own. -/
theorem Table.set_special {b r v w : Nat} {s : St}
    {word : Nat → Nat → Nat} (hT : Table own word t r S map) (hH : Heap L own s)
    (hb : own b = .node t 0 (v / 512)) (hS : S v) (hw : w ≠ 0 → IsLeaf w) :
    Table own (update word b (update (word b) (v % 512) w)) t r S (update map v w) := by
  refine hT.put hH hb (fun _ _ _ => Iff.rfl) (fun _ _ _ => Iff.rfl) ?_ hw ?_ (update_self ..)
  · intro c
    refine iff_of_false ?_ (fun h => h.2.1 hS)
    intro hc
    exact (hT.back c v hc).2.1 hS
  · intro c l x _ hcb
    exact update_of_ne hcb ..

/-- A page in hand becomes a leaf. -/
theorem Table.set_leaf {b r v w : Nat} {s : St}
    {word : Nat → Nat → Nat} (hT : Table own word t r S map) (hH : Heap L own s)
    (hb : own b = .node t 0 (v / 512)) (hS : ¬S v) (hw : IsLeaf w)
    (hpa : own (PTE2PA w) = .held t) (hfree : map v = 0) :
    Table (update own (PTE2PA w) (.leaf t v)) (update word b (update (word b) (v % 512) w)) t r S
      (update map v w) := by
  refine hT.put hH hb (fun c l x => relabel_iff hpa nofun nofun) ?_ ?_ (fun _ => hw) ?_ (update_self ..)
  · exact fun c u hu => relabel_iff hpa nofun fun h => hu (Place.leaf.inj h).2.symm
  · intro c
    by_cases hc : c = PTE2PA w
    · subst hc
      rw [update_self]
      exact iff_of_true rfl ⟨hw.ne_zero, hS, rfl⟩
    · rw [update_of_ne hc]
      refine iff_of_false ?_ (fun h => hc h.2.2.symm)
      intro h
      exact (hT.back c v h).1 hfree
  · intro c l x _ hcb
    exact update_of_ne hcb ..

/-! ## `uvmunmap` -/

/-- The map without the `n` pages from `v` on. -/
def unmapped (map : Nat → Nat) (v n : Nat) : Nat → Nat := fun u =>
  if v ≤ u ∧ u < v + n then 0 else map u

theorem unmapped_step (map : Nat → Nat) (v n : Nat) :
    unmapped (update map v 0) (v + 1) n = unmapped map v (n + 1) := by
  funext u
  unfold unmapped
  by_cases hu : u = v
  · subst hu
    rw [update_self, if_neg (by omega), if_pos (by omega)]
  · grind

/-- A leaf is freed and its entry cleared. -/
theorem Table.clear_leaf {b r v : Nat} {word' : Nat → Nat → Nat} {s : St} {word : Nat → Nat → Nat} (hT : Table own word t r S map)
    (hH : Heap L own s) (hb : own b = .node t 0 (v / 512)) (hmap : map v ≠ 0) (hS : ¬S v)
    (hword : ∀ c, c ≠ PTE2PA (map v) → c ≠ b → word' c = word c)
    (hwordb : word' b = update (word b) (v % 512) 0) :
    Table (update own (PTE2PA (map v)) .free) word' t r S (update map v 0) := by
  have hpa := hT.owned v hmap hS
  refine hT.put hH hb (fun c l x => relabel_iff hpa nofun nofun) ?_ ?_ (fun h => absurd rfl h) ?_ hwordb
  · exact fun c u hu => relabel_iff hpa (fun h => hu (Place.leaf.inj h).2.symm) nofun
  · refine fun c => iff_of_false (fun h => ?_) fun h => h.1 rfl
    obtain ⟨hc, h⟩ := of_relabel h nofun
    exact hc (hT.back c v h).2.2.symm
  · exact fun c l x hcl hcb => hword c (label_ne hcl hpa nofun) hcb

theorem unmapLoop_spec {r va : Nat} {s : St} (doFree : Bool) (n : Nat) (hH : Heap L own s)
    (hT : Table own s.word t r S map) (hva : va + n * 4096 ≤ MAXVA) (hal : va % 4096 = 0)
    (hmap : ∀ u, va / 4096 ≤ u → u < va / 4096 + n → map u ≠ 0)
    (hS : ∀ u, va / 4096 ≤ u → u < va / 4096 + n → (doFree = true ↔ ¬S u)) :
    (unmapLoop r doFree n va).wp (spec L may ok) (fun _ s' => ∃ own', Frame t own own' s s' ∧
      Heap L own' s' ∧ Table own' s'.word t r S (unmapped map (va / 4096) n) ∧
      Spares t (fun u => ¬(va / 4096 ≤ u ∧ u < va / 4096 + n)) own own' s s' ∧
      ∀ a, own' a = .held t → own a = .held t) s := by
  induction n generalizing va own s map with
  | zero =>
    refine ⟨own, .refl t own s, hH, ?_, .refl t _ own s, fun _ h => h⟩
    have : unmapped map (va / 4096) 0 = map := by
      funext u
      exact if_neg (by omega)
    rw [this]
    exact hT
  | succ n ih =>
    have hpg : PGSIZE = 4096 := rfl
    have hv0 := hmap (va / 4096) le_rfl (by omega)
    have hS0 := hS (va / 4096) le_rfl (by omega)
    have hnext : (va + PGSIZE) / 4096 = va / 4096 + 1 := by omega
    rw [unmapLoop]
    refine wp_walk_mapped hH hT (by omega) hv0 ?_
    intro b hb hw
    have hleaf := hT.leafy _ hv0
    refine wp_load ?_
    rw [hw, if_neg hleaf.1, if_neg hleaf.flags]
    -- What is left to unmap, whatever happened to the page itself.
    have hrest : ∀ {own1 : Nat → Place} {s1 : St}, Frame t own own1 s s1 → Heap L own1 s1 →
        Table own1 s1.word t r S (update map (va / 4096) 0) →
        Spares t (fun u => u ≠ va / 4096) own own1 s s1 → (∀ a, own1 a = .held t → own a = .held t) →
        (unmapLoop r doFree n (va + PGSIZE)).wp (spec L may ok) (fun _ s' => ∃ own',
          Frame t own own' s s' ∧ Heap L own' s' ∧
          Table own' s'.word t r S (unmapped map (va / 4096) (n + 1)) ∧
          Spares t (fun u => ¬(va / 4096 ≤ u ∧ u < va / 4096 + (n + 1))) own own' s s' ∧
          ∀ a, own' a = .held t → own a = .held t) s1 := by
      intro own1 s1 hF hH1 hT1 hsp hheld
      refine wp_mono (ih hH1 hT1 (by omega) (by omega) ?_ ?_) ?_
      · intro u h1 h2
        rw [update_of_ne (by omega)]
        exact hmap u (by omega) (by omega)
      · intro u h1 h2
        exact hS u (by omega) (by omega)
      · rintro _ s' ⟨own', hF', hH', hT', hsp', hheld'⟩
        rw [hnext, unmapped_step] at hT'
        rw [hnext] at hsp'
        refine ⟨own', hF.trans hF', hH', hT', ?_, fun a ha => hheld a (hheld' a ha)⟩
        exact (hsp.mono fun u hu => by omega).trans (hsp'.mono fun u hu => by omega)
    have hnode : (own b).Of t := by
      rw [hb]
      exact rfl
    have hleafless : ∀ u, u ≠ va / 4096 → own b ≠ .leaf t u := fun u _ h => by cases hb.symm.trans h
    cases doFree with
    | false =>
      have hSv : S (va / 4096) := by
        by_contra hnot
        exact absurd (hS0.mpr hnot) (by decide)
      refine wp_store (hrest (.write hnode rfl rfl) (hH.same rfl) ?_ (.write hleafless rfl) fun _ h => h)
      exact hT.set_special hH hb hSv (fun h => absurd rfl h)
    | true =>
      have hnotS := hS0.mp rfl
      have hown := hT.owned _ hv0 hnotS
      have hbne : b ≠ PTE2PA (map (va / 4096)) := label_ne hb hown (by simp)
      have hpa : (own (PTE2PA (map (va / 4096)))).Of t := by
        rw [hown]
        exact rfl
      have hF : Frame t own (update own _ .free) s (s.give _) :=
        .step hpa trivial hpa rfl rfl
      have hother : ∀ u, u ≠ va / 4096 → own (PTE2PA (map (va / 4096))) ≠ .leaf t u :=
        fun u hu h => hu (Place.leaf.inj (hown.symm.trans h)).2.symm
      have hsp : Spares t (· ≠ va / 4096) own (update own _ .free) s (s.give _) := .step hother hother rfl
      refine wp_kfree hH ((hH.page _).mp (by rw [hown]; simp)) (by rw [hown]; simp) ?_
      intro hH1
      refine wp_store (hrest (hF.trans (.write ?_ rfl rfl)) (hH1.same rfl) ?_
        (hsp.trans (.write ?_ rfl)) fun a ha => (of_relabel ha (by simp)).2)
      · rw [update_of_ne hbne]
        exact hnode
      · refine hT.clear_leaf hH hb hv0 hnotS ?_ ?_
        · intro c hc1 hc2
          simp [St.store, St.give, St.fill, hc1, hc2]
        · simp [St.store, St.give, St.fill, hbne]
      · intro u hu h
        rw [update_of_ne hbne] at h
        exact hleafless u hu h

end Walk

/-! ## `freewalk` -/

/-- The nodes of the subtree at node `q` of level `l`. -/
def Under (t : Owner) (l q : Nat) : Place → Prop
  | .node t' l' x => t' = t ∧ l' ≤ l ∧ x / 512 ^ (l - l') = q
  | _ => False

namespace Under

theorem self (t : Owner) (l q : Nat) : Under t l q (.node t l q) :=
  ⟨rfl, le_rfl, by rw [Nat.sub_self, Nat.pow_zero, Nat.div_one]⟩

theorem zero {q : Nat} {pl : Place} (h : Under t 0 q pl) : pl = .node t 0 q := by
  cases pl with
  | node t' l' x =>
    obtain ⟨rfl, hl, hx⟩ := h
    obtain rfl := Nat.le_zero.mp hl
    rw [Nat.sub_self, Nat.pow_zero, Nat.div_one] at hx
    rw [hx]
  | _ => exact absurd h id

theorem unique {l q : Nat} {pl : Place}
    {q' : Nat} (h : Under t l q pl) (h' : Under t l q' pl) : q = q' := by
  cases pl with
  | node t' l' x => exact h.2.2.symm.trans h'.2.2
  | _ => exact absurd h id

/-- A node of the level above is not in the subtree. -/
theorem ne_above {l q x : Nat} {pl : Place} (h : Under t l q pl) : pl ≠ .node t (l + 1) x := by
  rintro rfl
  have := h.2.1
  omega

theorem succ_iff {l q : Nat} {pl : Place} : Under t (l + 1) q pl ↔
    pl = .node t (l + 1) q ∨ ∃ j, j < 512 ∧ Under t l (512 * q + j) pl := by
  cases pl with
  | node t' l' x =>
    constructor
    · rintro ⟨rfl, hl, hx⟩
      rcases eq_or_lt_of_le hl with rfl | hlt
      · left
        rw [Nat.sub_self, Nat.pow_zero, Nat.div_one] at hx
        rw [hx]
      · right
        rw [show l + 1 - l' = l - l' + 1 by omega, Nat.pow_succ, ← Nat.div_div_eq_div_mul] at hx
        refine ⟨x / 512 ^ (l - l') % 512, Nat.mod_lt _ (by decide), rfl, by omega, ?_⟩
        rw [← hx, Nat.div_add_mod]
    · rintro (heq | ⟨j, hj, rfl, hl, hx⟩)
      · rw [heq]
        exact self t (l + 1) q
      · refine ⟨rfl, by omega, ?_⟩
        rw [show l + 1 - l' = l - l' + 1 by omega, Nat.pow_succ, ← Nat.div_div_eq_div_mul, hx]
        omega
  | _ =>
    refine iff_of_false id ?_
    rintro (h | ⟨j, -, h⟩)
    · cases h
    · exact h

end Under

section Freewalk

variable {ok : Err → Prop} {own0 : Nat → Place} {word0 : Nat → Nat → Nat} {map : Nat → Nat}

/-- An entry that is 0 has no subtree. -/
theorem Table.no_under {a i l q r : Nat} (hT : Table own0 word0 t r S map)
    (hpage : ∀ a l x, own0 a = .node t l x → L.Page a)
    (ha : own0 a = .node t (l + 1) q) (hi : i < 512) (h0 : word0 a i = 0) (b : Nat) :
    ¬Under t l (512 * q + i) (own0 b) := by
  intro hu
  cases hb : own0 b with
  | node t' l' x =>
    rw [hb] at hu
    obtain ⟨rfl, hl', hx⟩ := hu
    have hl := (hT.top a _ _ ha).1
    obtain ⟨c, hc⟩ := hT.ancestor (l - l') hb (by omega)
    rw [hx, Nat.add_sub_of_le hl'] at hc
    obtain ⟨e, he, hw⟩ := hT.up c _ _ hc (by omega)
    rw [show (512 * q + i) / 512 = q by omega] at he
    have hea : e = a := hT.unique (fun a l x h => (hpage a l x h).1) 2 (Nat.sub_le 2 _) he ha
    rw [hea, show (512 * q + i) % 512 = i by omega, h0] at hw
    exact dirPte_ne c hw.symm
  | _ =>
    rw [hb] at hu
    exact hu

/-- What freeing the subtree at node `q` of level `l` does. -/
def Freed (L : Layout) (t : Owner) (own0 : Nat → Place) (l q : Nat) (own : Nat → Place) (s : St)
    (s' : St) : Prop :=
  ∃ own', Heap L own' s' ∧ (∀ b, Under t l q (own0 b) → own' b = .free) ∧
    (∀ b, ¬Under t l q (own0 b) → own' b = own b ∧ s'.word b = s.word b) ∧ s'.mem = s.mem

/-- The entries from `i` on, when the functions below free their subtrees. -/
theorem freeLoop_spec {a i l q r : Nat} {s : St} {own : Nat → Place} (hT : Table own0 word0 t r S map)
    (hpage : ∀ a l x, own0 a = .node t l x → L.Page a) {f : Nat → Vcode Unit}
    (hf : ∀ {a q own s}, own0 a = .node t l q → Heap L own s →
      (∀ b, Under t l q (own0 b) → own b = own0 b ∧ s.word b = word0 b) →
      (f a).wp (spec L may ok) (fun _ s' => Freed L t own0 l q own s s') s)
    (ha : own0 a = .node t (l + 1) q) (n : Nat)
    (hn : i + n = 512) (hH : Heap L own s)
    (hsub : ∀ b j, i ≤ j → j < 512 → Under t l (512 * q + j) (own0 b) → own b = own0 b ∧ s.word b = word0 b)
    (hword : ∀ j, i ≤ j → j < 512 → s.word a j = word0 a j) :
    (freeLoop f a n i).wp (spec L may ok) (fun _ s' => ∃ own', Heap L own' s' ∧
      (∀ b j, i ≤ j → j < 512 → Under t l (512 * q + j) (own0 b) → own' b = .free) ∧
      (∀ b, (∀ j, i ≤ j → j < 512 → ¬Under t l (512 * q + j) (own0 b)) →
        own' b = own b ∧ (b ≠ a → s'.word b = s.word b)) ∧ s'.mem = s.mem) s := by
  induction n generalizing i own s with
  | zero =>
    refine ⟨own, hH, ?_, fun b _ => ⟨rfl, fun _ => rfl⟩, rfl⟩
    intro b j h1 h2
    omega
  | succ n ih =>
    rw [freeLoop]
    refine wp_load ?_
    rw [hword i le_rfl (by omega)]
    rcases hT.down a l q i ha (by omega) with h0 | ⟨c, hc, hlab⟩
    · rw [h0, if_neg (by simp), if_neg (by simp)]
      refine wp_mono (ih (by omega) hH (fun b j h => hsub b j (by omega))
        (fun j h => hword j (by omega))) ?_
      rintro _ s' ⟨own', hH', hfree, hkeep, hsame⟩
      refine ⟨own', hH', ?_, ?_, hsame⟩
      · intro b j h1 h2 hu
        rcases eq_or_lt_of_le h1 with rfl | hlt
        · exact absurd hu (hT.no_under hpage ha (by omega) h0 b)
        · exact hfree b j hlt h2 hu
      · intro b hb
        exact hkeep b fun j h => hb j (by omega)
    · have hpc := hpage c l _ hlab
      rw [hc, if_pos ⟨dirPte_valid c, dirPte_rwx c⟩, PTE2PA_dirPte hpc.1]
      refine wp_seq (hf hlab hH fun b hb => hsub b i le_rfl (by omega) hb) ?_
      rintro _ s1 ⟨own1, hH1, hfree1, hkeep1, hsame1⟩
      refine wp_store ?_
      have hna : ∀ j, ¬Under t l (512 * q + j) (own0 a) := fun j hu => hu.ne_above ha
      have hdis : ∀ b j, i < j → Under t l (512 * q + j) (own0 b) → ¬Under t l (512 * q + i) (own0 b) := by
        intro b j hij hu hu'
        have := hu.unique hu'
        omega
      refine wp_mono (ih (by omega) (hH1.same rfl) ?_ ?_) ?_
      · intro b j h1 h2 hu
        obtain ⟨hl, hw⟩ := hkeep1 b (hdis b j h1 hu)
        obtain ⟨hl', hw'⟩ := hsub b j (by omega) h2 hu
        refine ⟨hl.trans hl', ?_⟩
        have hba : b ≠ a := by
          rintro rfl
          exact hna j hu
        rw [← hw', ← hw]
        exact update_of_ne hba ..
      · intro j h1 h2
        have hj : j ≠ i := by omega
        rw [← hword j (by omega) h2, ← (hkeep1 a (hna i)).2]
        simp [St.store, hj]
      · rintro _ s' ⟨own', hH', hfree, hkeep, hsame⟩
        refine ⟨own', hH', ?_, ?_, hsame.trans hsame1⟩
        · grind
        · intro b hb
          obtain ⟨hl, hw⟩ := hkeep b fun j h => hb j (by omega)
          obtain ⟨hl1, hw1⟩ := hkeep1 b (hb i le_rfl (by omega))
          refine ⟨hl.trans hl1, ?_⟩
          intro hba
          rw [hw hba, ← hw1]
          exact update_of_ne hba ..

/-- Entries that are all 0 are passed over. -/
theorem freeLoop_empty {a i : Nat} {s : St} (f : Nat → Vcode Unit) (n : Nat)
    (h : ∀ j, i ≤ j → j < i + n → s.word a j = 0) {Q : Unit → St → Prop} (hQ : Q () s) :
    (freeLoop f a n i).wp (spec L may ok) Q s := by
  induction n generalizing i with
  | zero => exact hQ
  | succ n ih =>
    grind [freeLoop, wp_load]

/-- The page itself comes last. -/
theorem kfree_last {a l q : Nat} {own' own : Nat → Place}
    {s s' : St} (hpage : ∀ a l x, own0 a = .node t l x → L.Page a)
    (ha : own0 a = .node t l q) (hl : own' a = own0 a) (hH' : Heap L own' s') (hsame : s'.mem = s.mem)
    (hfree : ∀ b, Under t l q (own0 b) → b ≠ a → own' b = .free)
    (hkeep : ∀ b, ¬Under t l q (own0 b) → own' b = own b ∧ s'.word b = s.word b) :
    (kfree a).wp (spec L may ok) (fun _ s' => Freed L t own0 l q own s s') s' := by
  refine wp_kfree (k := ret) hH' (hpage a l q ha) (by rw [hl, ha]; simp) ?_
  intro hH''
  refine ⟨_, hH'', ?_, ?_, hsame⟩
  · grind
  · intro b hb
    have hba : b ≠ a := by
      rintro rfl
      rw [ha] at hb
      exact hb (.self t l q)
    rw [update_of_ne hba]
    obtain ⟨h1, h2⟩ := hkeep b hb
    exact ⟨h1, by rw [← h2]; exact update_of_ne hba ..⟩

/-- **`freewalk` frees a subtree.** -/
theorem freewalk_spec {a q r : Nat} {s : St} {own : Nat → Place} (hT : Table own0 word0 t r S fun _ => 0)
    (hpage : ∀ a l x, own0 a = .node t l x → L.Page a) (l : Nat)
    (ha : own0 a = .node t l q) (hH : Heap L own s)
    (hsub : ∀ b, Under t l q (own0 b) → own b = own0 b ∧ s.word b = word0 b) :
    (freewalk (l + 1) a).wp (spec L may ok) (fun _ s' => Freed L t own0 l q own s s') s := by
  induction l generalizing a q own s with
  | zero =>
    obtain ⟨hla, hwa⟩ := hsub a (by rw [ha]; exact .self t 0 q)
    rw [freewalk]
    refine wp_bind.mpr (freeLoop_empty _ 512 ?_ ?_)
    · intro j _ hj
      rw [hwa, hT.low a q j ha (by omega)]
    · refine kfree_last hpage ha hla hH rfl ?_ (fun b _ => ⟨rfl, rfl⟩)
      intro b hb hba
      exact absurd (hT.unique (fun a l x h => (hpage a l x h).1) 2 (Nat.sub_le 2 0) hb.zero ha) hba
  | succ l ih =>
    obtain ⟨hla, hwa⟩ := hsub a (by rw [ha]; exact .self t (l + 1) q)
    rw [freewalk]
    refine wp_seq (freeLoop_spec hT hpage ih ha 512 rfl hH
      (fun b j _ hj hu => hsub b (Under.succ_iff.mpr (.inr ⟨j, hj, hu⟩)))
      (fun j _ _ => by rw [hwa])) ?_
    rintro _ s' ⟨own', hH', hfree, hkeep, hsame⟩
    refine kfree_last hpage ha ?_ hH' hsame ?_ ?_
    · rw [(hkeep a fun j _ _ hu => hu.ne_above ha).1, hla]
    · intro b hb hba
      rcases Under.succ_iff.mp hb with heq | ⟨j, hj, hu⟩
      · exact absurd (hT.unique (fun a l x h => (hpage a l x h).1) 2 (Nat.sub_le 2 _) heq ha) hba
      · exact hfree b j (Nat.zero_le _) hj hu
    · intro b hb
      have hba : b ≠ a := by
        rintro rfl
        rw [ha] at hb
        exact hb (.self t (l + 1) q)
      obtain ⟨h1, h2⟩ := hkeep b fun j _ hj hu => hb (Under.succ_iff.mpr (.inr ⟨j, hj, hu⟩))
      exact ⟨h1, h2 hba⟩

/-- The whole table: its nodes become free, and nothing else changes. -/
theorem freewalk_root {r : Nat} {s : St} {own : Nat → Place} (hH : Heap L own s)
    (hT : Table own s.word t r S fun _ => 0) :
    (freewalk 3 r).wp (spec L may ok) (fun _ s' => ∃ own', Heap L own' s' ∧ Frame t own own' s s' ∧
      (∀ a l x, own a = .node t l x → own' a = .free) ∧
      ∀ a, (∀ l x, own a ≠ .node t l x) → own' a = own a) s := by
  have hpage : ∀ a l x, own a = .node t l x → L.Page a := by
    intro a l x h
    exact (hH.page a).mp (by rw [h]; simp)
  refine wp_mono (freewalk_spec hT hpage 2 hT.root hH fun b _ => ⟨rfl, rfl⟩) ?_
  rintro _ s' ⟨own', hH', hfree, hkeep, hsame⟩
  -- Every node is under the root.
  have hall : ∀ a l x, own a = .node t l x → Under t 2 0 (own a) := by
    intro a l x h
    have hl := (hT.top a l x h).1
    obtain ⟨c, hc⟩ := hT.ancestor (2 - l) h (by omega)
    rw [Nat.add_sub_of_le hl] at hc
    rw [h]
    exact ⟨rfl, hl, ((hT.top c 2 _ hc).2 rfl).1⟩
  have hnot : ∀ a, (∀ l x, own a ≠ .node t l x) → ¬Under t 2 0 (own a) := by
    intro a ha hu
    cases hb : own a with
    | node t' l x =>
      rw [hb] at hu
      rw [hu.1] at hb
      exact ha l x hb
    | _ =>
      rw [hb] at hu
      exact hu
  refine ⟨own', hH', ⟨?_, ?_, hsame⟩, fun a l x h => hfree a (hall a l x h),
    fun a ha => (hkeep a (hnot a ha)).1⟩
  · intro a ha
    refine hkeep a (hnot a ?_)
    intro l x h
    rw [h] at ha
    exact ha rfl
  · intro a ha
    by_cases hu : Under t 2 0 (own a)
    · rw [hfree a hu]
      exact trivial
    · rw [(hkeep a hu).1]
      exact ha

end Freewalk

end Xv6.Vm
