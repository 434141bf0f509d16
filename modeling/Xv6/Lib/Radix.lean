/-
  A TREE OF PAGES: a radix tree that lives in memory.

  Memory is pages of words.  A word may hold a pointer to another page (`dec`), and a PATH of indices
  leads from a root page through the pages it meets (`node`).  A path is written with its last index
  first, so that a step down the tree is a `cons` and the pages on the way are its suffixes.

  The tree has `d` levels: the pages at the paths shorter than `d` are its INTERIOR, and a path of length
  `d` leads to a leaf.  `Separate` says that no interior page is met a second time, neither inside nor as
  a leaf.  It makes a store into an interior page a LOCAL change:

  * `node_put`  — a store on the lowest level changes one leaf;
  * `node_grow` — hanging an empty page that is not in the tree into it adds that page;
  * `node_off`  — a change of a page that is not interior changes nothing.
-/
import Mathlib.Logic.Function.Basic
import Mathlib.Data.List.Infix

namespace Radix

open Function

variable {A I W : Type}

/-- The page that a path leads to. -/
def node (dec : W → Option A) (word : A → I → W) (r : A) : List I → Option A
  | [] => some r
  | i :: p => (node dec word r p).bind fun a => dec (word a i)

/-- Interior pages differ from each other and from the leaves. -/
def Separate (dec : W → Option A) (d : Nat) (word : A → I → W) (r : A) : Prop :=
  ∀ p q a, p.length ≤ d → q.length < d → node dec word r p = some a → node dec word r q = some a → p = q

/-- Store a word. -/
def set [DecidableEq A] [DecidableEq I] (word : A → I → W) (a : A) (i : I) (w : W) : A → I → W :=
  update word a (update (word a) i w)

section Paths

variable {dec : W → Option A} {word word' : A → I → W} {r b : A} {p q : List I} {d : Nat}

/-- Where a path ends, its extensions end. -/
theorem node_none_of_suffix (h : q <:+ p) (hq : node dec word r q = none) : node dec word r p = none := by
  induction p with
  | nil => rwa [List.suffix_nil.mp h] at hq
  | cons i p ih =>
    rcases List.suffix_cons_iff.mp h with rfl | h
    · exact hq
    · rw [node, ih h]
      rfl

/-- A path depends on the words it meets. -/
theorem node_congr (h : ∀ c a j, (j :: c) <:+ p → node dec word r c = some a →
    dec (word' a j) = dec (word a j)) : node dec word' r p = node dec word r p := by
  induction p with
  | nil => rfl
  | cons i p ih =>
    rw [node, node, ih fun c a j hs => h c a j (hs.trans (List.suffix_cons i p))]
    cases hp : node dec word r p with
    | none => rfl
    | some a => exact h p a i (List.suffix_refl _) hp

/-- A page that is not interior may change. -/
theorem node_off (hb : ∀ c, c.length < d → node dec word r c ≠ some b)
    (hword : ∀ a, a ≠ b → word' a = word a) (hp : p.length ≤ d) :
    node dec word' r p = node dec word r p := by
  refine node_congr fun c a j hs hc => ?_
  have hlen : c.length < p.length := hs.length_le
  rw [hword a]
  rintro rfl
  exact hb c (by omega) hc

theorem Separate.off (hs : Separate dec d word r) (hb : ∀ c, c.length < d → node dec word r c ≠ some b)
    (hword : ∀ a, a ≠ b → word' a = word a) : Separate dec d word' r := by
  intro p q a hp hq hpa hqa
  rw [node_off hb hword hp] at hpa
  rw [node_off hb hword hq.le] at hqa
  exact hs p q a hp hq hpa hqa

/-- A proper extension of a path goes through one more entry. -/
theorem exists_cons_suffix (h : q <:+ p) (hne : p ≠ q) : ∃ j, (j :: q) <:+ p := by
  obtain ⟨t, rfl⟩ := h
  rcases List.eq_nil_or_concat t with rfl | ⟨t, j, rfl⟩
  · exact absurd rfl hne
  · exact ⟨j, t, by simp⟩

end Paths

section Stores

variable [DecidableEq A] [DecidableEq I] {dec : W → Option A} {word : A → I → W} {r a b : A} {i : I}
  {w : W} {p q : List I} {d : Nat}

theorem set_self : set word a i w a i = w := by
  unfold set
  rw [update_self, update_self]

theorem set_of_ne {a' : A} {i' : I} (h : ¬(a' = a ∧ i' = i)) : set word a i w a' i' = word a' i' := by
  unfold set
  by_cases ha : a' = a
  · subst ha
    rw [update_self, update_of_ne fun hi => h ⟨rfl, hi⟩]
  · rw [update_of_ne ha]

variable (hs : Separate dec d word r) (ha : node dec word r q = some a)

include hs ha

/-- A store changes the paths through its entry. -/
theorem Separate.node_set (hq : q.length < d) (hp : p.length ≤ d) (hn : ¬(i :: q) <:+ p) :
    node dec (set word a i w) r p = node dec word r p := by
  refine node_congr fun c a' j hc hca => ?_
  rw [set_of_ne]
  rintro ⟨rfl, rfl⟩
  have hlen : c.length < p.length := hc.length_le
  exact hn (hs c q a' (by omega) hq hca ha ▸ hc)

theorem Separate.node_set_self (hq : q.length < d) : node dec (set word a i w) r (i :: q) = dec w := by
  have hself : ¬(i :: q) <:+ q := fun h => by
    have : q.length < q.length := h.length_le
    omega
  rw [node, hs.node_set ha hq hq.le hself, ha]
  exact congrArg dec set_self

/-- **A store on the lowest level changes one leaf.** -/
theorem Separate.node_put (hq : q.length + 1 = d) (hp : p.length ≤ d) :
    node dec (set word a i w) r p = if p = i :: q then dec w else node dec word r p := by
  split
  · next hpi => rw [hpi, hs.node_set_self ha (by omega)]
  · next hpi =>
    refine hs.node_set ha (by omega) hp fun hsuf => hpi ?_
    exact (hsuf.eq_of_length (Nat.le_antisymm hsuf.length_le (by simpa [hq] using hp))).symm

theorem Separate.put (hq : q.length + 1 = d)
    (hw : ∀ b, dec w = some b → ∀ c, c.length < d → node dec word r c ≠ some b) :
    Separate dec d (set word a i w) r := by
  intro p c x hp hc hpx hcx
  have hcq : c ≠ i :: q := by
    rintro rfl
    exact absurd hc (by simp [hq])
  rw [hs.node_put ha hq hc.le, if_neg hcq] at hcx
  rw [hs.node_put ha hq hp] at hpx
  split at hpx
  · exact absurd hcx (hw x hpx c hc)
  · exact hs p c x hp hc hpx hcx

/-- **An empty page that was not in the tree is hung into it.** -/
theorem Separate.node_grow (hq : q.length < d) (h0 : dec (word a i) = none) (hw : dec w = some b)
    (hb : ∀ c, c.length < d → node dec word r c ≠ some b) (hempty : ∀ j, dec (word b j) = none)
    (hp : p.length ≤ d) :
    node dec (set word a i w) r p = if p = i :: q then some b else node dec word r p := by
  split
  · next hpi => rw [hpi, hs.node_set_self ha hq, hw]
  · next hpi =>
    by_cases hsuf : (i :: q) <:+ p
    · -- the path went nowhere before, and goes nowhere beyond the new page
      have hnone : node dec word r (i :: q) = none := by
        rw [node, ha]
        exact h0
      obtain ⟨j, hj⟩ := exists_cons_suffix hsuf hpi
      have hba : b ≠ a := fun h => hb q hq (by rw [ha, h])
      have hnone' : node dec (set word a i w) r (j :: i :: q) = none := by
        rw [node, hs.node_set_self ha hq, hw]
        show dec (set word a i w b j) = none
        rw [set_of_ne fun h => hba h.1, hempty j]
      rw [node_none_of_suffix hsuf hnone, node_none_of_suffix hj hnone']
    · exact hs.node_set ha hq hp hsuf

theorem Separate.grow (hq : q.length < d) (h0 : dec (word a i) = none) (hw : dec w = some b)
    (hb : ∀ c, c.length ≤ d → node dec word r c ≠ some b) (hempty : ∀ j, dec (word b j) = none) :
    Separate dec d (set word a i w) r := by
  have hnode : ∀ {p : List I}, p.length ≤ d →
      node dec (set word a i w) r p = if p = i :: q then some b else node dec word r p :=
    fun hp => hs.node_grow ha hq h0 hw (fun c hc => hb c hc.le) hempty hp
  intro p c x hp hc hpx hcx
  rw [hnode hp] at hpx
  rw [hnode hc.le] at hcx
  split at hpx <;> split at hcx
  · next h1 h2 => rw [h1, h2]
  · obtain rfl := Option.some.inj hpx
    exact absurd hcx (hb c hc.le)
  · obtain rfl := Option.some.inj hcx
    exact absurd hpx (hb p hp)
  · exact hs p c x hp hc hpx hcx

end Stores

end Radix
