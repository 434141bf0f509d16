/-
  PATH NAMES: `namei` is a fold of lookups.

  A path is a list of COMPONENTS: what stands between its slashes, empty pieces left out, each cut to
  `DIRSIZ` bytes.  `skipelem` takes them off one by one (`skipelem_cons`, `skipelem_nil`), so that the
  loop of `namex` is a loop over them.

  On a volume a directory is a list of entries, and `Vol.lookup` is the first one of a name.  The loop
  then computes `Vol.resolve`, the fold of `lookup` over the components, and takes exactly one reference,
  to the inode it returns.  `Took` says the second part: nothing but the inode cache has changed, and in
  it the counts by `loc` and nothing else.
-/
import Mathlib.Data.Finset.Card
import Xv6.Fs.Shows
import Xv6.Lib.Tally

namespace Xv6

open Function Prog Bytes Tally Vol List Up Option

variable {parent : Bool} {g : Goal} {path rest w : List UInt8} {e i k p : Nat} {loc : Nat → Int}
  {sb : Superblock} {α : Type} {c : UInt8} {v v' v1 : Vol} {f : Unit → Up α} {Q : α → Vol → Prop}

variable {name : Name} {j : Nat}

/-! ## Components -/

/-- The names between the slashes of a path. -/
def components (path : List UInt8) : List Name :=
  ((path.splitOn 47).filter fun w => !w.isEmpty).map fun w => w.take DIRSIZ

/-- A slash separates. -/
theorem components_append (a b : List UInt8) :
    components (a ++ 47 :: b) = components a ++ components b := by
  unfold components
  rw [splitOn_append_cons_self, filter_append, map_append]

theorem components_slash (path : List UInt8) : components (47 :: path) = components path :=
  components_append [] path

theorem components_dropWhile (path : List UInt8) : components (path.dropWhile slash) = components path := by
  induction path with
  | nil => rfl
  | cons c cs ih =>
    rw [dropWhile_cons]
    split
    · next hc =>
      obtain rfl : c = 47 := by simpa [slash] using hc
      rw [components_slash, ih]
    · rfl

/-- A word is one component. -/
theorem components_word (hne : w ≠ []) (hw : ∀ c ∈ w, c ≠ 47) : components w = [w.take DIRSIZ] := by
  unfold components
  rw [splitOn_eq_singleton fun h => hw 47 h rfl, filter_cons_of_pos]
  · rfl
  · cases w with
    | nil => exact absurd rfl hne
    | cons c cs => rfl

/-- A word, then the end or a slash. -/
theorem components_word_append (hne : w ≠ []) (hw : ∀ c ∈ w, c ≠ 47)
    (hrest : rest = [] ∨ rest.head? = some 47) :
    components (w ++ rest) = w.take DIRSIZ :: components rest := by
  cases rest with
  | nil =>
    rw [append_nil, components_word hne hw]
    rfl
  | cons c tail =>
    obtain rfl : c = 47 := by simpa using hrest
    rw [components_append, components_word hne hw, components_slash]
    rfl

theorem takeWhile_word (s : List UInt8) : ∀ c ∈ s.takeWhile (fun c => !slash c), c ≠ 47 := by
  intro c hc
  have h := all_eq_true.mp all_takeWhile c hc
  simpa [slash] using h

theorem dropWhile_word (s : List UInt8) :
    s.dropWhile (fun c => !slash c) = [] ∨ (s.dropWhile fun c => !slash c).head? = some 47 := by
  induction s with
  | nil => exact .inl rfl
  | cons c cs ih =>
    rw [dropWhile_cons]
    split
    · exact ih
    · next hc =>
      right
      simpa [slash] using hc

theorem not_slash_of_dropWhile {cs : List UInt8}
    (h : path.dropWhile slash = c :: cs) : slash c = false := by
  induction path with
  | nil => cases h
  | cons d ds ih =>
    grind [dropWhile_cons]

theorem dropWhile_idem (s : List UInt8) : (s.dropWhile slash).dropWhile slash = s.dropWhile slash := by
  cases h : s.dropWhile slash with
  | nil => rfl
  | cons c cs => rw [dropWhile_cons, if_neg (Bool.eq_false_iff.mp (not_slash_of_dropWhile h))]

theorem takeWhile_ne_nil (cs : List UInt8) (hc : slash c = false) :
    (c :: cs).takeWhile (fun c => !slash c) ≠ [] := by
  rw [takeWhile_cons, if_pos (by rw [hc]; rfl)]
  exact cons_ne_nil _ _

/-- What does not begin with a slash has a component, if it is there at all. -/
theorem components_eq_nil (h : path.dropWhile slash = path) : components path = [] ↔ path = [] := by
  cases path with
  | nil => exact iff_of_true rfl rfl
  | cons c cs =>
    refine iff_of_false ?_ (cons_ne_nil _ _)
    rw [← takeWhile_append_dropWhile (p := fun c => !slash c) (l := c :: cs),
      components_word_append (takeWhile_ne_nil cs (not_slash_of_dropWhile h)) (takeWhile_word _)
        (dropWhile_word _)]
    exact cons_ne_nil _ _

/-- `skipelem` ends with the components. -/
theorem skipelem_nil : skipelem path = none ↔ components path = [] := by
  rw [← components_dropWhile, components_eq_nil (dropWhile_idem path)]
  unfold skipelem
  cases path.dropWhile slash <;> simp

/-- `skipelem` takes off the first component; the rest is empty when it was the last. -/
theorem skipelem_cons (h : skipelem path = some (name, rest)) :
    components path = name :: components rest ∧ (rest = [] ↔ components rest = []) ∧
      rest.length < path.length := by
  have hle := (dropWhile_sublist (p := slash) (l := path)).length_le
  rw [← components_dropWhile]
  unfold skipelem at h
  cases hs : path.dropWhile slash with
  | nil =>
    rw [hs] at h
    cases h
  | cons c cs =>
    rw [hs] at h hle
    obtain ⟨rfl, rfl⟩ := Prod.mk.inj (some.inj h)
    have hc := not_slash_of_dropWhile hs
    refine ⟨?_, (components_eq_nil (dropWhile_idem _)).symm, ?_⟩
    · rw [components_dropWhile, ← components_word_append (takeWhile_ne_nil cs hc) (takeWhile_word _)
        (dropWhile_word _), takeWhile_append_dropWhile]
    · have h1 := (dropWhile_sublist (p := slash) (l := (c :: cs).dropWhile fun c => !slash c)).length_le
      have h2 := (dropWhile_sublist (p := fun c => !slash c) (l := cs)).length_le
      rw [dropWhile_cons, if_pos (by rw [hc]; rfl)] at h1 ⊢
      simp only [length_cons] at hle
      omega

/-! ## Directories of a volume -/

namespace Vol

variable (v : Vol)

/-- `de.inum` of entry `e` of the directory `i`. -/
def deInum (i e : Nat) : Nat := le16 (v.byte i) (DIRENT * e)

/-- `de.name` of entry `e` of the directory `i`. -/
def deName (i e : Nat) : Bytes := fun o => v.byte i (DIRENT * e + 2 + o)

/-- The first entry with a name. -/
def find (i : Nat) (name : Name) : Option Nat :=
  (entries (v.ino i).size).find? fun e =>
    v.deInum i e != 0 && namecmp (ofList name) (v.deName i e) == 0

/-- The inode that a name has in a directory; what is no directory has no names. -/
def lookup (i : Nat) (name : Name) : Option Nat :=
  if (v.ino i).type = T_DIR then (v.find i name).map (v.deInum i) else none

/-- The fold of `lookup` over a list of names. -/
def resolve (i : Nat) (names : List Name) : Option Nat := names.foldlM v.lookup i

/-- The inodes of the entries of the inode cache that are in use. -/
def used : Finset Nat := ((Finset.range NINODE).filter fun k => 1 ≤ (v.slot k).ref).image v.inum

/-- Inode `i` is allocated, and has a link or is in use. -/
structure Named (sb : Superblock) (i : Nat) : Prop where
  lt : i < sb.ninodes
  type : (v.ino i).type ≠ 0
  live : (v.ino i).nlink ≠ 0 ∨ i ∈ v.used

/-- Directories consist of whole entries, and these name inodes that are there. -/
structure Dirs (sb : Superblock) : Prop where
  root : v.Named sb ROOTINO
  whole : ∀ i, i < sb.ninodes → (v.ino i).type = T_DIR → (v.ino i).size % DIRENT = 0
  entry : ∀ i e, i < sb.ninodes → (v.ino i).type = T_DIR → e ∈ entries (v.ino i).size →
    v.deInum i e ≠ 0 → v.Named sb (v.deInum i e)

variable {v}

theorem mem_used : i ∈ v.used ↔ ∃ k, k < NINODE ∧ 1 ≤ (v.slot k).ref ∧ v.inum k = i := by
  simp only [used, Finset.mem_image, Finset.mem_filter, Finset.mem_range, and_assoc]

theorem find_some (h : v.find i name = some e) : e ∈ entries (v.ino i).size ∧ v.deInum i e ≠ 0 := by
  have hp := find?_some h
  simp only [Bool.and_eq_true, bne_iff_ne] at hp
  exact ⟨mem_of_find?_eq_some h, hp.1⟩

theorem Dirs.lookup (hD : v.Dirs sb) (hi : i < sb.ninodes)
    (h : v.lookup i name = some j) : v.Named sb j := by
  unfold Vol.lookup at h
  split at h
  · next ht =>
    obtain ⟨e, he, rfl⟩ := map_eq_some_iff.mp h
    obtain ⟨hmem, hne⟩ := find_some he
    exact hD.entry i e hi ht hmem hne
  · cases h

end Vol

/-! ## References taken -/

/-- Which entries of the inode cache are locked. -/
def Vol.locks (v : Vol) : Nat → Bool := fun k => (v.slot k).locked

/-- From `v` to `v'` nothing has changed but the inode cache: its counts by `loc`, and its locks to
    `lk`. -/
structure Took (v : Vol) (lk : Nat → Bool) (loc : Nat → Int) (v' : Vol) : Prop where
  rest : v' = v.withMem v'.mem
  tabs : v'.mem.tabs = v.mem.tabs
  ref : ∀ k, (v'.slot k).ref = (v.slot k).ref + loc k
  inum : ∀ k, 1 ≤ (v.slot k).ref → v'.inum k = v.inum k
  locked : v'.locks = lk

namespace Took

variable {v2 : Vol} {lk lk' : Nat → Bool} {loc' : Nat → Int}

section

variable (h : Took v lk loc v1)
include h

theorem trans (h' : Took v1 lk' loc' v2) (hloc : ∀ k, 0 ≤ loc k) : Took v lk' (loc + loc') v2 := by
  refine ⟨?_, h'.tabs.trans h.tabs, ?_, ?_, h'.locked⟩
  · have hrest := h'.rest
    rw [h.rest] at hrest
    exact hrest
  · intro k
    rw [h'.ref, h.ref, Pi.add_apply, Int.add_assoc]
  · grind [Took]

theorem ino : v1.ino = v.ino := by rw [h.rest]; rfl

theorem byte : v1.byte = v.byte := by rw [h.rest]; rfl

theorem lh : v1.lh = v.lh := by rw [h.rest]; rfl

theorem nonneg (h0 : ∀ k, k < NINODE → 0 ≤ (v.slot k).ref) (hloc : ∀ k, 0 ≤ loc k) :
    ∀ k, k < NINODE → 0 ≤ (v1.slot k).ref := by
  intro k hk
  have := h0 k hk
  have := h.ref k
  have := hloc k
  omega

/-- What was in use still is. -/
theorem used_subset (hloc : ∀ k, 0 ≤ loc k) : v.used ⊆ v1.used := by
  intro i hi
  obtain ⟨k, hk, href, rfl⟩ := mem_used.mp hi
  refine mem_used.mpr ⟨k, hk, ?_, h.inum k href⟩
  have := h.ref k
  have := hloc k
  omega

theorem dirs (hloc : ∀ k, 0 ≤ loc k) (hD : v.Dirs sb) : v1.Dirs sb := by
  have hnamed : ∀ {i}, v.Named sb i → v1.Named sb i := by
    rintro i ⟨hi, ht, hlive⟩
    refine ⟨hi, ?_, ?_⟩
    · rwa [h.ino]
    · rw [h.ino]
      exact hlive.imp id fun hu => h.used_subset hloc hu
  refine ⟨hnamed hD.root, ?_, ?_⟩
  · rw [h.ino]
    exact hD.whole
  · unfold Vol.deInum
    rw [h.ino, h.byte]
    exact fun i e hi ht he hne => hnamed (hD.entry i e hi ht he hne)

end

/-- With one reference more, one inode more. -/
theorem used_point (h : Took v lk (point (some k)) v1) (hk : k < NINODE) (h0 : 0 ≤ (v.slot k).ref) :
    v1.used = insert (v1.inum k) v.used := by
  refine Finset.Subset.antisymm ?_ (Finset.insert_subset ?_ (h.used_subset (point_nonneg _)))
  · intro i hi
    obtain ⟨l, hl, href, rfl⟩ := mem_used.mp hi
    by_cases hlk : l = k
    · subst hlk
      exact Finset.mem_insert_self ..
    · rw [h.ref, point_ne hlk, Int.add_zero] at href
      exact Finset.mem_insert_of_mem (mem_used.mpr ⟨l, hl, href, (h.inum l href).symm⟩)
  · have href := h.ref k
    rw [point_self] at href
    exact mem_used.mpr ⟨k, hk, by omega, rfl⟩

/-- An entry that is touched without being given to another inode. -/
theorem upd {g : Inode → Inode} {n : Int} (hi : (g (v.slot k)).inum = v.inum k)
    (hr : (g (v.slot k)).ref = (v.slot k).ref + n)
    (hlk : lk = update v.locks k (g (v.slot k)).locked) :
    Took v lk (Pi.single k n) (v.upd k g) := by
  refine ⟨rfl, rfl, ?_, ?_, ?_⟩
  · grind [upd_slot, upd_slot_ne]
  · intro j _
    show ((v.upd k g).slot j).inum = _
    by_cases hj : j = k
    · subst hj
      rw [upd_slot, hi]
    · rw [upd_slot_ne v g hj]
      rfl
  · rw [hlk]
    funext j
    show ((v.upd k g).slot j).locked = _
    by_cases hj : j = k
    · subst hj
      rw [upd_slot, update_self]
    · rw [upd_slot_ne v g hj, update_of_ne hj]
      rfl

end Took

/-- `iget` finds an entry or recycles one that nobody refers to. -/
theorem Vol.iget_took {m : Mem} (h : v.mem.iget i = some (k, m)) :
    k < NINODE ∧ (v.withMem m).inum k = i ∧ Took v v.locks (point (some k)) (v.withMem m) := by
  unfold Mem.iget at h
  split at h
  · next j hj =>
    obtain ⟨rfl, rfl⟩ := Prod.mk.inj (some.inj h)
    have hp := find?_some hj
    simp only [Bool.and_eq_true, beq_iff_eq] at hp
    refine ⟨mem_range.mp (mem_of_find?_eq_some hj), ?_, Took.upd rfl rfl (update_eq_self ..).symm⟩
    exact (congrArg Inode.inum (v.upd_slot j _)).trans hp.2
  · split at h
    · next j hj =>
      obtain ⟨rfl, rfl⟩ := Prod.mk.inj (some.inj h)
      have href : (v.mem.icache j).ref = 0 := by simpa using find?_some hj
      have href : (v.slot j).ref = 0 := href
      refine ⟨mem_range.mp (mem_of_find?_eq_some hj), congrArg Inode.inum (v.upd_slot j _),
        rfl, rfl, ?_, ?_, ?_⟩
      · intro l
        by_cases hl : l = j
        · subst hl
          exact (congrArg Inode.ref (v.upd_slot l _)).trans (by rw [href, point_self]; rfl)
        · exact (congrArg Inode.ref (v.upd_slot_ne _ hl)).trans (by rw [point_ne hl, Int.add_zero])
      · intro l hl
        refine congrArg Inode.inum (v.upd_slot_ne _ ?_)
        rintro rfl
        omega
      · funext l
        by_cases hl : l = j
        · subst hl
          exact (congrArg Inode.locked (v.upd_slot l _)).trans rfl
        · exact congrArg Inode.locked (v.upd_slot_ne _ hl)
    · cases h

/-- An `iget` of inode `i` finds an entry, when the inodes `U` are in use. -/
def Gets (U : Finset Nat) (i : Nat) : Prop := i ∈ U ∨ U.card < NINODE

/-- Not all entries are in use exactly if fewer inodes than entries are. -/
theorem Vol.Ok.used_lt_iff (hv : v.Ok sb) (h0 : ∀ k, k < NINODE → 0 ≤ (v.slot k).ref) :
    v.used.card < NINODE ↔ ∃ k, k < NINODE ∧ (v.slot k).ref = 0 := by
  have hinj : Set.InjOn v.inum ((Finset.range NINODE).filter fun k => 1 ≤ (v.slot k).ref) := by
    intro k hk l hl hkl
    obtain ⟨hk, hrk⟩ := Finset.mem_filter.mp hk
    obtain ⟨hl, hrl⟩ := Finset.mem_filter.mp hl
    exact hv.slots.uniq k l (Finset.mem_range.mp hk) (Finset.mem_range.mp hl) hrk hrl hkl
  have hcard : (Finset.range NINODE).card = NINODE := Finset.card_range _
  unfold used
  rw [Finset.card_image_of_injOn hinj]
  constructor
  · grind [Finset.filter_true_of_mem]
  · rintro ⟨k, hk, href⟩
    conv_rhs => rw [← hcard]
    refine Finset.card_lt_card (Finset.filter_ssubset.mpr ⟨k, Finset.mem_range.mpr hk, ?_⟩)
    omega

/-- When `iget` succeeds. -/
theorem Vol.Ok.iget_iff (hv : v.Ok sb) (h0 : ∀ k, k < NINODE → 0 ≤ (v.slot k).ref) (i : Nat) :
    (v.mem.iget i).isSome ↔ Gets v.used i := by
  unfold Gets
  rw [hv.used_lt_iff h0, mem_used]
  unfold Mem.iget
  split
  · next k hk =>
    refine iff_of_true rfl (.inl ⟨k, mem_range.mp (mem_of_find?_eq_some hk), ?_⟩)
    have h := find?_some hk
    simp only [gt_iff_lt, Bool.and_eq_true, decide_eq_true_eq, beq_iff_eq] at h
    exact h
  · next hnone =>
    rw [or_iff_right]
    · split
      · next k hk =>
        have h := find?_some hk
        exact iff_of_true rfl ⟨k, mem_range.mp (mem_of_find?_eq_some hk), beq_iff_eq.mp h⟩
      · next hfull =>
        refine iff_of_false Bool.false_ne_true ?_
        rintro ⟨k, hk, href⟩
        exact find?_eq_none.mp hfull k (mem_range.mpr hk) (beq_iff_eq.mpr href)
    · rintro ⟨k, hk, href, hinum⟩
      refine find?_eq_none.mp hnone k (mem_range.mpr hk) ?_
      simp only [gt_iff_lt, Bool.and_eq_true, decide_eq_true_eq, beq_iff_eq]
      exact ⟨href, hinum⟩

/-! ## The calls, one by one -/

section Rules

theorem Vol.wp_iget {f : Nat → Up α} (hi : i < sb.ninodes)
    (hroom : g.bad (.panic "iget: no inodes") → (v.mem.iget i).isSome)
    (h : (v.mem.iget i).isSome → ∀ k v', k < NINODE → v'.Ok sb → Took v v.locks (point (some k)) v' →
      v'.inum k = i → (f k).wp (spec sb g) Q v') :
    (iget i >>= f).wp (spec sb g) Q v := by
  refine ⟨⟨hi, hroom⟩, ?_⟩
  rintro k v' ⟨⟨m, hm, rfl⟩, hok⟩
  obtain ⟨hk, hinum, hT⟩ := iget_took hm
  exact h (by rw [hm]; rfl) k _ hk hok hT hinum

theorem Vol.wp_idup (hk : k < NINODE) (href : 1 ≤ (v.slot k).ref)
    (h : ∀ v', v'.Ok sb → Took v v.locks (point (some k)) v' → (f ()).wp (spec sb g) Q v') :
    (idup k >>= f).wp (spec sb g) Q v := by
  refine ⟨⟨hk, href⟩, ?_⟩
  rintro ⟨⟩ v' ⟨rfl, hok⟩
  exact h _ hok (Took.upd rfl rfl (update_eq_self ..).symm)

theorem Vol.wp_ilock (hk : k < NINODE) (href : 1 ≤ (v.slot k).ref)
    (hfree : v.locks k = false) (ht : (v.ino (v.inum k)).type ≠ 0) (hlh : g.total → v.lh < NBUF)
    (h : ∀ v', v'.Ok sb → Took v (update v.locks k true) 0 v' → v'.Held k →
      (v'.slot k).din = v.ino (v.inum k) → (f ()).wp (spec sb g) Q v') :
    (ilock k >>= f).wp (spec sb g) Q v := by
  refine ⟨⟨hk, fun _ => href, fun _ => hfree, fun _ => ht, hlh⟩, ?_⟩
  rintro ⟨⟩ v' ⟨⟨-, -, -, rfl⟩, hok⟩
  have hslot := v.upd_slot k fun ip => { ip with locked := true, valid := true, din := v.ino ip.inum }
  have hT : Took v (update v.locks k true) (Pi.single k 0) (v.upd k fun ip =>
      { ip with locked := true, valid := true, din := v.ino ip.inum }) :=
    Took.upd rfl (Int.add_zero _).symm rfl
  rw [Pi.single_zero] at hT
  refine h _ hok hT ⟨hk, ?_, ?_, ?_⟩ ?_
  · rw [hslot]
    exact href
  · rw [hslot]
  · rw [hslot]
  · rw [hslot]
    rfl

theorem Vol.wp_iunlock (hk : k < NINODE) (href : 1 ≤ (v.slot k).ref) (hlock : v.locks k = true)
    (h : ∀ v', v'.Ok sb → Took v (update v.locks k false) 0 v' → (f ()).wp (spec sb g) Q v') :
    (iunlock k >>= f).wp (spec sb g) Q v := by
  refine ⟨⟨hk, fun _ => ⟨hlock, href⟩⟩, ?_⟩
  rintro ⟨⟩ v' ⟨⟨-, -, rfl⟩, hok⟩
  have hT : Took v (update v.locks k false) (Pi.single k 0) (v.upd k fun ip =>
      { ip with locked := false }) := Took.upd rfl (Int.add_zero _).symm rfl
  rw [Pi.single_zero] at hT
  exact h _ hok hT

/-- An inode with another reference or a link does not die. -/
theorem Vol.Ok.not_dying (hv : v.Ok sb) (hk : k < NINODE)
    (h : 2 ≤ (v.slot k).ref ∨ (v.ino (v.inum k)).nlink ≠ 0) : ¬ v.Dying k := by
  rintro ⟨href, hvalid, hnlink⟩
  rcases h with h | h
  · omega
  · have hdin := (hv.slots.valid k hk (by exact href.ge) hvalid (by simp)).1
    rw [slot, hdin] at hnlink
    exact h hnlink

theorem Vol.wp_iput (hv : v.Ok sb) (hk : k < NINODE) (href : 1 ≤ (v.slot k).ref)
    (hlive : 2 ≤ (v.slot k).ref ∨ (v.ino (v.inum k)).nlink ≠ 0)
    (h : ∀ v', v'.Ok sb → Took v v.locks (Pi.single k (-1)) v' → (f ()).wp (spec sb g) Q v') :
    (iput k >>= f).wp (spec sb g) Q v := by
  have hnd := hv.not_dying hk hlive
  refine ⟨⟨hk, href, fun hd => absurd hd hnd⟩, ?_⟩
  rintro ⟨⟩ v' ⟨heffect, hok⟩
  obtain rfl : v' = v.upd k fun ip => { ip with ref := ip.ref - 1 } := by
    have heffect : if v.Dying k then _ else v' = _ := heffect
    rw [if_neg hnd] at heffect
    exact heffect
  exact h _ hok (Took.upd rfl rfl (update_eq_self ..).symm)

theorem Vol.wp_inode {f : Fields → Up α} (h : (f (v.slot k).fields).wp (spec sb g) Q v) :
    (inode k >>= f).wp (spec sb g) Q v := by
  refine ⟨trivial, ?_⟩
  rintro r v' ⟨⟨rfl, rfl⟩, -⟩
  exact h

/-- Reading an entry of a directory. -/
theorem Vol.wp_readEntry {f : Nat × Bytes → Up α} (hv : v.Ok sb) (hk : v.Held k)
    (ht : (v.ino (v.inum k)).type = T_DIR) (hwhole : (v.ino (v.inum k)).size % DIRENT = 0)
    (he : e ∈ entries (v.ino (v.inum k)).size) (hlh : g.total → v.lh < NBUF)
    (h : ∀ d, (∀ o, o < DIRENT → d o = v.byte (v.inum k) (DIRENT * e + o)) →
      (f (DIRENT, d)).wp (spec sb g) Q v) :
    (readi k .kernel (DIRENT * e) DIRENT >>= f).wp (spec sb g) Q v := by
  have hlt := mem_range.mp he
  have hinum := hv.slots.inum k hk.lt hk.ref
  have hsize := hv.size _ hinum (by rw [show (v.mem.icache k).inum = v.inum k from rfl, ht]; decide)
  have hread : v.readable k (DIRENT * e) DIRENT = DIRENT := by
    unfold readable
    have hs : (v.ino (v.inum k)).size ≤ 274432 := hsize
    have hD : DIRENT = 16 := rfl
    rw [hD] at hlt hwhole ⊢
    rw [if_neg (by omega)]
    omega
  refine ⟨⟨hk, hlh⟩, ?_⟩
  rintro ⟨r, d⟩ v' ⟨⟨-, hr, hd, rfl⟩, -⟩
  obtain rfl : r = DIRENT := (hr trivial).trans hread
  exact h d (hd fun htorn => hv.torn _ htorn ht)

end Rules

/-! ## `dirlookup` -/

theorem strncmpFrom_congr {p q q' : Bytes} (n : Nat)
    (h : ∀ j, j < i + n → q j = q' j) : strncmpFrom p q i n = strncmpFrom p q' i n := by
  induction n generalizing i with
  | zero => rfl
  | succ n ih =>
    rw [strncmpFrom, strncmpFrom, h i (by omega), ih fun j hj => h j (by omega)]

section Lookup

variable {dp : Nat}

/-- What `dirlookup` has found. -/
def Found (sb : Superblock) (v : Vol) (dp : Nat) (o : Option Nat) : Option (Nat × Nat) → Vol → Prop
  | none, v' => o = none ∧ v' = v
  | some (k, off), v' => ∃ e, o = some e ∧ off = DIRENT * e ∧ k < NINODE ∧ v'.Ok sb ∧
    v'.inum k = v.deInum (v.inum dp) e ∧ Took v v.locks (point (some k)) v' ∧
    (v.mem.iget (v.deInum (v.inum dp) e)).isSome

theorem dirlookupFrom_spec (hv : v.Ok sb) (hD : v.Dirs sb) (hk : v.Held dp)
    (ht : (v.ino (v.inum dp)).type = T_DIR) (hlh : g.total → v.lh < NBUF)
    (name : Name) (es : List Nat) (hes : ∀ e ∈ es, e ∈ entries (v.ino (v.inum dp)).size)
    (hroom : g.bad (.panic "iget: no inodes") → ∀ e, (es.find? fun e => v.deInum (v.inum dp) e != 0 &&
      namecmp (ofList name) (v.deName (v.inum dp) e) == 0) = some e →
        (v.mem.iget (v.deInum (v.inum dp) e)).isSome) :
    (dirlookupFrom dp name es).wp (spec sb g)
      (Found sb v dp (es.find? fun e => v.deInum (v.inum dp) e != 0 &&
        namecmp (ofList name) (v.deName (v.inum dp) e) == 0)) v := by
  have hinum := hv.slots.inum dp hk.lt hk.ref
  induction es with
  | nil => exact ⟨rfl, rfl⟩
  | cons e es ih =>
    have he := hes e (mem_cons_self ..)
    have ih := ih fun e' he' => hes e' (mem_cons_of_mem _ he')
    rw [find?_cons] at hroom ⊢
    refine wp_readEntry hv hk ht (hD.whole _ hinum ht) he hlh ?_
    intro d hd
    have hde : Xv6.deInum d = v.deInum (v.inum dp) e :=
      le16_congr (hd 0 (by decide)) (hd 1 (by decide))
    have hname : namecmp (ofList name) (Xv6.deName d) = namecmp (ofList name) (v.deName (v.inum dp) e) := by
      refine strncmpFrom_congr _ fun j hj => ?_
      have hj : j < 14 := by rwa [Nat.zero_add] at hj
      show d (2 + j) = v.byte _ (DIRENT * e + 2 + j)
      rw [hd (2 + j) (by show 2 + j < 16; omega), Nat.add_assoc]
    rw [if_neg (by simp), hde, hname]
    by_cases h0 : v.deInum (v.inum dp) e = 0
    · grind
    have hused : (v.deInum (v.inum dp) e != 0) = true := by simp [h0]
    rw [if_neg h0]
    rw [hused, Bool.true_and] at hroom ⊢
    by_cases hcmp : namecmp (ofList name) (v.deName (v.inum dp) e) = 0
    · rw [if_pos hcmp]
      rw [hcmp] at hroom ⊢
      refine Vol.wp_iget (hD.entry _ e hinum ht he h0).lt (fun hb => hroom hb e rfl) ?_
      intro hsome k v' hklt hok hT hi
      exact ⟨e, rfl, rfl, hklt, hok, hi, hT, hsome⟩
    · rw [if_neg hcmp]
      rw [beq_eq_false_iff_ne.mpr hcmp] at hroom ⊢
      exact ih hroom

theorem dirlookup_spec (hv : v.Ok sb) (hD : v.Dirs sb) (hk : v.Held dp)
    (ht : (v.ino (v.inum dp)).type = T_DIR) (hlh : g.total → v.lh < NBUF)
    (name : Name) (hroom : g.bad (.panic "iget: no inodes") → ∀ e, v.find (v.inum dp) name = some e →
      (v.mem.iget (v.deInum (v.inum dp) e)).isSome) :
    (dirlookup dp name).wp (spec sb g) (Found sb v dp (v.find (v.inum dp) name)) v := by
  have hdin := (hv.slots.valid dp hk.lt hk.ref hk.valid (by simp)).1
  refine wp_inode ?_
  have hf : (v.slot dp).fields.type = T_DIR ∧ (v.slot dp).fields.size = (v.ino (v.inum dp)).size := by
    unfold Inode.fields slot
    rw [hdin]
    exact ⟨ht, rfl⟩
  rw [hf.1, hf.2, if_neg (by simp)]
  exact dirlookupFrom_spec hv hD hk ht hlh name _ (fun _ => id) hroom

end Lookup

/-! ## `namex` -/

/-- A volume in which paths can be looked up: nothing is locked. -/
structure Vol.Ready (sb : Superblock) (v : Vol) : Prop where
  ok : v.Ok sb
  dirs : v.Dirs sb
  free : ∀ k, k < NINODE → v.locks k = false
  nonneg : ∀ k, k < NINODE → 0 ≤ (v.slot k).ref
  lh : v.lh < NBUF

/-- The inode cache has room for a walk from inode `i` along `names`, when the inodes `U` are in use: at
    each step there is an entry for the next inode, besides the one of the inode the walk has come to. -/
def Vol.Walks (v : Vol) (U : Finset Nat) : Nat → List Name → Prop
  | _, [] => True
  | i, name :: names => ∀ j, v.lookup i name = some j → Gets (insert i U) j ∧ v.Walks U j names

/-- With two entries left there is room for every walk. -/
theorem Vol.walks_of_card {U : Finset Nat} (h : U.card + 1 < NINODE) (names : List Name) :
    ∀ i, v.Walks U i names := by
  induction names with
  | nil => exact fun _ => trivial
  | cons name names ih =>
    intro i j _
    exact ⟨.inr (lt_of_le_of_lt (Finset.card_insert_le ..) h), ih j⟩

/-- The components that `namex` looks up. -/
def trail (parent : Bool) (names : List Name) : List Name := if parent then names.dropLast else names

theorem trail_cons {names : List Name} (h : parent = true → names ≠ []) :
    trail parent (name :: names) = name :: trail parent names := by
  unfold trail
  split
  · next hp => exact dropLast_cons_of_ne_nil (h hp)
  · rfl

/-- A lookup that began in `v` has come to inode `i`, to which it has a reference in slot `k`. -/
structure Vol.At (sb : Superblock) (v : Vol) (i k : Nat) (v' : Vol) : Prop where
  ok : v'.Ok sb
  took : Took v v.locks (point (some k)) v'
  lt : k < NINODE
  inum : v'.inum k = i
  type : (v.ino i).type ≠ 0
  live : 1 ≤ (v.slot k).ref ∨ (v.ino i).nlink ≠ 0

/-- Coming to an inode that is named. -/
theorem Vol.Named.at (hn : v.Named sb i) (hok : v'.Ok sb) (hT : Took v v.locks (point (some k)) v')
    (h0 : 0 ≤ (v.slot k).ref) (hk : k < NINODE) (hi : v'.inum k = i) : v.At sb i k v' := by
  refine ⟨hok, hT, hk, hi, hn.type, ?_⟩
  rcases hn.live with hlink | hused
  · exact .inr hlink
  · -- the entry in use is the one that was found
    obtain ⟨l, hl, href, hli⟩ := mem_used.mp hused
    have hk1 := hT.ref k
    rw [point_self] at hk1
    have hl1 := hT.ref l
    have := point_nonneg (some k) l
    have hsame : l = k := hok.slots.uniq l k hl hk (by exact (by omega : 1 ≤ (v'.slot l).ref))
      (by exact (by omega : 1 ≤ (v'.slot k).ref)) (by
        have : v'.inum l = v'.inum k := by rw [hT.inum l href, hli, hi]
        exact this)
    rw [← hsame]
    exact .inl href

/-- Where `namex` ends: at the inode of the path, or at the directory of its last component. -/
def Vol.Ends (sb : Superblock) (v : Vol) (i : Nat) (names : List Name) (parent : Bool) :
    Option (Nat × Name) → Vol → Prop
  | none, v' => v'.Ok sb ∧ Took v v.locks 0 v' ∧
    if parent then names = [] ∨ ∀ j, v.resolve i names.dropLast = some j → (v.ino j).type ≠ T_DIR
    else v.resolve i names = none
  | some (k, name), v' => ∃ j, v.At sb j k v' ∧
    if parent then (v.ino j).type = T_DIR ∧
      ∃ init, names = init ++ [name] ∧ v.resolve i init = some j
    else v.resolve i names = some j

section Namex

theorem Vol.resolve_cons (v : Vol) (i : Nat) (name : Name) (names : List Name) :
    v.resolve i (name :: names) = (v.lookup i name).bind fun j => v.resolve j names := by
  unfold resolve
  rw [foldlM_cons]
  rfl

/-- The last component. -/
theorem Vol.resolve_concat (v : Vol) {init : List Name} (h : v.resolve i init = some j)
    (name : Name) : v.resolve i (init ++ [name]) = v.lookup j name := by
  unfold resolve at h ⊢
  rw [foldlM_append, h]
  show (v.lookup j name >>= pure) = _
  rw [bind_pure]

theorem Vol.Dirs.resolve_lt (hD : v.Dirs sb) (names : List Name) :
    ∀ {i j}, i < sb.ninodes → v.resolve i names = some j → j < sb.ninodes := by
  induction names with
  | nil =>
    intro i j hi h
    obtain rfl : i = j := some.inj h
    exact hi
  | cons name names ih =>
    intro i j hi h
    rw [resolve_cons] at h
    obtain ⟨l, hl, h⟩ := bind_eq_some_iff.mp h
    exact ih (hD.lookup hi hl).lt h

/-- One component of the way is behind us. -/
theorem Vol.Ends.cons {names : List Name} (hj : v.lookup i name = some j) (hne : parent = true → names ≠ [])
    {r : Option (Nat × Name)} (h : v.Ends sb j names parent r v') :
    v.Ends sb i (name :: names) parent r v' := by
  have hcons : ∀ l, v.resolve i (name :: l) = v.resolve j l := by
    intro l
    rw [resolve_cons, hj]
    rfl
  cases r with
  | none =>
    obtain ⟨hok, hT, h⟩ := h
    refine ⟨hok, hT, ?_⟩
    cases parent with
    | false => rwa [if_neg Bool.false_ne_true, hcons] at *
    | true =>
      rw [if_pos rfl] at h ⊢
      right
      rw [dropLast_cons_of_ne_nil (hne rfl), hcons]
      exact h.resolve_left (hne rfl)
  | some r =>
    obtain ⟨l, hat, h⟩ := h
    refine ⟨l, hat, ?_⟩
    cases parent with
    | false => rwa [if_neg Bool.false_ne_true, hcons] at *
    | true =>
      grind

/-- The way ends here. -/
theorem Vol.Ends.fail {names : List Name} (hok : v'.Ok sb)
    (hT : Took v v.locks 0 v') (hnone : v.lookup i name = none)
    (hdir : parent = true → names ≠ [] ∨ (v.ino i).type ≠ T_DIR) :
    v.Ends sb i (name :: names) parent none v' := by
  refine ⟨hok, hT, ?_⟩
  cases parent with
  | false =>
    rw [if_neg Bool.false_ne_true, resolve_cons, hnone]
    rfl
  | true =>
    rw [if_pos rfl]
    right
    intro j hj
    cases names with
    | nil =>
      obtain rfl : i = j := some.inj hj
      exact (hdir rfl).resolve_left fun h => h rfl
    | cons name' names =>
      rw [dropLast_cons_of_ne_nil (cons_ne_nil _ _), resolve_cons, hnone] at hj
      cases hj

theorem Vol.wp_iunlockput (hk : k < NINODE) (href : 1 ≤ (v.slot k).ref) (hlock : v.locks k = true)
    (hlive : 2 ≤ (v.slot k).ref ∨ (v.ino (v.inum k)).nlink ≠ 0)
    (h : ∀ v', v'.Ok sb → Took v (update v.locks k false) (Pi.single k (-1)) v' →
      (f ()).wp (spec sb g) Q v') :
    (iunlockput k >>= f).wp (spec sb g) Q v := by
  rw [iunlockput, Prog.bind_assoc]
  refine Vol.wp_iunlock hk href hlock ?_
  intro v1 hv1 hT1
  have href1 : (v1.slot k).ref = (v.slot k).ref := by rw [hT1.ref, Pi.zero_apply, Int.add_zero]
  refine wp_iput hv1 hk (by rw [href1]; exact href) ?_ ?_
  · rw [href1, hT1.ino, hT1.inum k href]
    exact hlive
  · intro v2 hv2 hT2
    refine h v2 hv2 ?_
    have hT := hT1.trans hT2 fun _ => Int.le_refl _
    rwa [zero_add, hT1.locked] at hT

/-- The reference is given back. -/
theorem point_add_single (k : Nat) (loc : Nat → Int) : point (some k) + loc + Pi.single k (-1) = loc := by
  funext j
  by_cases hj : j = k
  · subst hj
    simp [point]
  · simp [point, hj]

/-- Locking the inode the lookup is at. -/
theorem Vol.At.wp_ilock (hA : v.At sb i k v1) (hR : v.Ready sb)
    (h : ∀ v2, v2.Ok sb → Took v (update v.locks k true) (point (some k)) v2 → v2.Held k →
      v2.inum k = i → (v2.slot k).din = v.ino i → (f ()).wp (spec sb g) Q v2) :
    (ilock k >>= f).wp (spec sb g) Q v1 := by
  have hT := hA.took
  have href : 1 ≤ (v1.slot k).ref := by
    have h0 := hR.nonneg k hA.lt
    have h1 := hT.ref k
    rw [point_self] at h1
    omega
  refine Vol.wp_ilock hA.lt href ?_ ?_ ?_ ?_
  · rw [hT.locked]
    exact hR.free k hA.lt
  · rw [hT.ino, hA.inum]
    exact hA.type
  · rw [hT.lh]
    exact fun _ => hR.lh
  · intro v2 hv2 hT2 hk2 hdin
    have hT' := hT.trans hT2 (point_nonneg _)
    rw [add_zero, hT.locked] at hT'
    refine h v2 hv2 hT' hk2 ?_ ?_
    · rw [hT2.inum k href, hA.inum]
    · rw [hdin, hA.inum, hT.ino]

/-- Leaving it, perhaps with a reference to another one. -/
theorem Vol.At.wp_iunlockput {v3 : Vol} (hA : v.At sb i k v1) (hR : v.Ready sb) (hloc : ∀ j, 0 ≤ loc j)
    (hT : Took v (update v.locks k true) (point (some k) + loc) v3) (hi : v3.inum k = i)
    (h : ∀ v', v'.Ok sb → Took v v.locks loc v' → Took v3 v.locks (Pi.single k (-1)) v' →
      (f ()).wp (spec sb g) Q v') :
    (iunlockput k >>= f).wp (spec sb g) Q v3 := by
  have hlocks : update v3.locks k false = v.locks := by
    rw [hT.locked, update_idem, ← hR.free k hA.lt, update_eq_self]
  have h0 := hR.nonneg k hA.lt
  have h1 := hT.ref k
  rw [Pi.add_apply, point_self] at h1
  have h2 := hloc k
  refine Vol.wp_iunlockput hA.lt (by omega) ?_ ?_ ?_
  · rw [hT.locked, update_self]
  · rw [hT.ino, hi]
    exact hA.live.imp (fun h => by omega) id
  · intro v' hv' hT'
    rw [hlocks] at hT'
    refine h v' hv' ?_ hT'
    have hsum := hT.trans hT' fun j => add_nonneg (point_nonneg _ j) (hloc j)
    rwa [point_add_single] at hsum

/-- The end of the path, for both of `namex`'s callers. -/
theorem namex_end (hA : v.At sb i k v1) (hR : v.Ready sb) (parent : Bool) :
    (if parent then do iput k; pure none else pure (some (k, [])) : Up (Option (Nat × Name))).wp
      (spec sb g) (v.Ends sb i [] parent) v1 := by
  cases parent with
  | false => exact ⟨i, hA, rfl⟩
  | true =>
    have href := hA.took.ref k
    rw [point_self] at href
    have h0 := hR.nonneg k hA.lt
    refine wp_iput hA.ok hA.lt (by omega) ?_ ?_
    · rw [hA.inum, hA.took.ino]
      exact hA.live.imp (fun h => by omega) id
    · intro v' hv' hT
      refine ⟨hv', ?_, .inl rfl⟩
      have h := hA.took.trans hT (point_nonneg _)
      have hsum := point_add_single k 0
      rw [add_zero] at hsum
      rwa [hsum, hA.took.locked] at h

/-- **The loop of `namex`** ends where it should, and does so if and only if the inode cache has room. -/
theorem namexFrom_spec (hR : v.Ready sb) (parent : Bool) (fuel : Nat) :
    ∀ {i k v1 path}, v.At sb i k v1 → path.length ≤ fuel →
      (g.bad (.panic "iget: no inodes") → v.Walks v.used i (trail parent (components path))) →
      (namexFrom parent fuel k path).wp (spec sb g) (fun r v' => v.Ends sb i (components path) parent r v' ∧
          v.Walks v.used i (trail parent (components path))) v1 := by
  have hnil : ∀ i, v.Walks v.used i (trail parent []) := by
    intro i
    unfold trail
    split <;> exact trivial
  induction fuel with
  | zero =>
    intro i k v1 path hA hlen _
    obtain rfl := length_eq_zero_iff.mp (Nat.le_zero.mp hlen)
    exact wp_mono (namex_end hA hR parent) fun _ _ h => ⟨h, hnil i⟩
  | succ fuel ih =>
    intro i k v1 path hA hlen hwalk
    rw [namexFrom]
    cases hskip : skipelem path with
    | none =>
      rw [skipelem_nil.mp hskip]
      exact wp_mono (namex_end hA hR parent) fun _ _ h => ⟨h, hnil i⟩
    | some nr =>
      obtain ⟨name, rest⟩ := nr
      obtain ⟨hcomp, hlast, hshort⟩ := skipelem_cons hskip
      rw [hcomp] at hwalk ⊢
      refine hA.wp_ilock hR ?_
      intro v2 hv2 hT2 hk2 hi2 hdin
      refine wp_inode ?_
      have htype : (v2.slot k).fields.type = (v.ino i).type := congrArg Dinode.type hdin
      rw [htype]
      have hT2' : Took v (update v.locks k true) (point (some k) + 0) v2 := by
        rwa [add_zero]
      -- where nothing is found, nothing more is asked of the cache
      have hstuck : v.lookup i name = none → v.Walks v.used i (trail parent (name :: components rest)) := by
        intro hnone
        by_cases hlast : parent = true ∧ components rest = []
        · rw [hlast.1, hlast.2]
          exact trivial
        · rw [trail_cons fun hp hnil => hlast ⟨hp, hnil⟩]
          intro j hj
          rw [hnone] at hj
          cases hj
      by_cases ht : (v.ino i).type ≠ T_DIR
      · -- not a directory
        have hnone : v.lookup i name = none := if_neg ht
        rw [if_pos ht]
        refine hA.wp_iunlockput hR (fun _ => Int.le_refl _) hT2' hi2 ?_
        intro v' hv' hT' _
        exact ⟨.fail hv' hT' hnone fun _ => .inr ht, hstuck hnone⟩
      · rw [if_neg ht]
        have ht : (v.ino i).type = T_DIR := not_not.mp ht
        have hlookup : v.lookup i name = (v.find i name).map (v.deInum i) := if_pos ht
        have hmem : v2.Dirs sb := hT2.dirs (point_nonneg _) hR.dirs
        cases hstop : parent && rest.isEmpty with
        | true =>
          -- stop one level early
          obtain ⟨rfl, hrest⟩ := Bool.and_eq_true_iff.mp hstop
          obtain rfl := isEmpty_iff.mp hrest
          rw [if_pos rfl]
          refine Vol.wp_iunlock hk2.lt hk2.ref hk2.locked ?_
          intro v' hv' hT'
          have hback := hT2.trans hT' (point_nonneg _)
          rw [add_zero, hT2.locked, update_idem, ← hR.free k hA.lt, update_eq_self] at hback
          rw [hlast.mp rfl]
          refine ⟨⟨i, ⟨hv', hback, hA.lt, ?_, hA.type, hA.live⟩, ?_⟩, trivial⟩
          · rw [hT'.inum k hk2.ref, hi2]
          · rw [if_pos rfl]
            exact ⟨ht, [], rfl, rfl⟩
        | false =>
          rw [if_neg Bool.false_ne_true]
          have hne : parent = true → components rest ≠ [] := by
            rintro rfl hnil
            obtain rfl := hlast.mpr hnil
            cases hstop
          rw [trail_cons hne] at hwalk hstuck ⊢
          have hfind2 : v2.find i name = v.find i name := by
            unfold Vol.find Vol.deInum Vol.deName
            rw [hT2.ino, hT2.byte]
          have hnum2 : v2.deInum = v.deInum := by
            unfold Vol.deInum
            rw [hT2.byte]
          -- the inode the walk has come to takes an entry
          have hgets : ∀ j, (v2.mem.iget j).isSome ↔ Gets (insert i v.used) j := by
            intro j
            rw [hv2.iget_iff (hT2.nonneg hR.nonneg (point_nonneg _)),
              hT2.used_point hA.lt (hR.nonneg k hA.lt), hi2]
          refine wp_seq (dirlookup_spec hv2 hmem hk2 (by rw [hT2.ino, hi2, ht])
            (by rw [hT2.lh]; exact fun _ => hR.lh) name fun hb e he => ?_) ?_
          · rw [hi2, hfind2] at he
            rw [hi2, hnum2, hgets]
            exact (hwalk hb _ (by rw [hlookup, he]; rfl)).1
          rw [hi2, hfind2]
          intro r v3 hfound
          cases r with
          | none =>
            obtain ⟨hfind, rfl⟩ := hfound
            refine hA.wp_iunlockput hR (fun _ => Int.le_refl _) hT2' hi2 ?_
            intro v' hv' hT' _
            have hnone : v.lookup i name = none := by rw [hlookup, hfind]; rfl
            exact ⟨.fail hv' hT' hnone fun hp => .inl (hne hp), hstuck hnone⟩
          | some r =>
            obtain ⟨next, off⟩ := r
            obtain ⟨e, hfind, -, hnext, hv3, hinum, hT3, hsome⟩ := hfound
            rw [hi2, hnum2] at hinum hsome
            have hj : v.lookup i name = some (v.deInum i e) := by rw [hlookup, hfind]; rfl
            have hnamed := hR.dirs.lookup (hi2 ▸ hv2.slots.inum k hk2.lt hk2.ref) hj
            have hT3' := hT2.trans hT3 (point_nonneg _)
            rw [hT2.locked] at hT3'
            refine hA.wp_iunlockput hR (point_nonneg _) hT3' (by rw [hT3.inum k hk2.ref, hi2]) ?_
            intro v4 hv4 hT4 hstep
            have href : 1 ≤ (v3.slot next).ref := by grind [Ready, Took, point_self]
            have hA4 := hnamed.at hv4 hT4 (hR.nonneg next hnext) hnext (by rw [hstep.inum next href, hinum])
            refine wp_mono (ih hA4 (by omega) fun hb => (hwalk hb _ hj).2) ?_
            rintro r v' ⟨h, hrest⟩
            refine ⟨h.cons hj hne, ?_⟩
            intro j' hj'
            obtain rfl := some.inj (hj.symm.trans hj')
            exact ⟨(hgets _).mp hsome, hrest⟩

/-- Where a path begins: at the root, or at the caller's current directory. -/
def Vol.start (v : Vol) (p : Nat) (path : List UInt8) : Option Nat :=
  if path.head? = some 47 then some ROOTINO else (v.mem.tabs.proc p).cwd.map v.inum

/-- Current directories are referenced, and they are there. -/
def Vol.Cwds (v : Vol) : Prop := ∀ p c, (v.mem.tabs.proc p).cwd = some c →
  c < NINODE ∧ 1 ≤ (v.slot c).ref ∧ (v.ino (v.inum c)).type ≠ 0

theorem Vol.Ready.start_lt (hR : v.Ready sb) (hcwd : v.Cwds) (h : v.start p path = some i) :
    i < sb.ninodes := by
  unfold start at h
  split at h
  · obtain rfl := some.inj h
    exact hR.dirs.root.lt
  · obtain ⟨c, hc, rfl⟩ := map_eq_some_iff.mp h
    obtain ⟨hlt, href, -⟩ := hcwd p c hc
    exact hR.ok.slots.inum c hlt href

/-- The inode cache has room for a walk along a path, when the inodes `U` are in use. -/
structure Vol.Finds (v : Vol) (U : Finset Nat) (p : Nat) (path : List UInt8) (parent : Bool) : Prop where
  root : path.head? = some 47 → Gets U ROOTINO
  walk : ∀ i, v.start p path = some i → v.Walks U i (trail parent (components path))

theorem Vol.finds_of_card {U : Finset Nat} (h : U.card + 1 < NINODE) : v.Finds U p path parent :=
  ⟨fun _ => .inr (by omega), fun i _ => walks_of_card h _ i⟩

/-- **`namex`** ends where it should, if the inode cache has room, and only then. -/
theorem namex_spec (hR : v.Ready sb) (hcwd : v.Cwds) (hstart : v.start p path = some i) (parent : Bool)
    (hroom : g.bad (.panic "iget: no inodes") → v.Finds v.used p path parent) :
    (namex p path parent).wp (spec sb g)
      (fun r v' => v.Ends sb i (components path) parent r v' ∧ v.Finds v.used p path parent) v := by
  have hwalk := fun hb => (hroom hb).walk i hstart
  have hfinds : (path.head? = some 47 → Gets v.used ROOTINO) →
      v.Walks v.used i (trail parent (components path)) → v.Finds v.used p path parent := by
    grind [Finds]
  unfold namex
  unfold start at hstart
  by_cases habs : path.head? = some 47
  · rw [if_pos habs] at hstart ⊢
    obtain rfl := some.inj hstart
    have hgets := hR.ok.iget_iff hR.nonneg ROOTINO
    refine Vol.wp_iget hR.dirs.root.lt (fun hb => hgets.mpr ((hroom hb).root habs)) ?_
    intro hsome k v1 hk hv1 hT hi
    refine wp_mono (namexFrom_spec hR parent _ (hR.dirs.root.at hv1 hT (hR.nonneg k hk) hk hi) le_rfl
      hwalk) ?_
    exact fun r v' h => ⟨h.1, hfinds (fun _ => hgets.mp hsome) h.2⟩
  · rw [if_neg habs] at hstart ⊢
    obtain ⟨c, hc, rfl⟩ := map_eq_some_iff.mp hstart
    obtain ⟨hlt, href, htype⟩ := hcwd p c hc
    refine ⟨trivial, ?_⟩
    rintro t v1 ⟨⟨rfl, rfl⟩, -⟩
    dsimp only [Prog.bind]
    rw [hc]
    refine wp_idup hlt href ?_
    intro v1 hv1 hT
    refine wp_mono (namexFrom_spec hR parent _ ⟨hv1, hT, hlt, hT.inum c href, htype, .inl href⟩ le_rfl
      hwalk) ?_
    exact fun r v' h => ⟨h.1, hfinds (fun h => absurd h habs) h.2⟩

theorem namei_spec (hR : v.Ready sb) (hcwd : v.Cwds) (hstart : v.start p path = some i)
    (hroom : g.bad (.panic "iget: no inodes") → v.Finds v.used p path false) :
    (namei p path).wp (spec sb g) (fun r v' => v.Finds v.used p path false ∧ match r with
      | none => v.resolve i (components path) = none
      | some k => ∃ j, v.At sb j k v' ∧ v.resolve i (components path) = some j) v := by
  refine wp_seq (namex_spec hR hcwd hstart false hroom) ?_
  rintro r v' ⟨hends, hfinds⟩
  cases r with
  | none => exact ⟨hfinds, hends.2.2⟩
  | some kn => exact ⟨hfinds, hends⟩

end Namex

end Xv6
