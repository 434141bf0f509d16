/-
  DIRECTORY TREES.

  `Vol.Entry` says that a directory has an inode under a name, `.` and `..` left out; it is all that
  `chperm` sees of the tree.  Its transitive closure `Vol.Sub` is the SUBTREE below an inode, and `Below`
  goes down the same way and keeps the path string that a rule for joining names makes of it.

  A directory finds its entries by their names (`lookup_entry`), so that the path of a child, as `chperm`
  builds it, leads to the child as long as it FITS (`childPath_names`).
-/
import Mathlib.Logic.Relation
import Xv6.Fs.ChildPath

namespace Xv6

open Bytes List

variable {d : Bytes} {q : List UInt8} {n : Name} {e i j k p : Nat} {sb : Superblock} {v : Vol}

/-! ## Names -/

/-- Two strings that `strncmp` takes to be equal. -/
theorem strncmpFrom_eq_zero (p q : Bytes) (n : Nat) :
    ∀ {i}, strncmpFrom p q i n = 0 ↔ chars p i n = chars q i n := by
  induction n with
  | zero => intro i; exact iff_of_true rfl rfl
  | succ n ih =>
    intro i
    rw [strncmpFrom, chars_succ, chars_succ]
    by_cases hboth : p i ≠ 0 ∧ p i = q i
    · grind
    · rw [if_neg hboth]
      have hdiff : ((p i).toNat : Int) - (q i).toNat = 0 ↔ p i = q i := by
        rw [Int.sub_eq_zero, Int.natCast_inj, UInt8.toNat_inj]
      rw [hdiff]
      by_cases hp : p i = 0
      · grind
      · grind

theorem nameOf_congr {d' : Bytes} (h : ∀ o, o < DIRSIZ → d o = d' o) : nameOf d = nameOf d' := by
  refine chars_congr fun i hi => ?_
  rw [Nat.zero_add]
  exact h i hi

/-- `strncmp(de.name, name, DIRSIZ) == 0`. -/
theorem strncmp_name {name : Name} (h0 : ∀ c ∈ name, c ≠ 0) (hlen : name.length ≤ DIRSIZ) :
    strncmp d (ofList name) DIRSIZ = 0 ↔ nameOf d = name := by
  unfold strncmp nameOf
  rw [strncmpFrom_eq_zero, chars_ofList h0 hlen]

/-- `namecmp(name, de.name) == 0`. -/
theorem namecmp_name {name : Name} (h0 : ∀ c ∈ name, c ≠ 0) (hlen : name.length ≤ DIRSIZ) :
    namecmp (ofList name) d = 0 ↔ nameOf d = name := by
  unfold namecmp strncmp nameOf
  rw [strncmpFrom_eq_zero, chars_ofList h0 hlen, eq_comm]

/-! ## Entries -/

namespace Vol

section Defs

variable (v : Vol) (sb : Superblock)

/-- The name of entry `e` of the directory `d`. -/
def entryName (d e : Nat) : Name := nameOf (v.deName d e)

/-- Entry `e` of the directory `d` is in use, and it is neither `.` nor `..`. -/
structure Live (d e : Nat) : Prop where
  mem : e ∈ entries (v.ino d).size
  used : v.deInum d e ≠ 0
  dot : v.entryName d e ≠ [46]
  dotdot : v.entryName d e ≠ [46, 46]

/-- The directory `d` has `j` under the name `n`. -/
def Entry (d : Nat) (n : Name) (j : Nat) : Prop :=
  d < sb.ninodes ∧ (v.ino d).type = T_DIR ∧ ∃ e, v.Live d e ∧ v.entryName d e = n ∧ v.deInum d e = j

/-- Directory `d` has an entry for `j`. -/
def Child (d j : Nat) : Prop := ∃ n, v.Entry sb d n j

/-- The subtree below an inode, with the inode itself. -/
def Sub : Nat → Nat → Prop := Relation.ReflTransGen (v.Child sb)

/-- A tree of directories: names are names, no directory has one twice, and no way leads back.  (Other
    files may have several names.) -/
structure Tree : Prop where
  ne : ∀ d n j, v.Entry sb d n j → n ≠ []
  slash : ∀ d n j, v.Entry sb d n j → ∀ c ∈ n, c ≠ 47
  uniq : ∀ d e e', d < sb.ninodes → (v.ino d).type = T_DIR → e ∈ entries (v.ino d).size →
    e' ∈ entries (v.ino d).size → v.deInum d e ≠ 0 → v.deInum d e' ≠ 0 →
    v.entryName d e = v.entryName d e' → e = e'
  acyclic : ∀ i, ¬ Relation.TransGen (v.Child sb) i i

/-- The inode that a path names for a process. -/
def names (p : Nat) (path : List UInt8) : Option Nat :=
  (v.start p path).bind fun i => v.resolve i (components path)

end Defs

variable {d : Nat}

theorem entryName_ne_zero : ∀ c ∈ v.entryName d e, c ≠ 0 := chars_ne_zero

theorem length_entryName : (v.entryName d e).length ≤ DIRSIZ := length_chars_le ..

/-- The names of an entry, as far as `strncmp` sees them. -/
theorem Entry.name (h : v.Entry sb d n j) : (∀ c ∈ n, c ≠ 0) ∧ n.length ≤ DIRSIZ := by
  obtain ⟨-, -, e, -, rfl, -⟩ := h
  exact ⟨entryName_ne_zero, length_entryName⟩

/-- **A directory finds its entries.** -/
theorem lookup_entry (hT : v.Tree sb) (h : v.Entry sb d n j) : v.lookup d n = some j := by
  obtain ⟨h0, hlen⟩ := h.name
  obtain ⟨hd, ht, e, hlive, hn, rfl⟩ := h
  unfold lookup
  rw [if_pos ht]
  have hfound : (v.find d n).isSome := by
    unfold find
    rw [find?_isSome]
    refine ⟨e, hlive.mem, ?_⟩
    have hcmp : namecmp (ofList n) (v.deName d e) = 0 := (namecmp_name h0 hlen).mpr hn
    rw [hcmp]
    simpa using hlive.used
  obtain ⟨e', he'⟩ := Option.isSome_iff_exists.mp hfound
  obtain ⟨hmem, hused⟩ := find_some he'
  have hcmp : namecmp (ofList n) (v.deName d e') = 0 := by
    have := find?_some he'
    simp only [Bool.and_eq_true, beq_iff_eq] at this
    exact this.2
  have hname : v.entryName d e' = n := (namecmp_name h0 hlen).mp hcmp
  obtain rfl := hT.uniq d e e' hd ht hlive.mem hmem hlive.used hused (hn.trans hname.symm)
  rw [he']
  rfl

/-- No directory is its own child. -/
theorem Tree.ne_self (hT : v.Tree sb) (h : v.Entry sb d n j) : j ≠ d := by
  rintro rfl
  exact hT.acyclic j (.single ⟨n, h⟩)

end Vol

/-! ## The way down -/

/-- `j` with the path string `q` is below `i` with the path string `path`: a name is joined at every
    step. -/
inductive Below (E : Nat → Name → Nat → Prop) (join : List UInt8 → Name → List UInt8) (i : Nat)
    (path : List UInt8) : Nat → List UInt8 → Prop
  | self : Below E join i path i path
  | child {d j : Nat} {q : List UInt8} {n : Name} (h : Below E join i path d q) (he : E d n j) :
      Below E join i path j (join q n)

/-- The way down goes on from where it led. -/
theorem Below.trans {E : Nat → Name → Nat → Prop} {join : List UInt8 → Name → List UInt8}
    {path r : List UInt8} (h : Below E join i path j q) (h' : Below E join j q k r) :
    Below E join i path k r := by
  induction h' with
  | self => exact h
  | child _ he ih => exact .child ih he

/-- The path of a child, as the code joins it. -/
def built (q : List UInt8) (n : Name) : List UInt8 := withSlash q ++ n.take (roomAfter q)

/-- The path of a child, as one would write it. -/
def slashed (q : List UInt8) (n : Name) : List UInt8 := q ++ 47 :: n

theorem withSlash_cases (hq : q ≠ []) :
    (∃ a, withSlash q = a ++ [47] ∧ components a = components q) ∧ (withSlash q).head? = q.head? := by
  unfold withSlash
  split
  · next hlast =>
    obtain ⟨a, rfl⟩ := getLast?_eq_some_iff.mp hlast
    refine ⟨⟨a, rfl, ?_⟩, rfl⟩
    rw [components_append a []]
    exact (append_nil _).symm
  · refine ⟨⟨q, rfl, rfl⟩, ?_⟩
    rw [head?_append_of_ne_nil _ hq]

namespace Vol

variable {d : Nat}

/-- A path in two parts. -/
theorem resolve_append (v : Vol) (i : Nat) (l l' : List Name) :
    v.resolve i (l ++ l') = (v.resolve i l).bind fun j => v.resolve j l' := by
  unfold resolve
  rw [foldlM_append]
  rfl

theorem start_head {q' : List UInt8} (h : q'.head? = q.head?) : v.start p q' = v.start p q := by
  unfold start
  rw [h]

/-- Where the path of a child leads. -/
theorem names_built (hd : v.names p q = some d) (hq : q ≠ []) {w : Name} (hw : ∀ c ∈ w, c ≠ 47)
    (hlen : w.length ≤ DIRSIZ) :
    v.names p (withSlash q ++ w) = if w = [] then some d else v.lookup d w := by
  obtain ⟨⟨a, ha, hcomp⟩, hhead⟩ := withSlash_cases hq
  have hne : withSlash q ≠ [] := by
    rw [ha]
    simp
  unfold names at hd ⊢
  rw [start_head (q := q) (by rw [head?_append_of_ne_nil _ hne, hhead])]
  obtain ⟨i, hi, hd⟩ := Option.bind_eq_some_iff.mp hd
  rw [hi, Option.bind_some, ha, append_assoc, singleton_append, components_append, hcomp,
    resolve_append, hd, Option.bind_some]
  split
  · next h =>
    rw [h]
    rfl
  · next h =>
    rw [components_word h hw, take_of_length_le hlen, resolve_cons]
    cases v.lookup d w <;> rfl

/-- The path of the child fits: there is room for a part of the name at least, the name is not read past
    its end, and what there is room for names the same inode. -/
structure Fits (v : Vol) (q : List UInt8) (d : Nat) (n : Name) (j : Nat) : Prop where
  ne : q ≠ []
  len : (withSlash q).length < MAXPATH
  read : n.length < DIRSIZ ∨ roomAfter q ≤ DIRSIZ
  name : n.take (roomAfter q) ≠ []
  same : v.lookup d (n.take (roomAfter q)) = some j

/-- **The path that `chperm` builds leads to the child exactly if it fits.** -/
theorem childPath_names (hT : v.Tree sb) (he : v.Entry sb d n j) (hd : v.names p q = some d) {name : Bytes}
    (hn : nameOf name = n) :
    (∃ c, Up.childPath q name = some c ∧ v.names p c = some j) ↔ v.Fits q d n j := by
  have hslash : ∀ c ∈ n.take (roomAfter q), c ≠ 47 := fun c hc =>
    hT.slash d n j he c (mem_of_mem_take hc)
  have hlen : (n.take (roomAfter q)).length ≤ DIRSIZ :=
    le_trans (length_take_le' ..) he.name.2
  constructor
  · rintro ⟨c, hc, hnames⟩
    rw [childPath_iff, hn] at hc
    obtain ⟨hq, hshort, hread, rfl⟩ := hc
    rw [names_built hd hq hslash hlen] at hnames
    split at hnames
    · exact absurd (Option.some.inj hnames).symm (hT.ne_self he)
    · next hne => exact ⟨hq, hshort, hread, hne, hnames⟩
  · rintro ⟨hq, hshort, hread, hne, hsame⟩
    refine ⟨built q n, childPath_iff.mpr ⟨hq, hshort, by rwa [hn], by rw [hn]; rfl⟩, ?_⟩
    unfold built
    rw [names_built hd hq hslash hlen, if_neg hne, hsame]

/-- With short names and a short path everything fits. -/
theorem fits_of_short (hT : v.Tree sb) (he : v.Entry sb d n j) (hq : q ≠ []) (hn : n.length < DIRSIZ)
    (hlen : q.length + 1 + n.length < MAXPATH) : v.Fits q d n j := by
  have hslash : (withSlash q).length ≤ q.length + 1 := by
    unfold withSlash
    split
    · omega
    · rw [length_append, length_singleton]
  have hwhole : n.take (roomAfter q) = n := by
    refine take_of_length_le ?_
    unfold roomAfter
    omega
  refine ⟨hq, by omega, .inl hn, ?_, ?_⟩
  · rw [hwhole]
    exact hT.ne d n j he
  · rw [hwhole]
    exact lookup_entry hT he

/-- The subtree below a directory. -/
theorem sub_iff : v.Sub sb i k ↔ k = i ∨ ∃ n j, v.Entry sb i n j ∧ v.Sub sb j k := by
  constructor
  · intro h
    rcases Relation.ReflTransGen.cases_head h with rfl | ⟨j, ⟨n, he⟩, h⟩
    · exact .inl rfl
    · exact .inr ⟨n, j, he, h⟩
  · rintro (rfl | ⟨n, j, he, h⟩)
    · exact .refl
    · exact .head ⟨n, he⟩ h

/-! ## What the tree is made of -/

/-- The two volumes have the same directories. -/
structure SameShape (v v' : Vol) : Prop where
  type : ∀ i, (v'.ino i).type = (v.ino i).type
  size : ∀ i, (v'.ino i).size = (v.ino i).size
  nlink : ∀ i, (v'.ino i).nlink = (v.ino i).nlink
  byte : v'.byte = v.byte

namespace SameShape

variable {v' : Vol} (h : v.SameShape v')
include h

theorem symm : v'.SameShape v :=
  ⟨fun i => (h.type i).symm, fun i => (h.size i).symm, fun i => (h.nlink i).symm, h.byte.symm⟩

theorem lookup : v'.lookup = v.lookup := by
  funext i name
  unfold Vol.lookup Vol.find Vol.deInum Vol.deName
  rw [h.type, h.size, h.byte]

theorem resolve (i : Nat) (l : List Name) : v'.resolve i l = v.resolve i l := by
  unfold Vol.resolve
  rw [h.lookup]

theorem dirs (hused : v.used ⊆ v'.used) (hD : v.Dirs sb) : v'.Dirs sb := by
  have hnamed : ∀ {i}, v.Named sb i → v'.Named sb i := by grind [SameShape, Named]
  refine ⟨hnamed hD.root, ?_, ?_⟩
  · intro i hi ht
    rw [h.type] at ht
    rw [h.size]
    exact hD.whole i hi ht
  · grind [SameShape, Dirs, Vol.deInum]

theorem entryName : v'.entryName = v.entryName := by
  funext d e
  unfold Vol.entryName Vol.deName
  rw [h.byte]

theorem deInum : v'.deInum = v.deInum := by
  funext d e
  unfold Vol.deInum
  rw [h.byte]

theorem live : v'.Live = v.Live := by
  funext d e
  refine propext ⟨?_, ?_⟩
  · rintro ⟨h1, h2, h3, h4⟩
    rw [h.size] at h1
    rw [h.deInum] at h2
    rw [h.entryName] at h3 h4
    exact ⟨h1, h2, h3, h4⟩
  · rintro ⟨h1, h2, h3, h4⟩
    refine ⟨?_, ?_, ?_, ?_⟩
    · rwa [h.size]
    · rwa [h.deInum]
    · rwa [h.entryName]
    · rwa [h.entryName]

theorem entry : v'.Entry sb = v.Entry sb := by
  funext d n j
  unfold Vol.Entry
  rw [h.type, h.live, h.entryName, h.deInum]

theorem child : v'.Child sb = v.Child sb := by
  unfold Vol.Child
  rw [h.entry]

theorem sub : v'.Sub sb = v.Sub sb := by
  unfold Vol.Sub
  rw [h.child]

theorem tree (hT : v.Tree sb) : v'.Tree sb := by
  refine ⟨?_, ?_, ?_, ?_⟩
  · rw [h.entry]
    exact hT.ne
  · rw [h.entry]
    exact hT.slash
  · intro d e e'
    rw [h.type, h.size, h.deInum, h.entryName]
    exact hT.uniq d e e'
  · rw [h.child]
    exact hT.acyclic

theorem fits (hf : v.Fits q d n j) : v'.Fits q d n j :=
  ⟨hf.ne, hf.len, hf.read, hf.name, by rw [h.lookup]; exact hf.same⟩

end SameShape

end Vol

end Xv6
