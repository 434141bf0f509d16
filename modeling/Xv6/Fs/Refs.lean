/-
  CHANGING ONE REFERENCE: what the inode table refers to after an address is stored.

  An address goes to one of three kinds of place — a direct slot, the slot of the indirect block, an
  entry of the indirect block — and in each case exactly one reference is added: `refers_setAddr`,
  `refers_setEntry`.  An inode whose addresses are all dropped refers to nothing: `refers_reset`.
  The kernel's `bmap` and `itrunc` and `mkfs`'s `iappend` all work by these steps.
-/
import Xv6.Fs.Layout

namespace Xv6

open Function Bytes Owner

/-- Store an address in the inode. -/
def Dinode.setAddr (x : Dinode) (p b : Nat) : Dinode :=
  { x with addrs := update x.addrs p b }

@[simp] theorem Dinode.setAddr_self (x : Dinode) (p b : Nat) : (x.setAddr p b).addrs p = b := by
  simp [Dinode.setAddr]

theorem Dinode.setAddr_ne (x : Dinode) {p q : Nat} (b : Nat) (h : q ≠ p) :
    (x.setAddr p b).addrs q = x.addrs q := by
  simp [Dinode.setAddr, h]

/-- An indirect block without entries. -/
def NoEntries (d : Block) : Prop := ∀ j, j < NINDIRECT → le32 d (4 * j) = 0

theorem noEntries_zero : NoEntries fun _ => 0 := fun _ _ => rfl

section Inode

variable {blk : Nat → Block} {x : Dinode} {p q b : Nat}

theorem Dinode.Ok.setAddr (h : x.Ok) (hp : p ≤ NDIRECT) (hb : b < 4294967296) : (x.setAddr p b).Ok := by
  refine ⟨h.type, h.nlink, h.size, fun j => ?_, fun j hj => ?_, h.mode, h.perm⟩
  · show update x.addrs p b j < _
    rw [update_apply]
    split
    · exact hb
    · exact h.addrs j
  · show update x.addrs p b j = 0
    rw [update_of_ne (by omega)]
    exact h.last j hj

/-- The places of an inode after one address slot is set. -/
theorem addrAt_setAddr (hp : p ≤ NDIRECT) (h0 : x.addrs p = 0)
    (hz : p = NDIRECT → NoEntries (blk b)) (hq : q < NPLACE) :
    addrAt blk (x.setAddr p b) q = if q = p then b else addrAt blk x q := by
  unfold addrAt Dinode.setAddr
  by_cases hqd : q ≤ NDIRECT
  · simp only [if_pos hqd, update_apply]
  · have hqp : q ≠ p := by omega
    simp only [if_neg hqd, if_neg hqp]
    by_cases hpi : p = NDIRECT
    · subst hpi
      have hj : q - (NDIRECT + 1) < NINDIRECT := by unfold NPLACE at hq; omega
      simp only [update_self, h0, if_true, hz rfl _ hj, ite_self]
    · simp only [update_of_ne (Ne.symm hpi)]

/-- The places of an inode after one entry of its indirect block is set. -/
theorem addrAt_setEntry {j : Nat} (hind : x.addrs NDIRECT ≠ 0) (hb : b < 4294967296) :
    addrAt (update blk (x.addrs NDIRECT) (put32 (blk (x.addrs NDIRECT)) (4 * j) b)) x q =
      if q = NDIRECT + 1 + j then b else addrAt blk x q := by
  unfold addrAt
  by_cases hqd : q ≤ NDIRECT
  · simp only [if_pos hqd, if_neg (show q ≠ NDIRECT + 1 + j by omega)]
  · grind [le32_put32, le32_put32_ne]

end Inode

section Table

variable {sb : Superblock} {D : Nat → Dinode} {blk blk' : Nat → Block} {i p b : Nat} {used X : Nat → Prop}

theorem refers_setAddr (hi : i < sb.ninodes) (ht : (D i).type ≠ 0) (hp : p ≤ NDIRECT)
    (h0 : (D i).addrs p = 0) (hb : b ≠ 0) (hz : p = NDIRECT → NoEntries (blk b))
    (ip : Nat × Nat) (c : Nat) :
    Refers sb (update D i ((D i).setAddr p b)) blk ip c ↔ Refers sb D blk ip c ∨ ip = (i, p) ∧ c = b := by
  obtain ⟨j, q⟩ := ip
  by_cases hj : j = i
  · subst hj
    have hD : update D j ((D j).setAddr p b) j = (D j).setAddr p b :=
      update_self ..
    have hold : addrAt blk (D j) p = 0 := (addrAt_direct hp).trans h0
    constructor
    · rintro ⟨-, -, hq, ha, hne⟩
      rw [hD] at ha
      dsimp only at hq ha
      rw [addrAt_setAddr hp h0 hz hq] at ha
      split at ha
      · next hqp => exact .inr ⟨by rw [hqp], ha.symm⟩
      · exact .inl ⟨hi, ht, hq, ha, hne⟩
    · rintro (⟨-, -, hq, ha, hne⟩ | ⟨he, rfl⟩)
      · dsimp only at hq ha
        refine ⟨hi, by rw [hD]; exact ht, hq, ?_, hne⟩
        rw [hD, addrAt_setAddr hp h0 hz hq, if_neg]
        · exact ha
        · rintro rfl
          exact hne (ha.symm.trans hold)
      · obtain ⟨-, rfl⟩ := Prod.mk.inj he
        have hq : q < NPLACE := by unfold NPLACE; omega
        refine ⟨hi, by rw [hD]; exact ht, hq, ?_, hb⟩
        rw [hD, addrAt_setAddr hp h0 hz hq, if_pos rfl]
  · have hD : update D i ((D i).setAddr p b) j = D j := update_of_ne hj ..
    constructor
    · rintro ⟨h1, h2, h3, h4, h5⟩
      rw [hD] at h2 h4
      exact .inl ⟨h1, h2, h3, h4, h5⟩
    · grind [Refers]

/-- One more entry in the indirect block of inode `i`, which is no other inode's. -/
theorem refers_setEntry {j : Nat} (hi : i < sb.ninodes) (ht : (D i).type ≠ 0)
    (hind : (D i).addrs NDIRECT ≠ 0)
    (hown : ∀ l, Refers sb D blk (l, NDIRECT) ((D i).addrs NDIRECT) → l = i)
    (hj : j < NINDIRECT) (h0 : addrAt blk (D i) (NDIRECT + 1 + j) = 0) (hb : b ≠ 0)
    (hsmall : b < 4294967296) (ip : Nat × Nat) (c : Nat) :
    Refers sb D (update blk ((D i).addrs NDIRECT) (put32 (blk ((D i).addrs NDIRECT)) (4 * j) b)) ip c ↔
      Refers sb D blk ip c ∨ ip = (i, NDIRECT + 1 + j) ∧ c = b := by
  obtain ⟨l, q⟩ := ip
  by_cases hl : l = i
  · subst hl
    have hset := @addrAt_setEntry blk (D l) q b j hind hsmall
    constructor
    · rintro ⟨-, -, hq, ha, hne⟩
      rw [hset] at ha
      split at ha
      · next hqp => exact .inr ⟨by rw [hqp], ha.symm⟩
      · exact .inl ⟨hi, ht, hq, ha, hne⟩
    · grind [Refers, NPLACE]
  · -- another inode's indirect block is not the one that changed
    have hsame : ∀ {q}, l < sb.ninodes → (D l).type ≠ 0 → addrAt (update blk
        ((D i).addrs NDIRECT) (put32 (blk ((D i).addrs NDIRECT)) (4 * j) b)) (D l) q =
        addrAt blk (D l) q := by
      intro q hl' ht'
      refine addrAt_congr fun hx => update_of_ne (fun he => hl (hown l ?_)) ..
      rw [← he]
      exact refers_indirect hl' ht' hx
    constructor
    · rintro ⟨h1, h2, h3, h4, h5⟩
      rw [hsame h1 h2] at h4
      exact .inl ⟨h1, h2, h3, h4, h5⟩
    · grind [Refers]

/-- An inode without addresses refers to nothing. -/
theorem refers_reset {y : Dinode} (hy : ∀ p, y.addrs p = 0) (ip : Nat × Nat) (c : Nat) :
    Refers sb (update D i y) blk ip c ↔ Refers sb D blk ip c ∧ ip.1 ≠ i := by
  obtain ⟨j, q⟩ := ip
  by_cases hj : j = i
  · subst hj
    refine ⟨fun h => absurd ?_ h.ne, fun h => absurd rfl h.2⟩
    have ha := h.addr
    dsimp only at ha
    rw [update_self, addrAt, hy, hy] at ha
    simpa using ha.symm
  · have hD : update D i y j = D j := update_of_ne hj ..
    constructor
    · rintro ⟨h1, h2, h3, h4, h5⟩
      rw [hD] at h2 h4
      exact ⟨⟨h1, h2, h3, h4, h5⟩, hj⟩
    · grind [Refers]

/-- The indirect block of an inode belongs to it alone. -/
theorem indirect_own {used X : Nat → Prop} (h : Owned used (Refers sb D blk) X)
    (hi : i < sb.ninodes) (ht : (D i).type ≠ 0) (hind : (D i).addrs NDIRECT ≠ 0) (l : Nat)
    (hl : Refers sb D blk (l, NDIRECT) ((D i).addrs NDIRECT)) : l = i :=
  (Prod.mk.inj (h.inj hl (refers_indirect hi ht hind))).1

end Table

/-! ## Mapping a block of a file -/

/-- The inode has an indirect block, and everything else about its places is as it was. -/
structure WithIndirect (blk : Nat → Block) (x x' : Dinode) : Prop where
  fields : x' = { x with addrs := x'.addrs }
  ne : x'.addrs NDIRECT ≠ 0
  kept : ∀ p, p < NPLACE → p ≠ NDIRECT → addrAt blk x' p = addrAt blk x p
  indirect : x.addrs NDIRECT ≠ 0 → x'.addrs NDIRECT = x.addrs NDIRECT

/-- Block `bn` of the inode is block `a` of the disk, and everything else about its places is as it
    was — but for the indirect block, if there was none and one is needed. -/
structure Mapped (blk blk' : Nat → Block) (x x' : Dinode) (bn a : Nat) : Prop where
  fields : x' = { x with addrs := x'.addrs }
  addr : addrAt blk' x' (place bn) = a
  ne : a ≠ 0
  old : addrAt blk x (place bn) ≠ 0 → a = addrAt blk x (place bn)
  kept : ∀ p, p < NPLACE → p ≠ place bn → p ≠ NDIRECT → addrAt blk' x' p = addrAt blk x p
  indirect : x.addrs NDIRECT ≠ 0 → x'.addrs NDIRECT = x.addrs NDIRECT
  indirect_iff : x'.addrs NDIRECT ≠ 0 ↔ x.addrs NDIRECT ≠ 0 ∨ NDIRECT ≤ bn

section Mapping

variable {blk : Nat → Block} {x x' : Dinode} {bn b : Nat}

theorem withIndirect_refl (h : x.addrs NDIRECT ≠ 0) : WithIndirect blk x x :=
  ⟨rfl, h, fun _ _ _ => rfl, fun _ => rfl⟩

theorem withIndirect_set (h0 : x.addrs NDIRECT = 0) (hb : b ≠ 0) (hz : NoEntries (blk b)) :
    WithIndirect blk x (x.setAddr NDIRECT b) := by
  refine ⟨rfl, by rw [Dinode.setAddr_self]; exact hb, fun p hp hne => ?_, fun h => absurd h0 h⟩
  rw [addrAt_setAddr le_rfl h0 (fun _ => hz) hp, if_neg hne]

/-- The other references stay. -/
theorem WithIndirect.refers {sb : Superblock} {D : Nat → Dinode} {i : Nat}
    (hw : WithIndirect blk (D i) x') {ip : Nat × Nat} {c : Nat} (hne : ip ≠ (i, NDIRECT))
    (hr : Refers sb D blk ip c) : Refers sb (update D i x') blk ip c := by
  obtain ⟨j, p⟩ := ip
  obtain ⟨h1, h2, h3, h4, h5⟩ := hr
  by_cases hj : j = i
  · grind [WithIndirect, Refers]
  · exact ⟨h1, by rw [update_of_ne hj]; exact h2, h3,
      by rw [update_of_ne hj]; exact h4, h5⟩

theorem place_direct (h : bn < NDIRECT) : place bn = bn := if_pos h

theorem place_indirect (h : ¬ bn < NDIRECT) : place bn = NDIRECT + 1 + (bn - NDIRECT) := by
  rw [place, if_neg h]
  omega

/-- A direct block that is already there. -/
theorem mapped_direct (h : bn < NDIRECT) (hx : x.addrs bn ≠ 0) : Mapped blk blk x x bn (x.addrs bn) := by
  have ha : addrAt blk x (place bn) = x.addrs bn := by
    rw [place_direct h, addrAt_direct (Nat.le_of_lt h)]
  refine ⟨rfl, ha, hx, fun _ => ha.symm, fun _ _ _ _ => rfl, fun _ => rfl, ?_⟩
  constructor
  · exact .inl
  · rintro (h' | h')
    · exact h'
    · omega

/-- A new direct block. -/
theorem mapped_setAddr (h : bn < NDIRECT) (h0 : x.addrs bn = 0) (hb : b ≠ 0) :
    Mapped blk blk x (x.setAddr bn b) bn b := by
  have hpl := place_direct h
  have hset : ∀ {p}, p < NPLACE → addrAt blk (x.setAddr bn b) p = if p = bn then b else
      addrAt blk x p := fun hp =>
    addrAt_setAddr (Nat.le_of_lt h) h0 (fun he => absurd he (Nat.ne_of_lt h)) hp
  have hlt : bn < NPLACE := by unfold NPLACE; omega
  have hind : (x.setAddr bn b).addrs NDIRECT = x.addrs NDIRECT :=
    x.setAddr_ne b (Nat.ne_of_gt h)
  refine ⟨rfl, ?_, hb, fun hx => absurd ?_ hx, fun p hp hne _ => ?_, fun _ => hind, ?_⟩
  · rw [hpl, hset hlt, if_pos rfl]
  · rw [hpl, addrAt_direct (Nat.le_of_lt h), h0]
  · rw [hset hp, if_neg (hpl ▸ hne)]
  · rw [hind]
    constructor
    · exact .inl
    · rintro (h' | h')
      · exact h'
      · omega

/-- An entry of the indirect block that is already there. -/
theorem WithIndirect.mapped (hw : WithIndirect blk x x') (h : ¬ bn < NDIRECT) (hm : bn < MAXFILE)
    (hx : addrAt blk x' (place bn) ≠ 0) : Mapped blk blk x x' bn (addrAt blk x' (place bn)) := by
  obtain ⟨hlt, hne⟩ := place_lt hm
  refine ⟨hw.fields, rfl, hx, fun _ => hw.kept _ hlt hne, fun p hp _ hn => hw.kept p hp hn, hw.indirect, ?_⟩
  exact ⟨fun _ => .inr (not_lt.mp h), fun _ => hw.ne⟩

/-- A new entry of the indirect block. -/
theorem WithIndirect.mapped_setEntry (hw : WithIndirect blk x x') (h : ¬ bn < NDIRECT)
    (hm : bn < MAXFILE) (h0 : addrAt blk x' (place bn) = 0) (hb : b ≠ 0) (hs : b < 4294967296) :
    Mapped blk (update blk (x'.addrs NDIRECT)
      (put32 (blk (x'.addrs NDIRECT)) (4 * (bn - NDIRECT)) b)) x x' bn b := by
  obtain ⟨hlt, hne⟩ := place_lt hm
  have hpl := place_indirect h
  refine ⟨hw.fields, ?_, hb, fun hx => absurd ?_ hx, fun p hp hpb hn => ?_, hw.indirect, ?_⟩
  · rw [addrAt_setEntry hw.ne hs, if_pos hpl]
  · rw [← hw.kept _ hlt hne, h0]
  · rw [addrAt_setEntry hw.ne hs, if_neg (hpl ▸ hpb), hw.kept p hp hn]
  · exact ⟨fun _ => .inr (not_lt.mp h), fun _ => hw.ne⟩

/-- Nothing but the indirect block matters. -/
theorem Mapped.congr {blk1 blk2 : Nat → Block} (h : Mapped blk blk1 x x' bn b)
    (hb : x'.addrs NDIRECT ≠ 0 → blk2 (x'.addrs NDIRECT) = blk1 (x'.addrs NDIRECT)) :
    Mapped blk blk2 x x' bn b := by
  refine ⟨h.fields, ?_, h.ne, h.old, fun p hp hne hn => ?_, h.indirect, h.indirect_iff⟩
  · rw [addrAt_congr hb, h.addr]
  · rw [addrAt_congr hb, h.kept p hp hne hn]

end Mapping

end Xv6
