/-
  `namei` AND `nameiparent` ON THE KERNEL.

  `Kern.vol` is the volume that the next `bread`s of a kernel state find: what a path names is read off
  it.  In a state at rest (`AtRest`) a lookup comes back with the inode that the fold of the lookups
  gives, one reference to it and no other (`namei_resolves`).  It fails in one way only: `iget` panics
  when all entries of the inode cache are in use, as it may happen to any path (`namei_full_cache`).
-/
import Xv6.Fs.Path
import Xv6.Fs.Crowd

namespace Xv6

open Prog Bytes Tally Kern Crowd

/-! ## Kernel states -/

/-- The volume that the next `bread`s of a kernel state find. -/
def Kern.vol (sb : Superblock) (s : Kern) : Vol where
  ino := s.dinode sb
  addr i p := addrAt s.mach.view (s.dinode sb i) p
  byte := s.byteAt sb
  torn _ := False
  mem := s.mem
  out := s.mach.log.outstanding
  lh := s.mach.log.lh.length
  free := freeBlocks sb s.mach.view

section Agree

variable {sb : Superblock} {v v' : Vol}

theorem find?_ext {p q : Nat → Bool} {l : List Nat} (h : ∀ e ∈ l, p e = q e) : l.find? p = l.find? q := by
  induction l with
  | nil => rfl
  | cons e l ih =>
    grind

/-- The same directory read twice. -/
theorem Vol.find_congr {i : Nat} (hino : v'.ino i = v.ino i) (hwhole : (v.ino i).size % DIRENT = 0)
    (hbyte : ∀ o, o < (v.ino i).size → v'.byte i o = v.byte i o) :
    v'.find i = v.find i ∧ ∀ e ∈ entries (v.ino i).size, v'.deInum i e = v.deInum i e := by
  have hin : ∀ e ∈ entries (v.ino i).size, ∀ o, o < DIRENT → DIRENT * e + o < (v.ino i).size := by
    intro e he o ho
    have he := List.mem_range.mp he
    have hD : DIRENT = 16 := rfl
    rw [hD] at he ho hwhole ⊢
    omega
  have hnum : ∀ e ∈ entries (v.ino i).size, v'.deInum i e = v.deInum i e := fun e he =>
    le16_congr (hbyte _ (hin e he 0 (by decide))) (hbyte _ (hin e he 1 (by decide)))
  refine ⟨?_, hnum⟩
  funext name
  unfold Vol.find
  rw [hino]
  refine find?_ext fun e he => ?_
  rw [hnum e he]
  congr 2
  refine strncmpFrom_congr _ fun j hj => ?_
  have hj : j < 14 := by rwa [Nat.zero_add] at hj
  show v'.byte i (DIRENT * e + 2 + j) = v.byte i (DIRENT * e + 2 + j)
  rw [Nat.add_assoc]
  exact hbyte _ (hin e he _ (by show 2 + j < 16; omega))

/-- Two volumes with the same inodes, the same directories and the same inode cache. -/
structure Vol.Agree (sb : Superblock) (v v' : Vol) : Prop where
  mem : v'.mem = v.mem
  ino : ∀ i, i < sb.ninodes → v'.ino i = v.ino i
  dir : ∀ i, i < sb.ninodes → (v.ino i).type = T_DIR → ∀ o, o < (v.ino i).size → v'.byte i o = v.byte i o

section

variable (h : v.Agree sb v')
include h

theorem Vol.Agree.symm : v'.Agree sb v := by
  refine ⟨h.mem.symm, fun i hi => (h.ino i hi).symm, fun i hi ht o ho => ?_⟩
  rw [h.ino i hi] at ht ho
  exact (h.dir i hi ht o ho).symm

theorem Vol.Agree.used : v'.used = v.used := by
  unfold Vol.used Vol.slot Vol.inum
  rw [h.mem]

theorem Vol.Agree.named {i : Nat} (hi : v.Named sb i) : v'.Named sb i := by
  obtain ⟨hlt, ht, hn⟩ := hi
  rw [← h.ino i hlt] at ht hn
  rw [← h.used] at hn
  exact ⟨hlt, ht, hn⟩

theorem Vol.Agree.dirs (hD : v.Dirs sb) : v'.Dirs sb := by
  refine ⟨h.named hD.root, ?_, ?_⟩
  · intro i hi ht
    rw [h.ino i hi] at ht ⊢
    exact hD.whole i hi ht
  · intro i e hi ht he hne
    rw [h.ino i hi] at ht he
    have hnum := (Vol.find_congr (h.ino i hi) (hD.whole i hi ht) (h.dir i hi ht)).2 e he
    rw [hnum] at hne ⊢
    exact h.named (hD.entry i e hi ht he hne)

theorem Vol.Agree.lookup (hD : v.Dirs sb) {i : Nat} (hi : i < sb.ninodes) (name : Name) :
    v'.lookup i name = v.lookup i name := by
  unfold Vol.lookup
  rw [h.ino i hi]
  split
  · next ht =>
    obtain ⟨hfind, hnum⟩ := Vol.find_congr (h.ino i hi) (hD.whole i hi ht) (h.dir i hi ht)
    rw [hfind]
    cases hf : v.find i name with
    | none => rfl
    | some e => exact congrArg some (hnum e (Vol.find_some hf).1)
  · rfl

theorem Vol.Agree.resolve (hD : v.Dirs sb) (names : List Name) :
    ∀ {i}, i < sb.ninodes → v'.resolve i names = v.resolve i names := by
  induction names with
  | nil => intro i _; rfl
  | cons name names ih =>
    intro i hi
    rw [Vol.resolve_cons, Vol.resolve_cons, h.lookup hD hi]
    cases hj : v.lookup i name with
    | none => rfl
    | some j => exact ih (hD.lookup hi hj).lt

end

end Agree

namespace Kern

variable (sb : Superblock) (s : Kern)

/-- What the state shows is what its caches and its disk say. -/
theorem Shows.agree {sb : Superblock} {s : Kern} {v : Vol} (hsb : sb.Wf) (h : s.Shows sb v) :
    (s.vol sb).Agree sb v := by
  refine ⟨h.mem.symm, fun i hi => (h.dinode hsb hi).symm, ?_⟩
  intro i hi ht o ho
  have ht : (v.ino i).type = T_DIR := by rw [← h.dinode hsb hi]; exact ht
  have ho : o < (v.ino i).size := by rw [← h.dinode hsb hi]; exact ho
  exact (h.byteAt hsb hi (by rw [ht]; decide) ho fun htorn => h.ok.torn i htorn ht).symm

/-- A file system at rest: nothing is locked, the counts are counts, and what is named or referred to is
    allocated. -/
structure AtRest : Prop where
  shows : ∃ v, s.Shows sb v
  dirs : (s.vol sb).Dirs sb
  free : ∀ k, k < NINODE → (s.mem.icache k).locked = false
  nonneg : ∀ k, k < NINODE → 0 ≤ (s.mem.icache k).ref
  cwds : (s.vol sb).Cwds

/-- Two entries of the inode cache are not in use. -/
def Spare : Prop := ∃ a b, a < NINODE ∧ b < NINODE ∧ a ≠ b ∧
  (s.mem.icache a).ref = 0 ∧ (s.mem.icache b).ref = 0

/-- `namei`, run to its end. -/
def namei (p : Nat) (path : List UInt8) : Except Err (Option Nat × Kern) :=
  (Up.namei p path).run (I := Inodes) (icall sb) s

def nameiparent (p : Nat) (path : List UInt8) : Except Err (Option (Nat × Name) × Kern) :=
  (Up.nameiparent p path).run (I := Inodes) (icall sb) s

/-- From `s` to `s'` one reference was taken, to the entry `r` if there is one, and nothing else: no
    entry in use was given to another inode, nothing is locked, and tables and inodes are as before. -/
structure Took (r : Option Nat) (s' : Kern) : Prop where
  ref : ∀ k, (s'.mem.icache k).ref = (s.mem.icache k).ref + if r = some k then 1 else 0
  inum : ∀ k, 1 ≤ (s.mem.icache k).ref → (s'.mem.icache k).inum = (s.mem.icache k).inum
  free : ∀ k, k < NINODE → (s'.mem.icache k).locked = false
  tabs : s'.mem.tabs = s.mem.tabs
  dinode : ∀ i, i < sb.ninodes → s'.dinode sb i = s.dinode sb i

/-- The call comes back as `P` says, or the inode cache was full. -/
def Returns {α : Type} (x : Except Err (α × Kern)) (P : α → Kern → Prop) : Prop :=
  match x with
  | .ok (r, s') => P r s'
  | .error e => e = .panic "iget: no inodes"

variable {sb s}

/-- Two entries that are not in use. -/
theorem Spare.card (h : s.Spare) : (s.vol sb).used.card + 1 < NINODE := by
  obtain ⟨a, b, ha, hb, hab, ha0, hb0⟩ := h
  have hsub : ((Finset.range NINODE).filter fun k => 1 ≤ ((s.vol sb).slot k).ref) ⊆
      ((Finset.range NINODE).erase a).erase b := by
    intro k hk
    obtain ⟨hlt, href⟩ := Finset.mem_filter.mp hk
    have href : 1 ≤ (s.mem.icache k).ref := href
    refine Finset.mem_erase.mpr ⟨?_, Finset.mem_erase.mpr ⟨?_, hlt⟩⟩ <;> rintro rfl <;> omega
  have hle : (s.vol sb).used.card ≤ _ := Finset.card_image_le.trans (Finset.card_le_card hsub)
  rw [Finset.card_erase_of_mem (Finset.mem_erase.mpr ⟨hab.symm, Finset.mem_range.mpr hb⟩),
    Finset.card_erase_of_mem (Finset.mem_range.mpr ha), Finset.card_range] at hle
  have hN : NINODE = 50 := rfl
  omega

theorem AtRest.ready (hsb : sb.Wf) (hs : s.AtRest sb) :
    ∃ v, s.Shows sb v ∧ v.mem = s.mem ∧ v.Ready sb ∧ v.Cwds := by
  obtain ⟨v0, hv0⟩ := hs.shows
  obtain ⟨n, hn, hv⟩ := hv0.tight
  have hmem := hv.mem
  have hA := hv.agree hsb
  refine ⟨_, hv, hmem.symm, ⟨hv.ok, hA.dirs hs.dirs, ?_, ?_, hn⟩, ?_⟩
  · intro k hk
    have h := hs.free k hk
    rw [hmem] at h
    exact h
  · intro k hk
    have h := hs.nonneg k hk
    rw [hmem] at h
    exact h
  · intro p c hc
    obtain ⟨hlt, href, ht⟩ := hs.cwds p c (show (s.mem.tabs.proc p).cwd = some c by rw [hmem]; exact hc)
    have href : 1 ≤ (v0.mem.icache c).ref := by
      have href : 1 ≤ (s.mem.icache c).ref := href
      rwa [hmem] at href
    refine ⟨hlt, href, ?_⟩
    have ht : (s.dinode sb (s.mem.icache c).inum).type ≠ 0 := ht
    rw [hmem, hv.dinode hsb (hv.ok.slots.inum c hlt href)] at ht
    exact ht

/-- **A kernel that boots from a sound disk is at rest**, if the directories on the disk are in order. -/
theorem boot_atRest {d : Nat → Block} {mem : Mem} (hsb : sb.Wf) (hd : Sound sb d)
    (hmem : Slots sb (inodeAt sb d) none mem) (hD : (diskVol sb d mem).Dirs sb)
    (hfree : ∀ k, k < NINODE → (mem.icache k).locked = false)
    (hnonneg : ∀ k, k < NINODE → 0 ≤ (mem.icache k).ref) (hcwd : (diskVol sb d mem).Cwds) (me : Nat) :
    ∃ m, initlog (bootMach me d) sb.logstart sb.nlog = .ok m ∧ m.log.outstanding = 0 ∧
      AtRest sb ⟨m, mem⟩ ∧ (diskVol sb d mem).Agree sb (vol sb ⟨m, mem⟩) := by
  obtain ⟨m, hm, hv⟩ := boot_shows hsb hd hmem me
  have hA := (hv.agree hsb).symm
  refine ⟨m, hm, hv.exact.1, ⟨⟨_, hv⟩, hA.dirs hD, hfree, hnonneg, ?_⟩, hA⟩
  intro p c hc
  obtain ⟨hlt, href, ht⟩ := hcwd p c hc
  refine ⟨hlt, href, ?_⟩
  have hino := hA.ino (mem.icache c).inum (hmem.inum c hlt href)
  show ((vol sb ⟨m, mem⟩).ino (mem.icache c).inum).type ≠ 0
  rw [hino]
  exact ht

/-- Where `namex` ended, read off the kernel. -/
def Ends (sb : Superblock) (s : Kern) (i : Nat) (names : List Name) (parent : Bool)
    (r : Option (Nat × Name)) (s' : Kern) : Prop :=
  s.Took sb (r.map Prod.fst) s' ∧
  match r with
  | none =>
    if parent then names = [] ∨
      ∀ j, (s.vol sb).resolve i names.dropLast = some j → ((s.vol sb).ino j).type ≠ T_DIR
    else (s.vol sb).resolve i names = none
  | some (k, name) =>
    if parent then ((s.vol sb).ino (s'.mem.icache k).inum).type = T_DIR ∧
      ∃ init, names = init ++ [name] ∧ (s.vol sb).resolve i init = some (s'.mem.icache k).inum
    else (s.vol sb).resolve i names = some (s'.mem.icache k).inum

theorem Took.of_shows (hsb : sb.Wf) {v v' : Vol} {s' : Kern} (hv : s.Shows sb v) (hv' : s'.Shows sb v')
    (hfree : ∀ k, k < NINODE → v.locks k = false) {r : Option Nat}
    (hT : Xv6.Took v v.locks (point r) v') : s.Took sb r s' := by
  have hm := hv.mem
  have hm' := hv'.mem
  refine ⟨?_, ?_, ?_, ?_, ?_⟩
  · intro k
    rw [hm, hm', ← point_eq]
    exact hT.ref k
  · intro k hk
    rw [hm] at hk ⊢
    rw [hm']
    exact hT.inum k hk
  · intro k hk
    rw [hm']
    exact (congrFun hT.locked k).trans (hfree k hk)
  · rw [hm, hm']
    exact hT.tabs
  · intro i hi
    rw [hv.dinode hsb hi, hv'.dinode hsb hi, hT.ino]

theorem AtRest.namex (hsb : sb.Wf) (hs : s.AtRest sb) (ok : Err → Prop)
    (hok : ¬ ok (.panic "iget: no inodes") → s.Spare) {p i : Nat} {path : List UInt8}
    (hi : (s.vol sb).start p path = some i) (parent : Bool) :
    match (Up.namex p path parent).run (icall sb) s with
    | .ok (r, s') => s.Ends sb i (components path) parent r s'
    | .error e => ok e := by
  obtain ⟨v, hv, hmem, hR, hcwd⟩ := hs.ready hsb
  have hA := hv.agree hsb
  have hD := hR.dirs
  have hstart : v.start p path = some i := by
    unfold Vol.start at hi ⊢
    rw [hmem]
    unfold Vol.inum
    rw [hmem]
    exact hi
  have hlt : i < sb.ninodes := hR.start_lt hcwd hstart
  have hroom : (Goal.but ok).bad (.panic "iget: no inodes") → v.Finds v.used p path parent := by
    intro hb
    rw [hA.used]
    exact Vol.finds_of_card (hok hb).card
  have hrun := hv.run hsb trivial id (namex_spec hR hcwd hstart parent hroom)
  cases hr : (Up.namex p path parent).run (icall sb) s with
  | error e =>
    rw [hr] at hrun
    exact not_not.mp hrun
  | ok rs =>
    obtain ⟨r, s'⟩ := rs
    rw [hr] at hrun
    obtain ⟨v', ⟨hends, -⟩, hv'⟩ := hrun
    have hres : ∀ names, (s.vol sb).resolve i names = v.resolve i names := fun names =>
      (hA.symm.resolve hD names hlt)
    have hino : ∀ j, j < sb.ninodes → (s.vol sb).ino j = v.ino j := hA.symm.ino
    cases r with
    | none =>
      obtain ⟨-, hT, hend⟩ := hends
      refine ⟨.of_shows hsb hv hv' hR.free hT, ?_⟩
      dsimp only
      cases parent with
      | false =>
        rw [if_neg Bool.false_ne_true] at hend ⊢
        rw [hres, hend]
      | true =>
        rw [if_pos rfl] at hend ⊢
        refine hend.imp id fun h j hj => ?_
        rw [hres] at hj
        rw [hino j (hD.resolve_lt _ hlt hj)]
        exact h j hj
    | some kn =>
      obtain ⟨k, name⟩ := kn
      obtain ⟨j, hat, hend⟩ := hends
      have hj : (s'.mem.icache k).inum = j := by
        rw [hv'.mem]
        exact hat.inum
      refine ⟨.of_shows hsb hv hv' hR.free hat.took, ?_⟩
      dsimp only
      rw [hj]
      cases parent with
      | false =>
        rw [if_neg Bool.false_ne_true] at hend ⊢
        rw [hres, hend]
      | true =>
        rw [if_pos rfl] at hend ⊢
        obtain ⟨ht, init, hinit, hr⟩ := hend
        rw [hino j (hD.resolve_lt _ hlt hr)]
        exact ⟨ht, init, hinit, by rw [hres, hr]⟩

/-- `namei` is `namex` without the name. -/
theorem namei_eq (p : Nat) (path : List UInt8) : s.namei sb p path =
    match (Up.namex p path false).run (icall sb) s with
    | .ok (r, s') => .ok (r.map Prod.fst, s')
    | .error e => .error e := by
  refine (run_bind (icall sb) (Up.namex p path false) _ s).trans ?_
  cases (Up.namex p path false).run (icall sb) s <;> rfl

end Kern

/-- The kernel with the file of `OneFile` open. -/
theorem OneFile.atRest : ∃ m, initlog (bootMach 1 (disk 1 1)) mkfsSb.logstart mkfsSb.nlog = .ok m ∧
    m.log.outstanding = 0 ∧ Kern.AtRest mkfsSb ⟨m, openMem 1 1 0⟩ ∧
    (diskVol mkfsSb (disk 1 1) (openMem 1 1 0)).Agree mkfsSb (vol mkfsSb ⟨m, openMem 1 1 0⟩) := by
  have hfree : ∀ k, k < NINODE → ((openMem 1 1 0).icache k).locked = false ∧
      0 ≤ ((openMem 1 1 0).icache k).ref := by decide
  have hcwd : (diskVol mkfsSb (disk 1 1) (openMem 1 1 0)).Cwds := by
    intro p c hc
    have hc : (if p = 0 then (⟨.running, none, fun fd => if fd = 0 then some 0 else none, some 0⟩ : Proc)
        else ⟨.unused, none, fun _ => none, none⟩).cwd = some c := hc
    obtain rfl : c = 0 := by
      split at hc
      · exact (Option.some.inj hc).symm
      · cases hc
    refine ⟨by decide, by decide, ?_⟩
    show (inodeAt mkfsSb (disk 1 1) 1).type ≠ 0
    rw [inodeAt_disk (by decide) (by decide), if_pos rfl]
    decide
  exact boot_atRest mkfsSb_wf (sound (by decide) (by decide) covers_one) (open_slots (by decide))
    (dirs (by decide)) (fun k hk => (hfree k hk).1) (fun k hk => (hfree k hk).2) hcwd 1

/-- The kernel with all entries of the inode cache in use. -/
theorem Crowd.atRest : ∃ m, initlog (bootMach 1 disk) mkfsSb.logstart mkfsSb.nlog = .ok m ∧
    m.log.outstanding = 0 ∧ Kern.AtRest mkfsSb ⟨m, mem⟩ ∧
    (diskVol mkfsSb disk mem).Agree mkfsSb (vol mkfsSb ⟨m, mem⟩) :=
  boot_atRest mkfsSb_wf disk_sound slots dirs (fun k _ => (taken k).2.1)
    (fun k _ => Int.le_of_lt (taken k).1) cwds 1

/-- **Path resolution is component-wise lookup.**  In a file system at rest, where the path begins at
    inode `i`: `namei` returns the inode that the fold of the lookups gives; `nameiparent` returns the
    directory that the fold over all but the last component gives, with the last component, and then
    `namei`'s inode is what that directory has under that name; and one reference was taken, to what is
    returned.  The one failure is a full inode cache, and two entries that are not in use exclude it. -/
theorem namei_resolves {sb : Superblock} (hsb : sb.Wf) {s : Kern} (hs : s.AtRest sb) {p i : Nat}
    {path : List UInt8} (hi : (s.vol sb).start p path = some i) :
    Kern.Returns (s.namei sb p path) (fun r s' => s.Took sb r s' ∧
      r.map (fun k => (s'.mem.icache k).inum) = (s.vol sb).resolve i (components path)) ∧
    Kern.Returns (s.nameiparent sb p path) (fun r s' => s.Took sb (r.map Prod.fst) s' ∧
      (components path = [] → r = none) ∧
      ∀ init name, components path = init ++ [name] →
        ((∃ j, (s.vol sb).resolve i init = some j ∧ (s.dinode sb j).type = T_DIR) ↔ r ≠ none) ∧
        ∀ k name', r = some (k, name') → name' = name ∧
          (s.vol sb).resolve i init = some (s'.mem.icache k).inum ∧
          (s.vol sb).resolve i (components path) = (s.vol sb).lookup (s'.mem.icache k).inum name) ∧
    (s.Spare → (∃ x, s.namei sb p path = .ok x) ∧ ∃ x, s.nameiparent sb p path = .ok x) := by
  refine ⟨?_, ?_, ?_⟩
  · have h := hs.namex hsb (fun e => e = .panic "iget: no inodes") (fun h => absurd rfl h) hi false
    rw [namei_eq]
    cases hr : (Up.namex p path false).run (icall sb) s with
    | error e =>
      rw [hr] at h
      exact h
    | ok rs =>
      obtain ⟨r, s'⟩ := rs
      rw [hr] at h
      obtain ⟨hT, hend⟩ := h
      refine ⟨hT, ?_⟩
      cases r with
      | none => exact hend.symm
      | some kn => exact hend.symm
  · have h := hs.namex hsb (fun e => e = .panic "iget: no inodes") (fun h => absurd rfl h) hi true
    unfold nameiparent Up.nameiparent
    cases hr : (Up.namex p path true).run (icall sb) s with
    | error e =>
      rw [hr] at h
      exact h
    | ok rs =>
      obtain ⟨r, s'⟩ := rs
      rw [hr] at h
      obtain ⟨hT, hend⟩ := h
      refine ⟨hT, ?_, ?_⟩
      · intro hnil
        cases r with
        | none => rfl
        | some kn =>
          obtain ⟨-, init, hinit, -⟩ := hend
          rw [hnil] at hinit
          simp at hinit
      · intro init name hcomp
        rw [hcomp] at hend ⊢
        cases r with
        | none =>
          have hend := hend.resolve_left (by simp)
          rw [List.dropLast_concat] at hend
          refine ⟨iff_of_false ?_ fun h => h rfl, fun k name' h => by cases h⟩
          rintro ⟨j, hj, ht⟩
          exact hend j hj ht
        | some kn =>
          obtain ⟨k, last⟩ := kn
          obtain ⟨ht, init', hinit, hres⟩ := hend
          obtain ⟨rfl, hlast⟩ := List.append_inj' hinit rfl
          obtain rfl : name = last := List.singleton_inj.mp hlast
          refine ⟨iff_of_true ⟨_, hres, ht⟩ (Option.some_ne_none _), ?_⟩
          intro k' name' h
          cases h
          exact ⟨rfl, hres, (s.vol sb).resolve_concat hres name⟩
  · intro hspare
    have hall : ∀ parent, ∃ x, (Up.namex p path parent).run (icall sb) s = .ok x := by
      intro parent
      have h := hs.namex hsb (fun _ => False) (fun _ => hspare) hi parent
      cases hr : (Up.namex p path parent).run (icall sb) s with
      | error e =>
        rw [hr] at h
        exact h.elim
      | ok rs => exact ⟨rs, rfl⟩
    refine ⟨?_, hall true⟩
    obtain ⟨⟨r, s'⟩, hr⟩ := hall false
    rw [namei_eq, hr]
    exact ⟨_, rfl⟩

/-- The disk with one file: `/a` names inode 2. -/
theorem namei_resolves_file : ∃ m,
    initlog (bootMach 1 (OneFile.disk 1 1)) mkfsSb.logstart mkfsSb.nlog = .ok m ∧
    ∃ k s', Kern.namei mkfsSb ⟨m, OneFile.openMem 1 1 0⟩ 0 [47, 97] = .ok (some k, s') ∧
      (s'.mem.icache k).inum = 2 := by
  obtain ⟨m, hm, -, hs, hA⟩ := OneFile.atRest
  have hres : (vol mkfsSb ⟨m, OneFile.openMem 1 1 0⟩).resolve ROOTINO (components [47, 97]) = some 2 := by
    rw [hA.resolve (OneFile.dirs (by decide)) _ (by decide)]
    decide +kernel
  have hstart : (vol mkfsSb ⟨m, OneFile.openMem 1 1 0⟩).start 0 [47, 97] = some ROOTINO := rfl
  obtain ⟨hnamei, -, hspare⟩ := namei_resolves mkfsSb_wf hs hstart
  obtain ⟨⟨⟨r, s'⟩, hr⟩, -⟩ := hspare ⟨2, 3, by decide, by decide, by decide, rfl, rfl⟩
  rw [hr] at hnamei
  obtain ⟨-, hr'⟩ := hnamei
  rw [hres] at hr'
  obtain ⟨k, rfl, hk⟩ := Option.map_eq_some_iff.mp hr'
  exact ⟨m, hm, k, s', hr, hk⟩

/-- With all entries of the inode cache in use, `/a` names inode 2 and cannot be looked up. -/
theorem namei_full_cache : ∃ m, initlog (bootMach 1 Crowd.disk) mkfsSb.logstart mkfsSb.nlog = .ok m ∧
    Kern.AtRest mkfsSb ⟨m, Crowd.mem⟩ ∧
    (Kern.vol mkfsSb ⟨m, Crowd.mem⟩).resolve ROOTINO (components [47, 97]) = some 2 ∧
    Kern.namei mkfsSb ⟨m, Crowd.mem⟩ 0 [47, 97] = .error (.panic "iget: no inodes") := by
  obtain ⟨m, hm, -, hs, hA⟩ := atRest
  have hres : (vol mkfsSb ⟨m, mem⟩).resolve ROOTINO (components [47, 97]) = some 2 := by
    rw [hA.resolve dirs _ (by decide)]
    decide +kernel
  refine ⟨m, hm, hs, hres, ?_⟩
  have hstart : (vol mkfsSb ⟨m, mem⟩).start 0 [47, 97] = some ROOTINO := rfl
  have h := hs.namex mkfsSb_wf (fun e => e = .panic "iget: no inodes") (fun h => absurd rfl h) hstart false
  rw [namei_eq]
  cases hr : (Up.namex 0 [47, 97] false).run (icall mkfsSb) ⟨m, mem⟩ with
  | error e =>
    rw [hr] at h
    rw [show e = _ from h]
  | ok rs =>
    -- no entry is the file's, and none can become so
    obtain ⟨r, s'⟩ := rs
    rw [hr] at h
    obtain ⟨hT, hend⟩ := h
    cases r with
    | none =>
      have hend : _ = none := hend
      rw [hres] at hend
      cases hend
    | some kn =>
      obtain ⟨k, name⟩ := kn
      have hend : _ = some _ := hend
      rw [hres, hT.inum k (taken k).1] at hend
      exact absurd (Option.some.inj hend).symm (taken k).2.2

end Xv6
