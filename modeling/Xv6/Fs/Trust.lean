/-
  A DISK THAT CAN BE TRUSTED STAYS SO, over whole histories.

  A disk is SANE when it is sound — every block in use has one owner, no file has a hole — and its
  directories name inodes of the table.  The second matters to the first: `iget` takes any number, and
  behind the table lie the bitmap and the data, where a file's indirect block passes for sixteen inodes.

  What the accounts of `Xv6.Fs.Processes` need to know of the disk is what a volume shows (`Vol.cache`),
  so the machine serves them while it shows a volume whose directories are in order, and no system call
  leads out of that (`History.sane`).  Three invariants of the disk and the inode cache follow: who owns
  which block, that no file gets a hole and so no read allocates, and that the cache agrees with the disk.
-/
import Xv6.Fs.Crowd
import Xv6.Fs.Processes

namespace Xv6

open Function Prog Bytes Owner OneFile

variable {x : Dinode} {f : Dinode → Dinode} {o : Icall} {s s' : Kern} {k : Nat} {d : Nat → Block}
  {D : Nat → Dinode} {sb : Superblock} {v : Vol}

/-! ## What the accounts see of a volume -/

/-- Exclude that a free block is freed. -/
def Goal.noFree : Goal :=
  ⟨(· = .panic "freeing free block"), False, True, False, fun e he h => by rw [h] at he; cases he⟩

namespace Vol

variable {g : Goal} {v' : Vol} {i : Nat}

/-- The directories name inodes of the table. -/
def Names (sb : Superblock) (v : Vol) : Prop :=
  ∀ i e, i < sb.ninodes → (v.ino i).type = T_DIR → DIRENT * (e + 1) ≤ (v.ino i).size →
    le16 (v.byte i) (DIRENT * e) < sb.ninodes

def cache (v : Vol) : Icache := ⟨v.mem, fun i => (v.ino i).type, v.out⟩

theorem cache_eq {w : Icache} (hm : v.mem = w.mem) (ht : (fun i => (v.ino i).type) = w.type)
    (ho : v.out = w.out) : v.cache = w := by
  rw [cache, hm, ht, ho]

theorem types_update (ino : Nat → Dinode) (i : Nat) (x : Dinode) :
    (fun j => (update ino i x j).type) = update (fun j => (ino j).type) i x.type :=
  comp_update Dinode.type ino i x

/-- Another inode, of the same type. -/
theorem types_same {ino : Nat → Dinode} (h : x.type = (ino i).type) :
    (fun j => (update ino i x j).type) = fun j => (ino j).type := by
  rw [types_update, h]
  exact update_eq_self i fun j => (ino j).type

/-- One inode has changed. -/
theorem Names.change (h : v.Names sb) (hsame : ∀ j, j ≠ i → v'.ino j = v.ino j ∧ v'.byte j = v.byte j)
    (hi : ∀ e, i < sb.ninodes → (v'.ino i).type = T_DIR → DIRENT * (e + 1) ≤ (v'.ino i).size →
      le16 (v'.byte i) (DIRENT * e) < sb.ninodes) : v'.Names sb := by
  intro j e hj ht he
  by_cases hji : j = i
  · subst hji
    exact hi e hj ht he
  · obtain ⟨hino, hbyte⟩ := hsame j hji
    rw [hino] at ht he
    rw [hbyte]
    exact h j e hj ht he

/-- An inode without contents. -/
theorem Names.drop (h : v.Names sb) (lh : Nat) (hx : x.size = 0) : (v.drop i x lh).Names sb := by
  refine h.change (i := i) (fun j hj => ⟨update_of_ne hj .., rfl⟩) fun e _ _ he => ?_
  have hsize : ((v.drop i x lh).ino i).size = 0 :=
    (congrArg Dinode.size (update_self ..)).trans hx
  rw [hsize] at he
  have : 0 < DIRENT := by decide
  exact absurd he (Nat.not_le_of_lt (Nat.mul_pos this (Nat.succ_pos e)))

/-- Fields that have nothing to do with the contents. -/
theorem Names.setIno (h : v.Names sb) (hf : ∀ d, (f d).type = d.type)
    (hs : ∀ d, (f d).size = d.size) : (v.setIno k f).Names sb := by
  refine h.change (i := v.inum k) (fun j hj => ⟨update_of_ne hj .., rfl⟩) fun e hi ht he => ?_
  rw [show (v.setIno k f).ino (v.inum k) = f (v.ino (v.inum k)) from update_self ..] at ht he
  rw [hf] at ht
  rw [hs] at he
  exact h _ e hi ht he

theorem cache_setIno (hf : ∀ d, (f d).type = d.type) :
    (v.setIno k f).cache = v.cache.upd k fun ip => { ip with din := f ip.din } :=
  cache_eq rfl (types_same (hf _)) rfl

/-- A write to a directory is one entry, and it is whole. -/
theorem Names.wrote (h : v.Names sb) {src : Src} {off n m : Nat} (hn : ¬ v.refuses k off n)
    (hw : (v.ino (v.inum k)).type = T_DIR → OneEntry (some sb.ninodes) src off n)
    (hW : v.Wrote g k src off n m v') : v'.Names sb := by
  obtain ⟨-, hall, x, a, rfl, hx, -⟩ := hW
  refine h.change (i := v.inum k)
    (fun j hj => ⟨update_of_ne hj .., update_of_ne hj ..⟩) fun e hi ht he => ?_
  have hino : ∀ T n lh, (v.wrote k x a (v.spliced k src off m) T n lh).ino (v.inum k) = x := fun _ _ _ =>
    update_self ..
  have hbyte : ∀ T n lh, (v.wrote k x a (v.spliced k src off m) T n lh).byte (v.inum k) =
      v.spliced k src off m := fun _ _ _ => update_self ..
  rw [hino] at ht he
  rw [hbyte]
  have hdir : (v.ino (v.inum k)).type = T_DIR := by rw [hx] at ht; exact ht
  obtain ⟨d, rfl, rfl, hoff, hd⟩ := hw hdir _ rfl
  obtain rfl : m = DIRENT := hall trivial
  have hsize : x.size = max (v.ino (v.inum k)).size (off + DIRENT) := by rw [hx]
  rw [hsize] at he
  have hstart : off ≤ (v.ino (v.inum k)).size := by
    by_contra hlt
    exact hn (.inl (not_le.mp hlt))
  unfold DIRENT at *
  by_cases hhere : 16 * e = off
  · -- the entry that was written
    have hnew : ∀ o, o < 2 → v.spliced k (.kernel d) off 16 (16 * e + o) = d o := fun o ho => by
      rw [spliced, if_pos (by omega), hhere, Nat.add_sub_cancel_left]
      rfl
    have hentry : le16 _ (16 * e) = le16 d 0 := le16_congr (hnew 0 (by omega)) (hnew 1 (by omega))
    rw [hentry]
    exact hd
  · have hold : ∀ o, o < 2 → v.spliced k (.kernel d) off 16 (16 * e + o) =
        v.byte (v.inum k) (16 * e + o) := fun o ho => by
      rw [spliced, if_neg (by omega)]
    have hentry : le16 _ (16 * e) = le16 (v.byte (v.inum k)) (16 * e) :=
      le16_congr (hold 0 (by omega)) (hold 1 (by omega))
    rw [hentry]
    exact h _ e hi hdir (by unfold DIRENT; omega)

/-- What `readi` finds in a directory. -/
theorem Names.read (h : v.Names sb) (hok : v.Ok sb) (hk : v.Held k) {dst : Dst} {off : Nat}
    {r : Nat × Bytes} (hr : Effect sb g (.readi k dst off DIRENT) v r v')
    (ht : (v.slot k).din.type = T_DIR) (hoff : off % DIRENT = 0) (hn : r.1 = DIRENT) :
    Xv6.deInum r.2 < sb.ninodes := by
  obtain ⟨hle, -, hbytes, -⟩ := hr
  obtain ⟨hdin, -, hi⟩ := hk.ino hok
  rw [hdin] at ht
  have hoff' : DIRENT * (off / DIRENT) = off := Nat.mul_div_cancel' (Nat.dvd_of_mod_eq_zero hoff)
  have hread : DIRENT * (off / DIRENT + 1) ≤ (v.ino (v.inum k)).size := by grind [readable]
  have hbytes := hbytes fun hT => hok.torn _ hT ht
  have hlt := h (v.inum k) (off / DIRENT) hi ht hread
  rw [hoff'] at hlt
  have hDIR : DIRENT = 16 := rfl
  rw [Xv6.deInum, le16, hbytes 0 (by omega), hbytes (0 + 1) (by omega)]
  exact hlt

theorem held_cache (hk : Icache.Held v.cache.mem k) : v.Held k := ⟨hk.lt, hk.ref, hk.locked, hk.valid⟩

/-- Whoever keeps the accounts keeps to what the inode layer demands. -/
theorem safe_cache (hok : v.Ok sb) (hsafe : Icache.Safe (some sb.ninodes) o v.cache) :
    Safe sb .noFree o v := by
  have hroom : ∀ n, v.Room sb .noFree n := fun _ => False.elim
  have hother : ∀ {c : Prop} (msg : String), msg ≠ "freeing free block" →
      Goal.noFree.bad (.panic msg) → c := fun msg hne h => absurd (Err.panic.inj h) hne
  cases o with
  | iget inum => exact ⟨hsafe _ rfl, hother _ (by decide)⟩
  | idup k => exact hsafe
  | ialloc type =>
    exact ⟨hsafe.1, hsafe.2, hroom 1, False.elim, hother _ (by decide), hother _ (by decide)⟩
  | ilock k => exact ⟨hsafe, hother _ (by decide), fun h => (by cases h), hother _ (by decide), False.elim⟩
  | iunlock k => exact ⟨hsafe.1, hother _ (by decide)⟩
  | iput k =>
    have h0 : 0 ≤ v.mem.tabs.files k := Tally.tally_nonneg _ _ _
    have h1 : v.mem.tabs.files k + 1 ≤ (v.slot k).ref := hsafe.2
    exact ⟨hsafe.1, by omega, fun _ => ⟨fun h => (by cases h), id⟩⟩
  | updNlink k x | updPerm k x => exact ⟨held_cache hsafe.1, hsafe.2, hroom 1⟩
  | updNew k major minor => exact ⟨held_cache hsafe, hroom 1⟩
  | itrunc k => exact ⟨held_cache hsafe, id⟩
  | readi k dst off n => exact ⟨held_cache hsafe, False.elim⟩
  | writei k src off n =>
    have hk : v.Held k := held_cache hsafe.1
    refine ⟨hk, fun ht => ?_, hroom _, hother _ (by decide)⟩
    obtain ⟨d, rfl, -⟩ := hsafe.2 ((hk.ino hok).1 ▸ ht) _ rfl
    trivial
  | bmap k bn => cases hsafe.2
  | beginOp => exact False.elim
  | rawRead b um addr =>
    have h0 : v.out = 0 := hsafe
    exact ⟨by omega, id⟩
  | rawWrite b um addr | forceFail b | forceDiskFail b => cases hsafe
  | fail e =>
    rintro rfl
    cases hsafe
  | inode k => trivial
  | endOp => trivial
  | tabs => trivial
  | setTabs t => trivial

/-- **What a call does to a volume is what the accounts expect.** -/
theorem step_cache {r : o.Res} (hok : v.Ok sb) (hn : v.Names sb)
    (hsafe : Icache.Safe (some sb.ninodes) o v.cache) (he : Effect sb g o v r v') :
    Icache.Step (some sb.ninodes) o v.cache r v'.cache ∧ v'.Names sb := by
  have hstay : ∀ k, Icache.Drifted k v.cache v.cache := fun k => ⟨_, .refl k _, rfl⟩
  have hset : ∀ k f, (∀ d : Dinode, (f d).type = d.type) → (∀ d, (f d).size = d.size) →
      Icache.Drifted k v.cache (v.setIno k f).cache ∧ (v.setIno k f).Names sb := fun k f hf hs =>
    ⟨⟨_, ⟨f (v.slot k).din, hf _, rfl⟩, cache_setIno hf⟩, hn.setIno hf hs⟩
  cases o with
  | iget inum =>
    obtain ⟨m, hm, rfl⟩ := he
    exact ⟨⟨m, hm, rfl⟩, hn⟩
  | idup k =>
    obtain rfl := he
    exact ⟨rfl, hn⟩
  | ialloc type =>
    obtain ⟨i, m, -, hi, -, hm, rfl⟩ := he
    exact ⟨⟨i, m, fun _ h => Option.some.inj h ▸ hi, hm, cache_eq rfl (types_update ..) rfl⟩,
      hn.drop (v.lh + 1) rfl⟩
  | ilock k =>
    obtain ⟨href, hfree, -, rfl⟩ := he
    refine ⟨⟨href, hfree, v.ino (v.inum k), fun hv => ?_, fun _ => rfl, ?_⟩, hn⟩
    · exact (hok.slots.valid k hsafe href hv (by simp)).1.symm
    · refine cache_eq ?_ rfl rfl
      simp only [upd, Icache.upd_mem]
      refine Mem.upd_congr ?_
      rfl
  | iunlock k =>
    obtain ⟨-, -, rfl⟩ := he
    exact ⟨rfl, hn⟩
  | iput k =>
    change if v.Dying k then _ else _ at he
    split at he
    · next hdying =>
      obtain ⟨hfree, lh, rfl⟩ := he
      refine ⟨.inr ⟨hdying.1, hfree, { (v.slot k).din with type := 0, size := 0, addrs := fun _ => 0 }, ?_⟩,
        hn.drop lh rfl⟩
      refine cache_eq ?_ (types_update ..) rfl
      simp only [upd, drop, Icache.upd_mem]
      refine Mem.upd_congr ?_
      rfl
    · obtain rfl := he
      exact ⟨.inl rfl, hn⟩
  | inode k =>
    obtain ⟨rfl, rfl⟩ := he
    exact ⟨⟨rfl, rfl⟩, hn⟩
  | updNlink k x =>
    obtain rfl := he
    exact hset k _ (fun _ => rfl) fun _ => rfl
  | updPerm k x =>
    obtain rfl := he
    exact hset k _ (fun _ => rfl) fun _ => rfl
  | updNew k major minor =>
    obtain rfl := he
    obtain ⟨-, hn'⟩ := hset k (fun d => { d with nlink := 1 }) (fun _ => rfl) fun _ => rfl
    refine ⟨⟨{ (v.slot k).din with nlink := 1 }, rfl, cache_eq ?_ (types_same rfl) rfl⟩, hn'⟩
    simp only [upd, setIno, Mem.upd_upd, Icache.upd_mem]
    refine Mem.upd_congr ?_
    rfl
  | itrunc k =>
    obtain ⟨lh, rfl⟩ := he
    refine ⟨⟨_, ⟨{ (v.slot k).din with size := 0, addrs := fun _ => 0 }, rfl, rfl⟩, ?_⟩, hn.drop lh rfl⟩
    refine cache_eq ?_ (types_same rfl) rfl
    simp only [upd, drop, Icache.withMem, Mem.setDin]
    refine Mem.upd_congr ?_
    rfl
  | readi k dst off n =>
    have hk : v.Held k := held_cache hsafe
    refine ⟨⟨?_, fun ht hoff hdir hr N hN => ?_⟩, ?_⟩
    · rw [he.2.2.2]
      exact hstay k
    · subst hdir
      exact Option.some.inj hN ▸ hn.read hok hk he ht hoff hr
    · rw [he.2.2.2]
      exact hn
  | writei k src off n =>
    have hk : v.Held k := held_cache hsafe.1
    change if v.refuses k off n then _ else _ at he
    split at he
    · rw [he.2]
      exact ⟨hstay k, hn⟩
    next hgo =>
    have he := he.2
    split at he
    · rw [he]
      exact ⟨hstay k, hn⟩
    obtain ⟨m, hW⟩ := he
    refine ⟨?_, hn.wrote hgo (fun ht => hsafe.2 ((hk.ino hok).1 ▸ ht)) hW⟩
    obtain ⟨-, -, x, a, rfl, hx, -⟩ := hW
    have htype : x.type = (v.ino (v.inum k)).type := by rw [hx]
    exact ⟨_, ⟨x, htype.trans (congrArg Dinode.type (hk.ino hok).1.symm), rfl⟩,
      cache_eq rfl (types_same htype) rfl⟩
  | bmap k bn => exact he.elim
  | beginOp =>
    obtain rfl := he
    exact ⟨rfl, hn⟩
  | endOp =>
    obtain rfl := he
    exact ⟨rfl, hn⟩
  | tabs =>
    obtain ⟨rfl, rfl⟩ := he
    exact ⟨⟨rfl, rfl⟩, hn⟩
  | setTabs t =>
    obtain rfl := he
    exact ⟨rfl, hn⟩
  | rawRead b um addr =>
    obtain rfl := he
    exact ⟨rfl, hn⟩
  | rawWrite b um addr => exact he.elim
  | forceFail b =>
    obtain rfl := he
    exact ⟨rfl, hn⟩
  | forceDiskFail b =>
    obtain rfl := he
    exact ⟨rfl, hn⟩
  | fail e => exact he.elim

end Vol

/-! ## The layout of an image -/

/-- Every block in use has one owner, and no file has a hole or is too long. -/
structure Tiled (sb : Superblock) (D : Nat → Dinode) (blk : Nat → Block) : Prop where
  owned : Owned (Used sb blk) (Refers sb D blk) fun b => b < sb.data
  size : ∀ i, i < sb.ninodes → (D i).type ≠ 0 → (D i).size ≤ MAXFILE * BSIZE
  full : ∀ i, i < sb.ninodes → (D i).type ≠ 0 → ∀ bn, bn * BSIZE < (D i).size →
    addrAt blk (D i) (place bn) ≠ 0

section Layout

variable {blk blk' : Nat → Block}

/-- The layout depends on the metadata and the indirect blocks only. -/
theorem Tiled.congr (h : Tiled sb D blk) (hsb : sb.Wf) (hD : ∀ i, i < sb.ninodes → inodeAt sb blk i = D i)
    (hlow : ∀ b, sb.inodestart ≤ b → b < sb.data → blk' b = blk b)
    (hind : ∀ i b, Refers sb D blk (i, NDIRECT) b → blk' b = blk b) :
    Tiled sb (inodeAt sb blk') blk' := by
  have hmeta := hsb.inode_lt
  have hino : ∀ i, i < sb.ninodes → inodeAt sb blk' i = D i := fun i hi => by
    have := hsb.iblock hi
    rw [← hD i hi, inodeAt, inodeAt, hlow _ (by omega) (by omega)]
  refine ⟨h.owned.congr (fun b => ?_) (fun ip b => ?_) fun _ => Iff.rfl, fun i hi ht => ?_,
    fun i hi ht bn hbn => ?_⟩
  · refine and_congr_right fun hb => ?_
    have := Superblock.bblock_range hb
    rw [mapBit, mapBit, hlow _ (by omega) (by omega)]
  · rw [← refers_congr hind]
    constructor
    · rintro ⟨hi, ht, hp, ha, hne⟩
      rw [hino _ hi] at ht ha
      exact ⟨hi, ht, hp, ha, hne⟩
    · rintro ⟨hi, ht, hp, ha, hne⟩
      rw [← hino _ hi] at ht ha
      exact ⟨hi, ht, hp, ha, hne⟩
  · rw [hino i hi] at ht ⊢
    exact h.size i hi ht
  · rw [hino i hi] at ht hbn ⊢
    rw [addrAt_congr fun hx => hind i _ (refers_indirect hi ht hx)]
    exact h.full i hi ht bn hbn

/-- Blocks that hold neither metadata nor addresses may hold anything. -/
theorem Sound.change (h : Sound sb blk) (hsb : sb.Wf) (hlow : ∀ b, b < sb.data → blk' b = blk b)
    (hind : ∀ i b, Refers sb (inodeAt sb blk) blk (i, NDIRECT) b → blk' b = blk b) : Sound sb blk' := by
  have hmeta := hsb.inode_lt
  have hlog := hsb.inode
  have ht := Tiled.congr ⟨h.owned, h.size, h.full⟩ hsb (fun _ _ => rfl) (fun b _ => hlow b) hind
  refine ⟨?_, ht.owned, ht.size, ht.full⟩
  rw [hlow _ (by omega)]
  exact h.log

theorem Rep.tiled {t : Store} (hR : Rep sb t v) (hsb : sb.Wf)
    (hblk : ∀ b, ¬ sb.layout.InLog b → ¬ t.taint b → blk b = t.blk b) : Tiled sb (inodeAt sb blk) blk := by
  have hstore : Tiled sb v.ino t.blk := by
    refine ⟨hR.fs.owned.congr (fun _ => Iff.rfl) (fun _ _ => Iff.rfl) fun b => (or_iff_left id).symm,
      hR.ok.size, fun i hi ht bn hbn => ?_⟩
    have hmax : bn < MAXFILE :=
      Nat.lt_of_mul_lt_mul_right (lt_of_lt_of_le hbn (hR.ok.size i hi ht))
    rw [hR.addr i _ hi ht (place_lt hmax).1]
    exact hR.ok.full i hi ht bn hbn
  have hlow := hsb.inode_lt
  refine hstore.congr hsb (fun i hi => hR.fs.table i hi (by simp))
    (fun b hb hd => hblk b (hsb.not_inLog hb) (hR.fs.meta_clean hd)) fun i b hr => ?_
  have := (hR.fs.refers_data hr).1
  exact hblk b (hsb.not_inLog (by omega)) (hR.fs.indirect_clean hr)

end Layout

namespace Kern

variable {c : Syscall}

/-- The layout, as the kernel sees it through its buffers. -/
theorem Shows.tiled (hsb : sb.Wf) (h : s.Shows sb v) : Tiled sb (s.dinode sb) s.mach.view := by
  obtain ⟨t, ⟨⟨H, hB⟩, -⟩, hR⟩ := h
  exact hR.tiled hsb fun b hb hT => hB.view b hb (.inr hT)

/-- The layout of the disk, between operations. -/
theorem Shows.disk_tiled (hsb : sb.Wf) (h : s.Shows sb v) (hout : v.out = 0) :
    Tiled sb (inodeAt sb s.mach.disk) s.mach.disk := by
  obtain ⟨t, ⟨⟨H, hB⟩, -⟩, hR⟩ := h
  have hidle : t.lh = [] := hB.idle (by rw [hR.out, hout])
  exact hR.tiled hsb fun b hb hT => hB.disk b hb (by rw [hidle]; exact List.not_mem_nil) hT

/-! ## Histories -/

/-- The kernel as the accounts see it. -/
def Sees (sb : Superblock) (s : Kern) (w : Icache) : Prop :=
  ∃ v : Vol, s.Shows sb v ∧ v.Names sb ∧ w = v.cache

/-- **The machine serves the accounts** while it shows a volume whose directories are in order. -/
theorem sees_served (hsb : sb.Wf) : Serves (icall sb) Goal.noFree.bad
    (Icache.spec (some sb.ninodes)) (Sees sb) := by
  rintro o s w ⟨v, hv, hn, rfl⟩ hsafe
  have h := hv.call hsb trivial id (Vol.safe_cache hv.ok hsafe)
  cases hs : icall sb o s with
  | error e =>
    rw [hs] at h
    exact h
  | ok r =>
    rw [hs] at h
    obtain ⟨v', ⟨he, -⟩, hv'⟩ := h
    obtain ⟨hstep, hn'⟩ := Vol.step_cache hv.ok hn hsafe he
    exact ⟨v'.cache, hstep, v', hv', hn', rfl⟩

/-- A system call of a running process that leaves the disk and its fault hooks alone. -/
def Plain (c : Syscall) (s : Kern) : Prop := Live c s ∧ c.spoils = false

instance (c : Syscall) (s : Kern) : Decidable (Plain c s) := inferInstanceAs (Decidable (_ ∧ _))

/-- The kernel between system calls, on a disk that can be trusted. -/
structure Trusts (sb : Superblock) (s : Kern) : Prop where
  root : ROOTINO < sb.ninodes
  sees : ∃ w, s.Sees sb w ∧ w.out = 0 ∧ w.mem.Settled (some sb.ninodes) w.type

/-- Every system call keeps its accounts. -/
theorem Trusts.code (h : s.Trusts sb) (hc : Plain c s) : ∃ w, s.Sees sb w ∧
    c.code.wp (Icache.spec (some sb.ninodes))
      (fun _ w => w.mem.Settled (some sb.ninodes) w.type ∧ w.out = 0) w := by
  obtain ⟨hroot, w, hw, hout, hm⟩ := h
  refine ⟨w, hw, ?_⟩
  obtain ⟨v, hv, -, rfl⟩ := id hw
  have hrun : Up.Runs v.cache.mem.tabs c.caller := by
    have := hc.1
    rw [Live, hv.mem] at this
    exact ⟨this.1, this.2⟩
  have hcall := hm.call (c := c) (fun _ h => Option.some.inj h ▸ hroot)
    (fun hs => absurd hs (by rw [hc.2]; decide)) hrun
  rw [show v.cache = ⟨v.cache.mem, v.cache.type, 0⟩ by rw [← hout]]
  exact hcall

theorem Trusts.syscall (hsb : sb.Wf) (h : s.Trusts sb) (hc : Plain c s) : match s.syscall sb c with
    | .ok (_, s') => s'.Trusts sb
    | .error e => e ≠ .panic "freeing free block" := by
  obtain ⟨w, hw, hcode⟩ := h.code hc
  have hrun := wp_sound (sees_served hsb) hw hcode
  unfold Kern.syscall
  cases hr : c.code.run (icall sb) s with
  | error e =>
    rw [hr] at hrun
    exact hrun
  | ok r =>
    rw [hr] at hrun
    obtain ⟨w', ⟨hm, hout⟩, hw'⟩ := hrun
    exact ⟨h.root, w', hw', hout, hm⟩

end Kern

/-- The directories of a disk name inodes of the table. -/
def NamesInodes (sb : Superblock) (d : Nat → Block) : Prop :=
  ∀ i e, i < sb.ninodes → (inodeAt sb d i).type = T_DIR → DIRENT * (e + 1) ≤ (inodeAt sb d i).size →
    le16 (content d (inodeAt sb d i)) (DIRENT * e) < sb.ninodes

/-- A disk that can be trusted. -/
structure Sane (sb : Superblock) (d : Nat → Block) : Prop where
  sound : Sound sb d
  root : ROOTINO < sb.ninodes
  names : NamesInodes sb d

/-- Only the root is in the cache, and it is not loaded. -/
theorem bootMem_slots (hroot : ROOTINO < sb.ninodes) : Slots sb D none bootMem := by
  have htaken : ∀ k, 1 ≤ (bootMem.icache k).ref → k = 0 := by
    intro k href
    by_contra hk
    have href : (1 : Int) ≤ if k = 0 then 1 else 0 := href
    rw [if_neg hk] at href
    omega
  refine ⟨fun k l _ _ hk hl _ => (htaken k hk).trans (htaken l hl).symm, fun k _ hk => ?_,
    fun k _ _ hv => by cases hv⟩
  obtain rfl := htaken k hk
  exact hroot

namespace Kern

variable {s0 : Kern}

theorem boot_trusts (hsb : sb.Wf) (hd : Sane sb d) (hboot : bootKern sb d = .ok s) : s.Trusts sb := by
  obtain ⟨m, hm, hv⟩ := boot_shows hsb hd.sound (bootMem_slots hd.root) 1
  rw [bootKern, hm] at hboot
  obtain rfl := Except.ok.inj hboot
  refine ⟨hd.root, _, ⟨_, hv, hd.names, rfl⟩, rfl, ?_⟩
  exact bootMem_settled (fun _ h => Option.some.inj h ▸ hd.root) _

theorem History.trusts (hsb : sb.Wf) (hd : Sane sb d) (hboot : bootKern sb d = .ok s0)
    (h : History sb Plain s0 s) : s.Trusts sb := by
  refine h.invariant (boot_trusts hsb hd hboot) fun hs hc hr => ?_
  have := hs.syscall hsb hc
  rw [hr] at this
  exact this

end Kern

/-! ## Runs from a disk -/

/-- A name of one letter. -/
def letter (c : UInt8) (h : c ≠ 0) : Option Path := some ⟨[c], by simpa using h, show 1 < MAXPATH by decide⟩

def bootRun (d : Nat → Block) (cs : List Syscall) : Option Kern := do
  let s ← (bootKern mkfsSb d).toOption
  s.follow mkfsSb Kern.Plain cs

theorem bootRun_history (cs : List Syscall) {P : Kern → Prop} [DecidablePred P]
    (h : ((bootRun d cs).map fun s => decide (P s)) = some true) :
    ∃ s0 s, bootKern mkfsSb d = .ok s0 ∧ Kern.History mkfsSb Kern.Plain s0 s ∧ P s := by
  obtain ⟨s, hs, hP⟩ := Option.map_eq_some_iff.mp h
  obtain ⟨s0, hboot, hrun⟩ := Option.bind_eq_some_iff.mp hs
  exact ⟨s0, s, toOption_eq_some hboot, Kern.follow_history .nil hrun, of_decide_eq_true hP⟩

theorem OneFile.sane : Sane mkfsSb (disk 1 1) := by
  refine ⟨sound (by decide) (by decide) covers_one, by decide, fun i e hi ht he => ?_⟩
  have hD : (diskVol mkfsSb (disk 1 1) bootMem).Dirs mkfsSb := dirs (by decide)
  by_cases h0 : (diskVol mkfsSb (disk 1 1) bootMem).deInum i e = 0
  · exact lt_of_le_of_lt (Nat.le_of_eq h0) (by decide)
  · refine (hD.entry i e hi ht (List.mem_range.mpr ?_) h0).lt
    unfold DIRENT at he ⊢
    show e < ((inodeAt mkfsSb (disk 1 1) i).size + 15) / 16
    omega

/-- A file is opened, a directory made, the file closed; then the directory's permissions change. -/
def busy : List Syscall :=
  [.open 0 (some pathA) O_RDWR, .mkdir 0 (letter 98 (by decide)), .close 0 0,
    .chmod 0 (letter 98 (by decide)) 1 false false 1]

theorem busy_reaches : ∃ s0 s, bootKern mkfsSb (disk 1 1) = .ok s0 ∧
    Kern.History mkfsSb Kern.Plain s0 s ∧ mapBit mkfsSb s.mach.disk 48 = true ∧
    ((s.dinode mkfsSb 3).type ≠ 0 ∧ (s.dinode mkfsSb 3).size = 32) ∧
    (0 < (s.mem.icache 0).ref ∧ (s.mem.icache 0).valid = true ∧ (s.mem.icache 0).locked = false) ∧
    (s.mem.icache 2).valid = true ∧ (s.mem.icache 2).locked = false ∧ (s.mem.icache 2).ref = 0 ∧
    (s.mem.icache 2).din.perm ≠ (s.dinode mkfsSb (s.mem.icache 2).inum).perm :=
  bootRun_history busy (by decide +kernel)

/-- A root directory that names inodes 432 and 225, which are none: the first lies in the file's indirect
    block, the second in the root directory itself, where a leftover byte passes for its type. -/
def crossRoot : Block :=
  blit (blit (blit (mkfsDisk 46) 48 16 (dirent 432 [120])) 64 16 (dirent 225 [121])) 120 1 fun _ => 98

/-- A sound disk with that root.  Block 73, which is the file's, starts with the number of another block of
    the file. -/
def crossed : Nat → Block :=
  update (update (OneFile.disk 28 (27 * BSIZE)) 46 crossRoot) 73 (put32 (fun _ => 0) 0 47)

theorem crossed_sound : Sound mkfsSb crossed := by
  have hsound : Sound mkfsSb (disk 28 (27 * BSIZE)) :=
    sound (by decide) (by decide) fun bn h => by
      have hbn : bn < 27 := Nat.lt_of_mul_lt_mul_right h
      unfold place
      split <;> omega
  have hsame : ∀ b, b ≠ 46 → b ≠ 73 → crossed b = disk 28 (27 * BSIZE) b := fun b h1 h2 => by
    rw [crossed, update_of_ne h2, update_of_ne h1]
  have hdata : mkfsSb.data = 46 := rfl
  refine hsound.change mkfsSb_wf (fun b hb => hsame b (by omega) (by omega)) fun i b hr => ?_
  -- the one indirect block is block 59
  rw [refers_iff (by decide) (by decide)] at hr
  unfold NDIRECT at hr
  rcases hr with ⟨h, -⟩ | ⟨-, -, rfl⟩
  · cases h
  · exact hsame 59 (by decide) (by decide)

/-- Inode 2 has no block for an index below its size. -/
def Kern.Holed (s : Kern) : Prop := (s.dinode mkfsSb 2).type ≠ 0 ∧
  ∃ bn, bn < 27 ∧ bn * BSIZE < (s.dinode mkfsSb 2).size ∧ addrAt s.mach.view (s.dinode mkfsSb 2) (place bn) = 0

instance (s : Kern) : Decidable s.Holed := inferInstanceAs (Decidable (_ ∧ _))

/-- `chdir` to the first of the false inodes drops it: what passes for its addresses is zeroed, and what
    they lead to is freed. -/
theorem crossed_reaches : ∃ s0 s, bootKern mkfsSb crossed = .ok s0 ∧
    Kern.History mkfsSb Kern.Plain s0 s ∧ s.Holed ∧ mapBit mkfsSb s.mach.disk 47 = false ∧
    (inodeAt mkfsSb s.mach.disk 2).type ≠ 0 ∧ addrAt s.mach.disk (inodeAt mkfsSb s.mach.disk 2) 0 = 47 :=
  bootRun_history [.chdir 0 (letter 120 (by decide))] (by decide +kernel)

/-! ## Who owns which block -/

/-- **Between system calls** the bit of a block is set exactly if the block is metadata or one place of
    one inode refers to it, and what is referred to is a data block.  No call that can follow frees a
    free block. -/
theorem block_ownership {sb : Superblock} {d : Nat → Block} {s0 s : Kern} (hsb : sb.Wf) (hd : Sane sb d)
    (hboot : bootKern sb d = .ok s0) (h : Kern.History sb Kern.Plain s0 s) :
    (∀ b, b < sb.size → (mapBit sb s.mach.disk b = true ↔
      b < sb.data ∨ ∃! ip, Refers sb (inodeAt sb s.mach.disk) s.mach.disk ip b)) ∧
    (∀ ip b, Refers sb (inodeAt sb s.mach.disk) s.mach.disk ip b → sb.data ≤ b ∧ b < sb.size ∧
      ∀ ip', Refers sb (inodeAt sb s.mach.disk) s.mach.disk ip' b → ip' = ip) ∧
    ∀ c, Kern.Plain c s → s.syscall sb c ≠ .error (.panic "freeing free block") := by
  have hs := h.trusts hsb hd hboot
  obtain ⟨w, ⟨v, hv, -, rfl⟩, hout, -⟩ := hs.sees
  have hO := (hv.disk_tiled hsb hout).owned
  refine ⟨fun b hb => ?_, fun ip b hr => ?_, fun c hc hr => ?_⟩
  · rw [← and_iff_right (a := b < sb.size) (b := mapBit sb s.mach.disk b = true) hb]
    refine (hO.used_iff b).trans (or_congr_right ⟨?_, ?_⟩)
    · rintro ⟨ip, hr⟩
      exact ⟨ip, hr, fun ip' hr' => hO.inj hr' hr⟩
    · rintro ⟨ip, hr, -⟩
      exact ⟨ip, hr⟩
  · exact ⟨not_lt.mp (hO.apart hr), (hO.ref_used hr).1, fun ip' hr' => hO.inj hr' hr⟩
  · have hgood := hs.syscall hsb hc
    rw [hr] at hgood
    exact hgood rfl

/-- The directory's block has one owner. -/
theorem block_ownership_mkdir : ∃ s0 s, bootKern mkfsSb (OneFile.disk 1 1) = .ok s0 ∧
    Kern.History mkfsSb Kern.Plain s0 s ∧
    ∃! ip, Refers mkfsSb (inodeAt mkfsSb s.mach.disk) s.mach.disk ip 48 := by
  obtain ⟨s0, s, hboot, h, hbit, -⟩ := busy_reaches
  obtain ⟨hmap, -⟩ := block_ownership mkfsSb_wf sane hboot h
  exact ⟨s0, s, hboot, h, ((hmap 48 (by decide)).mp hbit).resolve_left (by decide)⟩

/-- On a disk that is not sane a block of the file is freed, and remains the file's. -/
theorem block_ownership_crossed : ∃ s0 s, Sound mkfsSb crossed ∧ bootKern mkfsSb crossed = .ok s0 ∧
    Kern.History mkfsSb Kern.Plain s0 s ∧
    Refers mkfsSb (inodeAt mkfsSb s.mach.disk) s.mach.disk (2, 0) 47 ∧ mapBit mkfsSb s.mach.disk 47 = false := by
  obtain ⟨s0, s, hboot, h, -, hbit, htype, haddr⟩ := crossed_reaches
  exact ⟨s0, s, crossed_sound, hboot, h, ⟨by decide, htype, by decide, haddr, by decide⟩, hbit⟩

/-! ## No holes -/

/-- A read of an inode that its caller has locked returns, and does nothing but look. -/
theorem Kern.Shows.readi_looks (hsb : sb.Wf) (h : s.Shows sb v) (hk : v.Held k) (dst : Dst) (off n : Nat) :
    (∀ b s', (Icall.code sb (.readi k dst off n)).Makes Kern.serve s b s' → b.Looks sb) ∧
      ∃ x, s.icall sb (.readi k dst off n) = .ok x := by
  obtain ⟨m, hm, hv⟩ := h.tight
  have hsafe : Vol.Safe sb (.but fun _ => False) (.readi k dst off n) { v with lh := m } :=
    ⟨⟨hk.lt, hk.ref, hk.locked, hk.valid⟩, fun _ => hm⟩
  constructor
  · intro b s' hmakes
    obtain ⟨t, hB, hR⟩ := hv
    obtain ⟨t', -, hlooks, -⟩ := wp_makes (serve_quiet hsb trivial id).only hmakes hB (wp_readi hsb hR hsafe)
    exact hlooks
  · have hrun := hv.call hsb trivial id hsafe
    cases hs : s.icall sb (.readi k dst off n) with
    | error e =>
      rw [hs] at hrun
      exact absurd id hrun
    | ok x => exact ⟨x, rfl⟩

/-- **No file ever has a hole**: between system calls every inode has a block for each index below its
    size.  And every `readi` that a call makes, in or outside a transaction, returns without touching
    the bitmap or the log. -/
theorem files_have_no_holes {sb : Superblock} {d : Nat → Block} {s0 s : Kern} (hsb : sb.Wf)
    (hd : Sane sb d) (hboot : bootKern sb d = .ok s0) (h : Kern.History sb Kern.Plain s0 s) :
    (∀ i, i < sb.ninodes → (s.dinode sb i).type ≠ 0 → ∀ bn, bn * BSIZE < (s.dinode sb i).size →
      addrAt s.mach.view (s.dinode sb i) (place bn) ≠ 0) ∧
    ∀ c k dst off n s', Kern.Plain c s →
      c.code.Makes (I := Inodes) (Kern.icall sb) s (.readi k dst off n) s' →
      (∀ b s'', (Icall.code sb (.readi k dst off n)).Makes (I := Blocks) Kern.serve s' b s'' →
        b.Looks sb) ∧ ∃ x, s'.icall sb (.readi k dst off n) = .ok x := by
  have hs := h.trusts hsb hd hboot
  constructor
  · obtain ⟨w, ⟨v, hv, -, -⟩, -⟩ := hs.sees
    exact (hv.tiled hsb).full
  · intro c k dst off n s' hc hmakes
    obtain ⟨w, hw, hcode⟩ := hs.code hc
    obtain ⟨w', ⟨v, hv, -, rfl⟩, hsafe⟩ := wp_makes (Kern.sees_served hsb) hmakes hw hcode
    exact hv.readi_looks hsb (Vol.held_cache hsafe) dst off n

/-- The directory that was made has its block. -/
theorem files_have_no_holes_mkdir : ∃ s0 s, bootKern mkfsSb (OneFile.disk 1 1) = .ok s0 ∧
    Kern.History mkfsSb Kern.Plain s0 s ∧ (s.dinode mkfsSb 3).size = 32 ∧
    addrAt s.mach.view (s.dinode mkfsSb 3) (place 0) ≠ 0 := by
  obtain ⟨s0, s, hboot, h, -, ⟨htype, hsize⟩, -⟩ := busy_reaches
  obtain ⟨hfull, -⟩ := files_have_no_holes mkfsSb_wf sane hboot h
  refine ⟨s0, s, hboot, h, hsize, hfull 3 (by decide) htype 0 ?_⟩
  rw [hsize]
  decide

/-- The file's indirect block is also the only block of another file. -/
def shared : Nat → Block :=
  update (update (OneFile.disk 28 (27 * BSIZE)) 46 (blit (mkfsDisk 46) 48 16 (dirent 3 [98]))) 32
    (Dinode.put (OneFile.disk 28 (27 * BSIZE) 32) 3 ⟨T_FILE, 1, 1, fun j => if j = 0 then 59 else 0, 3, 3⟩)

/-- Without one of the two conditions files get holes.  Where a block has two owners, truncating the one
    file and making a directory zeroes the other file's indirect block; where a directory names a false
    inode, `chdir` to it does. -/
theorem files_get_holes :
    (∃ s0 s, NamesInodes mkfsSb shared ∧ (∀ i, i < mkfsSb.ninodes → (inodeAt mkfsSb shared i).type ≠ 0 →
        ∀ bn, bn * BSIZE < (inodeAt mkfsSb shared i).size →
          addrAt shared (inodeAt mkfsSb shared i) (place bn) ≠ 0) ∧
      bootKern mkfsSb shared = .ok s0 ∧ Kern.History mkfsSb Kern.Plain s0 s ∧ s.Holed) ∧
    ∃ s0 s, Sound mkfsSb crossed ∧ bootKern mkfsSb crossed = .ok s0 ∧
      Kern.History mkfsSb Kern.Plain s0 s ∧ s.Holed := by
  constructor
  · obtain ⟨s0, s, hboot, h, hhole⟩ := bootRun_history (d := shared)
      [.open 0 (letter 98 (by decide)) (O_RDWR ||| O_TRUNC), .mkdir 0 (letter 99 (by decide))]
      (P := Kern.Holed) (by decide +kernel)
    have hall : ∀ i, i < 200 → (inodeAt mkfsSb shared i).size ≤ 27 * BSIZE ∧
        (∀ bn, bn < 27 → bn * BSIZE < (inodeAt mkfsSb shared i).size →
          addrAt shared (inodeAt mkfsSb shared i) (place bn) ≠ 0) ∧
        ((inodeAt mkfsSb shared i).type = T_DIR → (inodeAt mkfsSb shared i).size = 1024 ∧
          ∀ e, e < 64 → le16 (content shared (inodeAt mkfsSb shared i)) (16 * e) < 200) := by decide +kernel
    refine ⟨s0, s, fun i e hi ht he => ?_, fun i hi _ bn hbn => ?_, hboot, h, hhole⟩
    · obtain ⟨hsize, hnames⟩ := (hall i hi).2.2 ht
      unfold DIRENT at he
      exact hnames e (by omega)
    · exact (hall i hi).2.1 bn (Nat.lt_of_mul_lt_mul_right (lt_of_lt_of_le hbn (hall i hi).1)) hbn
  · obtain ⟨s0, s, hboot, h, hhole, -⟩ := crossed_reaches
    exact ⟨s0, s, crossed_sound, hboot, h, hhole⟩

/-! ## The inode cache -/

/-- One entry in use for each inode; a loaded one has what the disk has, seen through the buffers; and
    `iupdate` of an entry, whatever is in it, changes no other inode. -/
structure Kern.Fresh (sb : Superblock) (s : Kern) : Prop where
  uniq : ∀ k l, k < NINODE → l < NINODE → 0 < (s.mem.icache k).ref → 0 < (s.mem.icache l).ref →
    (s.mem.icache k).inum = (s.mem.icache l).inum → k = l
  agrees : ∀ k, k < NINODE → 0 < (s.mem.icache k).ref → (s.mem.icache k).valid = true →
    (s.mem.icache k).locked = false → (s.mem.icache k).din = s.dinode sb (s.mem.icache k).inum
  other : ∀ k x s', k < NINODE → 0 < (s.mem.icache k).ref →
    (Code.iupdate sb k).run (I := Blocks) serve ⟨s.mach, s.mem.setDin k x⟩ = .ok ((), s') →
    ∀ j, j < sb.ninodes → j ≠ (s.mem.icache k).inum → s'.dinode sb j = s.dinode sb j

theorem Kern.Shows.fresh (hsb : sb.Wf) (h : s.Shows sb v) : s.Fresh sb := by
  have hslots := h.ok.slots
  rw [← h.mem] at hslots
  refine ⟨hslots.uniq, fun k hk href hv _ => ?_, fun k x s' hk href hr j hj hne => ?_⟩
  · rw [h.dinode hsb (hslots.inum k hk href)]
    exact (hslots.valid k hk href hv (by simp)).1
  · have hi := hslots.inum k hk href
    rw [h.dinode hsb hj]
    obtain ⟨t, ⟨⟨H, hB⟩, hq⟩, hR⟩ := h
    have hB1 : BackedQuiet sb ⟨s.mach, s.mem.setDin k x⟩ (t.withMem (s.mem.setDin k x)) :=
      ⟨⟨H, { hB with mem := rfl }⟩, hq⟩
    have hrange := hsb.inode_lt
    have hiblock := hsb.iblock hi
    have hjblock := hsb.iblock hj
    have hinum : ((s.mem.setDin k x).icache k).inum = (s.mem.icache k).inum := by
      rw [Mem.setDin, Mem.upd_self]
    have hrun := wp_sound (serve_quiet (g := .lenient) hsb trivial id) hB1
      (wp_iupdate hsb hi hinum (hR.fs.meta_clean (by omega)) hR.held False.elim)
    rw [hr] at hrun
    obtain ⟨t', rfl, ⟨H', hB'⟩, -⟩ := hrun
    have hfs := (hR.fs.activate _).put_inode hsb hi ((s.mem.setDin k x).icache k).din
    have hview := hB'.view _ (hsb.not_inLog hjblock.1) (.inr (hfs.meta_clean (by omega)))
    rw [Kern.dinode, inodeAt, hview]
    exact hfs.table j hj fun he => hne (Option.some.inj he).symm

end Xv6
