/-
  WHAT `mkfs` DOES NOT REFUSE.

  Inode and block numbers come from two counters that only grow (`Advances`), and no assertion looks at
  them.  The image file has `FSSIZE` sectors, twice the size in its superblock, so reading a block past
  the disk succeeds: the second half is meant for the mirror.

  As long as the inode numbers are in range the image is the one of `Holds`, and the counters say how
  many blocks the files need.  A run that ends well has therefore stayed inside the disk EXACTLY if the
  files fit (`main_within_iff`); eight files of the largest size do not, and `mkfs` accepts them
  (`main_accepts_overflow`).
-/
import Xv6.Fs.MkfsImage

namespace Xv6

open Bytes List Option

variable {din y : Dinode} {p : Bytes} {off pos : Nat} {files : List Input}

namespace Mkfs

variable {D : Nat → Dinode} {st st' st'' : Mkfs} {i n m : Nat}

/-! ## The counters -/

theorem winode_counters {x : Dinode} (h : st.winode i x = some st') :
    st'.freeinode = st.freeinode ∧ st'.freeblock = st.freeblock := by
  obtain ⟨buf, -, h⟩ := bind_eq_some_iff.mp h
  obtain rfl := some.inj h
  exact ⟨rfl, rfl⟩

/-- `n` inode numbers have been handed out, and some blocks. -/
structure Advances (n : Nat) (st st' : Mkfs) : Prop where
  inodes : st'.freeinode = st.freeinode + n
  blocks : st.freeblock ≤ st'.freeblock

namespace Advances

theorem refl (st : Mkfs) : Advances 0 st st := ⟨rfl, le_rfl⟩

theorem trans (h : Advances n st st') (h' : Advances m st' st'') : Advances (n + m) st st'' := by
  obtain ⟨h1, h2⟩ := h
  obtain ⟨h1', h2'⟩ := h'
  exact ⟨by omega, by omega⟩

theorem winode {x : Dinode} (h : st.winode i x = some st') : Advances 0 st st' := by
  obtain ⟨h1, h2⟩ := winode_counters h
  exact ⟨h1, Nat.le_of_eq h2.symm⟩

theorem addrFor (st : Mkfs) (din : Dinode) (j : Nat) : Advances 0 st (st.addrFor din j).2 := by
  unfold Mkfs.addrFor
  split
  · exact ⟨rfl, Nat.le_succ _⟩
  · exact refl st

theorem blockFor {fbn x : Nat} (h : st.blockFor din fbn = some (x, y, st')) : Advances 0 st st' := by
  unfold Mkfs.blockFor at h
  split at h
  · grind [addrFor]
  · have hfirst := addrFor st din NDIRECT
    obtain ⟨indirect, -, h⟩ := bind_eq_some_iff.mp h
    split at h
    · cases h
      exact ⟨hfirst.inodes, Nat.le_succ_of_le hfirst.blocks⟩
    · cases h
      exact hfirst

theorem appendRound {pos n1 off : Nat}
    (h : st.appendRound p pos n1 off din = some (y, st')) : Advances 0 st st' := by
  obtain ⟨⟨x, z, st1⟩, hfound, h⟩ := bind_eq_some_iff.mp h
  obtain ⟨buf, -, h⟩ := bind_eq_some_iff.mp h
  cases h
  obtain ⟨h1, h2⟩ := blockFor hfound
  exact ⟨h1, h2⟩

theorem iappendFrom {fuel pos n off off' : Nat}
    (h : Mkfs.iappendFrom p fuel pos n off din st = some (off', y, st')) : Advances 0 st st' := by
  induction fuel generalizing pos n off din st with
  | zero =>
    cases h
    exact refl _
  | succ fuel ih =>
    rw [Mkfs.iappendFrom] at h
    split at h
    · cases h
      exact refl _
    split at h
    · cases h
    obtain ⟨⟨z, st1⟩, hround, h⟩ := bind_eq_some_iff.mp h
    exact (appendRound hround).trans (ih h)

theorem iappend {data : List UInt8} (h : st.iappend i data = some st') : Advances 0 st st' := by
  obtain ⟨din, -, h⟩ := bind_eq_some_iff.mp h
  obtain ⟨⟨off, y, st1⟩, hloop, h⟩ := bind_eq_some_iff.mp h
  exact (iappendFrom hloop).trans (winode h)

theorem ialloc {type inum : Nat} (h : st.ialloc type = some (inum, st')) : Advances 1 st st' := by
  obtain ⟨st1, hw, h⟩ := bind_eq_some_iff.mp h
  cases h
  obtain ⟨h1, h2⟩ := winode hw
  exact ⟨h1, h2⟩

theorem appendAll {chunks : List (List UInt8)}
    (h : chunks.foldlM (fun st c => st.iappend i c) st = some st') : Advances 0 st st' := by
  induction chunks generalizing st with
  | nil =>
    cases h
    exact refl _
  | cons c cs ih =>
    rw [foldlM_cons] at h
    obtain ⟨st1, hrun, h⟩ := bind_eq_some_iff.mp h
    exact (iappend hrun).trans (ih h)

theorem addFile {f : Input} (h : st.addFile f = some st') : Advances 1 st st' := by
  obtain ⟨name, -, h⟩ := bind_eq_some_iff.mp h
  obtain ⟨⟨inum, st1⟩, hino, h⟩ := bind_eq_some_iff.mp h
  obtain ⟨st2, hentry, h⟩ := bind_eq_some_iff.mp h
  exact ((ialloc hino).trans (iappend hentry)).trans (appendAll h)

/-- Every file takes one inode number. -/
theorem addFiles (h : files.foldlM Mkfs.addFile st = some st') : Advances files.length st st' := by
  induction files generalizing st with
  | nil =>
    cases h
    exact refl _
  | cons f files ih =>
    rw [foldlM_cons] at h
    obtain ⟨st1, hrun, h⟩ := bind_eq_some_iff.mp h
    have hall := (addFile hrun).trans (ih h)
    rwa [Nat.add_comm] at hall

theorem fixRoot (h : st.fixRoot = some st') : Advances 0 st st' := by
  unfold Mkfs.fixRoot at h
  obtain ⟨din, -, h⟩ := bind_eq_some_iff.mp h
  exact winode h

end Advances

/-! ## Successful runs -/

/-- The loop of `iappend` keeps within the largest file: every round asserts it. -/
theorem iappendFrom_bound {fuel pos off off' : Nat} (hfuel : n ≤ fuel) (hoff : off ≤ MAXFILE * BSIZE)
    (h : iappendFrom p fuel pos n off din st = some (off', y, st')) : off + n ≤ MAXFILE * BSIZE := by
  induction fuel generalizing pos n off din st with
  | zero => omega
  | succ fuel ih =>
    rw [iappendFrom] at h
    by_cases hn : n = 0
    · omega
    rw [if_neg hn] at h
    by_cases hmax : MAXFILE ≤ off / BSIZE
    · rw [if_pos hmax] at h
      cases h
    rw [if_neg hmax] at h
    obtain ⟨⟨z, st1⟩, -, h⟩ := bind_eq_some_iff.mp h
    unfold BSIZE MAXFILE NDIRECT NINDIRECT BSIZE at *
    have hle := ih (by omega) (by omega) h
    omega

/-- The blocks of the largest file. -/
theorem nblocks_le {size : Nat} (h : size ≤ MAXFILE * BSIZE) : nblocks size ≤ 269 := by
  have hmax : nblocks (MAXFILE * BSIZE) = 269 := rfl
  rw [← hmax]
  exact nblocks_mono h

/-- A file that `iappend` accepted, piece by piece, is not too long. -/
theorem appendAll_bound {type : Nat} {old : List UInt8} (hi : i < mkfsSb.ninodes) (ht : type ≠ 0)
    (chunks : List (List UInt8)) (h : Made D none st) (hS : Stores D st i type old)
    (hmax : old.length ≤ MAXFILE * BSIZE) (hroom : st.freeblock + 271 ≤ nblocks old.length + FSSIZE)
    (hrun : chunks.foldlM (fun st c => st.iappend i c) st = some st') :
    (old ++ chunks.flatten).length ≤ MAXFILE * BSIZE := by
  induction chunks generalizing D st old with
  | nil =>
    rw [flatten_nil, append_nil]
    exact hmax
  | cons c cs ih =>
    rw [foldlM_cons] at hrun
    obtain ⟨st1, hc, hrun⟩ := bind_eq_some_iff.mp hrun
    have hsize : (D i).size = old.length := by rw [hS.inode]
    -- the piece fits in the file
    have hfit : (old ++ c).length ≤ MAXFILE * BSIZE := by
      have hc' := hc
      unfold iappend at hc'
      rw [h.rinode hi] at hc'
      obtain ⟨din, hdin, hc'⟩ := bind_eq_some_iff.mp hc'
      obtain rfl := some.inj hdin
      obtain ⟨⟨off, y, st2⟩, hloop, -⟩ := bind_eq_some_iff.mp hc'
      rw [hsize] at hloop
      rw [length_append]
      exact iappendFrom_bound le_rfl hmax hloop
    -- and needs no more blocks than the largest file
    have hmost := nblocks_le hfit
    obtain ⟨D1, st2, hrun', hW, hS', hcount⟩ := iappend_spec h hi ht hS c hfit (by omega)
    obtain rfl : st1 = st2 := some.inj (hc.symm.trans hrun')
    rw [flatten_cons, ← append_assoc]
    exact ih hW.made hS' hfit (by omega) hrun

/-- The blocks that the files need, with those of the root and the metadata. -/
def needed (files : List Input) : Nat :=
  mkfsSb.data + fileBlocks files + nblocks (DIRENT * (files.length + 2))

theorem needed_append (files rest : List Input) : needed files ≤ needed (files ++ rest) := by
  have hmono := @nblocks_mono (DIRENT * (files.length + 2)) (DIRENT * ((files ++ rest).length + 2))
    (Nat.mul_le_mul_left _ (by rw [length_append]; omega))
  unfold needed
  rw [fileBlocks_append]
  omega

/-- A file that was added after files that fit leaves room in the image file. -/
theorem addFile_roomy {f : Input} (h : Holds files D st) (hroomy : Roomy files)
    (hcount : files.length + 3 ≤ mkfsSb.ninodes) (hfit : needed files ≤ mkfsSb.size)
    (hrun : st.addFile f = some st') : Roomy (files ++ [f]) := by
  have hlen : (files ++ [f]).length = files.length + 1 := by simp
  have hone : fileBlocks [f] = nblocks f.bytes.length := by simp [fileBlocks]
  have hsz : mkfsSb.size = 2048 := rfl
  have hS : FSSIZE = 4096 := rfl
  have hname : f.shortname ≠ none := by
    obtain ⟨name, hname, -⟩ := bind_eq_some_iff.mp hrun
    rw [hname]
    exact some_ne_none name
  -- the root grows by one entry
  have hroot : nblocks (DIRENT * (files.length + 1 + 2)) ≤ 269 := by
    have hn : mkfsSb.ninodes = 200 := rfl
    refine nblocks_le ?_
    have hm : MAXFILE * BSIZE = 274432 := rfl
    rw [hm]
    unfold DIRENT
    omega
  unfold needed at hfit
  obtain ⟨D1, st1, hrest, hO⟩ := addFile_opened h hroomy hcount hname (by omega)
  have hfree := hO.freeblock
  have hbytes : f.bytes.length ≤ MAXFILE * BSIZE := by
    have hzero : nblocks ([] : List UInt8).length = 0 := rfl
    have := appendAll_bound (by omega) (by decide) f.chunks hO.made hO.new (Nat.zero_le _) (by omega)
      (hrest.symm.trans hrun)
    rwa [nil_append] at this
  have hmost := nblocks_le hbytes
  constructor
  · omega
  · grind [Roomy]
  · grind [Roomy]
  · rw [fileBlocks_append, hlen]
    omega

/-- **A run over files whose inode numbers are in range**: the image is that of `Holds`, or blocks past
    the disk have been handed out and the files do not fit. -/
theorem addFiles_run (rest : List Input) (h : Holds files D st)
    (hroomy : Roomy files) (hcount : (files ++ rest).length + 2 ≤ mkfsSb.ninodes)
    (hfit : needed files ≤ mkfsSb.size) (hrun : rest.foldlM addFile st = some st') :
    (st'.freeblock = needed (files ++ rest)) ∨
      (mkfsSb.size < st'.freeblock ∧ mkfsSb.size < needed (files ++ rest)) := by
  induction rest generalizing files D st with
  | nil =>
    cases hrun
    rw [append_nil]
    exact .inl h.freeblock
  | cons f rest ih =>
    rw [foldlM_cons] at hrun
    obtain ⟨st1, hone, hrun⟩ := bind_eq_some_iff.mp hrun
    rw [append_cons] at hcount ⊢
    have hroomy1 := addFile_roomy h hroomy
      (by simp only [length_append, length_cons, length_nil] at hcount; omega) hfit hone
    obtain ⟨D1, st2, hone', hH⟩ := addFile_spec h hroomy1
    obtain rfl : st1 = st2 := some.inj (hone.symm.trans hone')
    by_cases hfit1 : needed (files ++ [f]) ≤ mkfsSb.size
    · exact ih hH hroomy1 hcount hfit1 hrun
    · -- the counter is past the disk, and stays there
      right
      have hgrow := (Advances.addFiles hrun).blocks
      have hmono := needed_append (files ++ [f]) rest
      have hfree : st1.freeblock = needed (files ++ [f]) := hH.freeblock
      omega

/-! ## `main` -/

/-- `main`, up to the bitmap: the counters are those that `balloc` sees. -/
def built (files : List Input) : Option Mkfs := do
  let st ← start
  let st ← files.foldlM addFile st
  st.fixRoot

theorem main_eq (files : List Input) :
    main files = (built files).bind fun st => (st.balloc st.freeblock).map Mkfs.img := by
  unfold main built
  simp only [bind_eq_bind, bind_assoc, Option.pure_def, map_eq_bind]
  rfl

/-- The three parts of a successful run. -/
theorem built_some (h : built files = some st) : ∃ D0 st0 st1, Holds [] D0 st0 ∧
    files.foldlM addFile st0 = some st1 ∧ st1.fixRoot = some st := by
  obtain ⟨D0, st0, hstart, hH0⟩ := start_spec
  unfold built at h
  rw [hstart, bind_eq_bind, bind_some] at h
  obtain ⟨st1, hloop, hfix⟩ := bind_eq_some_iff.mp h
  exact ⟨D0, st0, st1, hH0, hloop, hfix⟩

/-- The numbers that were handed out, and the inodes written under them, are inside the disk, and the
    bitmap of the image marks every block that was allocated. -/
structure Within (st : Mkfs) (img : Nat → Block) : Prop where
  inodes : ∀ i, 0 < i → i < st.freeinode → i < mkfsSb.ninodes
  blocks : ∀ b, mkfsSb.data ≤ b → b < st.freeblock → b < mkfsSb.size
  area : ∀ i, 0 < i → i < st.freeinode →
    mkfsSb.inodestart ≤ mkfsSb.iblock i ∧ mkfsSb.iblock i < mkfsSb.bmapstart
  bitmap : ∀ b, b < st.freeblock → mapBit mkfsSb img b = true

section Main

variable {files : List Input} {img : Nat → Block}

/-- The inode numbers of a successful run. -/
theorem built_freeinode (hb : built files = some st) : st.freeinode = files.length + 2 := by
  obtain ⟨D0, st0, st1, hH0, hloop, hfix⟩ := built_some hb
  have hfree : st0.freeinode = 2 := hH0.freeinode
  have h1 := (Advances.addFiles hloop).inodes
  have h2 := (Advances.fixRoot hfix).inodes
  omega

theorem fixRoot_freeblock (h : st.fixRoot = some st') : st'.freeblock = st.freeblock := by
  unfold fixRoot at h
  obtain ⟨din, -, h⟩ := bind_eq_some_iff.mp h
  exact (winode_counters h).2

/-- Its blocks are those that the files need, or both are past the disk. -/
theorem built_freeblock (hb : built files = some st) (hcount : files.length + 2 ≤ mkfsSb.ninodes) :
    st.freeblock ≤ mkfsSb.size ↔ needed files ≤ mkfsSb.size := by
  obtain ⟨D0, st0, st1, hH0, hloop, hfix⟩ := built_some hb
  have hroomy : Roomy [] := by
    constructor
    · decide
    · intro f hf
      cases hf
    · intro f hf
      cases hf
    · decide
  rw [fixRoot_freeblock hfix]
  rcases addFiles_run files hH0 hroomy hcount (by decide) hloop with heq | ⟨h1, h2⟩
  · rw [heq, nil_append]
  · exact iff_of_false (by omega) (by rw [nil_append] at h2; omega)

/-- The bitmap that `balloc` writes covers every block that was handed out. -/
theorem balloc_bitmap (h : st.balloc st.freeblock = some st') {b : Nat} (hb : b < st.freeblock) :
    mapBit mkfsSb st'.img b = true := by
  unfold balloc at h
  split at h
  · next hlt =>
    obtain rfl := some.inj h
    have hB : BSIZE * 8 = 8192 := rfl
    have hdiv : mkfsSb.bblock b = mkfsSb.bmapstart := by
      unfold Superblock.bblock BPB BSIZE
      omega
    have hmod : b % BPB = b := Nat.mod_eq_of_lt (by unfold BPB BSIZE; omega)
    rw [mapBit, hdiv, wsect_self, hmod, getBit_foldl]
    exact hb
  · cases h

/-- **A run of `mkfs` that ends well has stayed inside the disk exactly if the files fit**: two inodes
    are taken before the first file, and the blocks are those of the metadata, the root and the files. -/
theorem main_within_iff (hbuilt : built files = some st) (hmain : main files = some img) :
    Within st img ↔ files.length + 2 ≤ mkfsSb.ninodes ∧ needed files ≤ mkfsSb.size := by
  have hino := built_freeinode hbuilt
  rw [main_eq, hbuilt] at hmain
  obtain ⟨st', hballoc, rfl⟩ := map_eq_some_iff.mp hmain
  constructor
  · intro h
    have hcount : files.length + 2 ≤ mkfsSb.ninodes := h.inodes (files.length + 1) (by omega) (by omega)
    refine ⟨hcount, (built_freeblock hbuilt hcount).mp ?_⟩
    by_contra hover
    have hlast := h.blocks mkfsSb.size (by decide) (by omega)
    omega
  · rintro ⟨hcount, hneed⟩
    have hfree := (built_freeblock hbuilt hcount).mpr hneed
    constructor
    · intro i _ hi
      omega
    · intro b _ hb
      omega
    · intro i _ hi
      exact mkfsSb_wf.iblock (by omega)
    · intro b hb
      exact balloc_bitmap hballoc hb

/-- Files that leave room in the image file are accepted. -/
theorem Roomy.accepted (h : Roomy files) : ∃ st img, built files = some st ∧ main files = some img := by
  obtain ⟨D, st, img, hmain, -⟩ := main_spec h
  have hrun := hmain
  rw [main_eq] at hrun
  obtain ⟨st', hb, -⟩ := bind_eq_some_iff.mp hrun
  exact ⟨st', img, hb, hmain⟩

end Main

/-- The two files stay inside the disk. -/
theorem main_within_two : ∃ st img, built twoFiles = some st ∧ main twoFiles = some img ∧ Within st img := by
  obtain ⟨st, img, hb, hmain⟩ := twoFiles_fits.roomy.accepted
  exact ⟨st, img, hb, hmain, (main_within_iff hb hmain).mpr ⟨twoFiles_fits.count, twoFiles_fits.blocks⟩⟩

/-! ## Copies of one file -/

section Copies

variable {f : Input} {k size : Nat}

theorem needed_replicate (hsize : f.bytes.length = size) : needed (replicate k f) =
    mkfsSb.data + k * nblocks size + nblocks (DIRENT * (k + 2)) := by
  unfold needed fileBlocks
  rw [map_replicate, sum_replicate_nat, length_replicate, hsize]

theorem roomy_replicate (hname : f.shortname ≠ none) (hsize : f.bytes.length = size)
    (hmax : size ≤ MAXFILE * BSIZE) (hcount : k + 2 ≤ mkfsSb.ninodes)
    (hblocks : mkfsSb.data + k * nblocks size + nblocks (DIRENT * (k + 2)) + 2 ≤ FSSIZE) :
    Roomy (replicate k f) := by
  constructor
  · rw [length_replicate]
    exact hcount
  · intro g hg
    rw [eq_of_mem_replicate hg]
    exact hname
  · intro g hg
    rw [eq_of_mem_replicate hg, hsize]
    exact hmax
  · have hneed := needed_replicate (k := k) hsize
    unfold needed at hneed
    rw [hneed]
    exact hblocks

end Copies

/-- A file of the largest size, which `read` delivers block by block. -/
def largeFile : Input := ⟨[97], List.replicate MAXFILE (List.replicate BSIZE 0)⟩

theorem length_largeFile : largeFile.bytes.length = MAXFILE * BSIZE := by
  unfold largeFile Input.bytes
  rw [length_flatten, map_replicate, sum_replicate_nat, length_replicate]

/-- Eight files of the largest size need 2199 blocks and the disk has 2048; `mkfs` ends well. -/
theorem main_accepts_overflow : ∃ st img, built (List.replicate 8 largeFile) = some st ∧
    main (List.replicate 8 largeFile) = some img ∧ mkfsSb.size < st.freeblock ∧ ¬ Within st img := by
  have hname : largeFile.shortname ≠ none := some_ne_none _
  obtain ⟨st, img, hb, hmain⟩ := (roomy_replicate (k := 8) hname length_largeFile le_rfl
    (by decide) (by decide)).accepted
  have hover : mkfsSb.size < st.freeblock := by
    by_contra hle
    have hneed := (built_freeblock hb (by rw [length_replicate]; decide)).mp (not_lt.mp hle)
    rw [needed_replicate length_largeFile] at hneed
    exact absurd hneed (by decide)
  refine ⟨st, img, hb, hmain, hover, ?_⟩
  intro h
  exact absurd (h.blocks mkfsSb.size (by decide) hover) (lt_irrefl _)

end Mkfs

end Xv6
