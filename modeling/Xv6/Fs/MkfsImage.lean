/-
  THE IMAGE AS A WHOLE.

  `main`'s loop keeps `Holds`: the root directory stores one entry per file after "." and "..",
  inode `k + 2` stores the `k`th file, and `freeblock` counts the blocks they need (`addFile_spec`,
  `addFiles_spec`).  After the loop `main` rounds the root's size up and writes the bitmap; `Finished`
  is what the image then holds.

  The rounding adds a whole block when the entries fill their last block already, and nothing is
  allocated for it: the image is well formed exactly when they do not (`main_wellFormed_iff`).
-/
import Xv6.Fs.MkfsSpec

namespace Xv6

open Function Bytes Owner List Dinode

variable {files : List Input}

/-- What the kernel relies on: no inode lacks a block below the end of its file, no block is
    referred to twice, references stay in the data area, and the bitmap agrees with them. -/
structure WellFormed (sb : Superblock) (img : Nat → Block) : Prop where
  mapped : ∀ i, i < sb.ninodes → ∀ bn, bn < ((inodeAt sb img i).size + (BSIZE - 1)) / BSIZE →
    addrAt img (inodeAt sb img i) (place bn) ≠ 0
  distinct : ∀ i j p q, i < sb.ninodes → j < sb.ninodes → p < NPLACE → q < NPLACE →
    addrAt img (inodeAt sb img i) p ≠ 0 →
    addrAt img (inodeAt sb img i) p = addrAt img (inodeAt sb img j) q → i = j ∧ p = q
  range : ∀ i p, i < sb.ninodes → p < NPLACE → addrAt img (inodeAt sb img i) p ≠ 0 →
    sb.data ≤ addrAt img (inodeAt sb img i) p ∧ addrAt img (inodeAt sb img i) p < sb.size
  bitmap : ∀ b, b < sb.size → (mapBit sb img b = true ↔ b < sb.data ∨
    ∃ i p, i < sb.ninodes ∧ p < NPLACE ∧ addrAt img (inodeAt sb img i) p = b)

/-- The file's name in the root directory. -/
def Input.name (f : Input) : Name := f.shortname.getD []

namespace Mkfs

/-- The entries of the root directory. -/
def entries (files : List Input) : List (Nat × Name) :=
  (ROOTINO, [46]) :: (ROOTINO, [46, 46]) :: files.mapIdx fun k f => (k + 2, f.name)

/-- The root directory's bytes. -/
def rootBytes (files : List Input) : List UInt8 :=
  (entries files).flatMap fun e => toList (dirent e.1 e.2) 0 DIRENT

/-- The blocks that the files need. -/
def fileBlocks (files : List Input) : Nat := (files.map fun f => nblocks f.bytes.length).sum

/-- The files fit in the image: its inodes, the largest file, its blocks.  A name with a slash ends
    `mkfs`. -/
structure Fits (files : List Input) : Prop where
  count : files.length + 2 ≤ mkfsSb.ninodes
  names : ∀ f, f ∈ files → f.shortname ≠ none
  sizes : ∀ f, f ∈ files → f.bytes.length ≤ MAXFILE * BSIZE
  blocks : mkfsSb.data + fileBlocks files + nblocks (DIRENT * (files.length + 2)) ≤ LOGICAL_DISK_SIZE

/-- The files fit in the sectors of the image file, which has twice as many as the disk it is for. -/
structure Roomy (files : List Input) : Prop where
  count : files.length + 2 ≤ mkfsSb.ninodes
  names : ∀ f, f ∈ files → f.shortname ≠ none
  sizes : ∀ f, f ∈ files → f.bytes.length ≤ MAXFILE * BSIZE
  blocks : mkfsSb.data + fileBlocks files + nblocks (DIRENT * (files.length + 2)) + 2 ≤ FSSIZE

theorem Fits.roomy (h : Fits files) : Roomy files := by
  have hL : LOGICAL_DISK_SIZE = 2048 := rfl
  have hS : FSSIZE = 4096 := rfl
  have hblocks := h.blocks
  exact ⟨h.count, h.names, h.sizes, by omega⟩

theorem length_rootBytes (files : List Input) : (rootBytes files).length = DIRENT * (files.length + 2) := by
  simp only [rootBytes, entries, length_flatMap, map_cons, sum_cons, length_toList,
    map_const', length_mapIdx, sum_replicate_nat]
  unfold DIRENT
  omega

theorem rootBytes_concat (files : List Input) (f : Input) : rootBytes (files ++ [f]) =
      rootBytes files ++ toList (dirent (files.length + 2) f.name) 0 DIRENT := by
  simp [rootBytes, entries, mapIdx_append]

theorem fileBlocks_append (files rest : List Input) :
    fileBlocks (files ++ rest) = fileBlocks files + fileBlocks rest := by
  simp [fileBlocks]

variable {D D' D'' : Nat → Dinode} {st st' st'' : Mkfs} {i type : Nat}

/-! ## The steps of the loop -/

theorem Works.trans (h : Works D i st D' st') (h' : Works D' i st' D'' st'') : Works D i st D'' st'' :=
  ⟨h'.made, fun j hj => (h'.others j hj).trans (h.others j hj),
    h.spares.trans (h'.spares.table fun j hj => (h.others j hj).symm)⟩

/-- The pieces of a file, one after the other. -/
theorem appendAll_spec (hi : i < mkfsSb.ninodes) (ht : type ≠ 0) (chunks : List (List UInt8))
    {old : List UInt8} (h : Made D none st) (hS : Stores D st i type old)
    (hmax : (old ++ chunks.flatten).length ≤ MAXFILE * BSIZE)
    (hroom : st.freeblock + nblocks (old ++ chunks.flatten).length + 2 ≤ nblocks old.length + FSSIZE) :
    ∃ D' st', chunks.foldlM (fun st c => st.iappend i c) st = some st' ∧ Works D i st D' st' ∧
      Stores D' st' i type (old ++ chunks.flatten) ∧
      st'.freeblock + nblocks old.length = st.freeblock + nblocks (old ++ chunks.flatten).length := by
  induction chunks generalizing D st old with
  | nil =>
    rw [flatten_nil, append_nil] at *
    exact ⟨D, st, rfl, ⟨h, fun _ _ => rfl, Spares.refl D i st⟩, hS, rfl⟩
  | cons c cs ih =>
    rw [flatten_cons, ← append_assoc] at *
    have hle : (old ++ c).length ≤ (old ++ c ++ cs.flatten).length := by simp
    have hmono := nblocks_mono hle
    obtain ⟨D1, st1, hrun, hW, hS1, hcount⟩ :=
      iappend_spec h hi ht hS c (le_trans hle hmax) (by omega)
    obtain ⟨D2, st2, hrun', hW', hS2, hcount'⟩ := ih hW.made hS1 hmax (by omega)
    refine ⟨D2, st2, ?_, hW.trans hW', hS2, by omega⟩
    rw [foldlM_cons, hrun]
    exact hrun'

theorem Stores.freeinode {data : List UInt8} (h : Stores D st i type data) (n : Nat) :
    Stores D { st with freeinode := n } i type data := ⟨h.inode, h.full, h.bytes⟩

theorem ialloc_spec (type : Nat) (h : Made D none st) (hi : st.freeinode < mkfsSb.ninodes)
    (hD : D st.freeinode = zero) (ht : type < 65536) :
    ∃ D' st', st.ialloc type = some (st.freeinode, st') ∧
      Works D st.freeinode { st with freeinode := st.freeinode + 1 } D' st' ∧
      Stores D' st' st.freeinode type [] ∧ st'.freeblock = st.freeblock := by
  have hM : Made D (some st.freeinode) { st with freeinode := st.freeinode + 1 } :=
    ⟨(h.activate _).table, h.ok, h.owned, h.fresh, h.first⟩
  have hok : (newInode type).Ok := by
    constructor <;> simp [newInode, zero, M_READ, M_WRITE, ht]
  obtain ⟨st', hrun, hW, -, hfree⟩ := hM.winode hi hok fun ip c => by
    rw [refers_reset fun _ => rfl]
    refine and_iff_left_of_imp fun hr he => ?_
    exact hr.alloc (by rw [he, hD]; rfl)
  refine ⟨_, st', by rw [ialloc, hrun]; rfl, hW, ⟨?_, ⟨fun bn _ => ?_, ?_⟩,
    fun o ho => absurd ho (Nat.not_lt_zero o)⟩, hfree⟩
  · rw [update_self]
    rfl
  · rw [update_self, addrAt]
    simp [newInode, zero]
  · rw [update_self]
    simp [newInode, zero]

/-! ## The loop -/

/-- The image after `files` have been added. -/
structure Holds (files : List Input) (D : Nat → Dinode) (st : Mkfs) : Prop where
  made : Made D none st
  root : Stores D st ROOTINO T_DIR (rootBytes files)
  file : ∀ k f, files[k]? = some f → Stores D st (k + 2) T_FILE f.bytes
  rest : ∀ i, i = 0 ∨ files.length + 2 ≤ i → D i = Dinode.zero
  freeinode : st.freeinode = files.length + 2
  freeblock : st.freeblock = mkfsSb.data + fileBlocks files + nblocks (DIRENT * (files.length + 2))

theorem Roomy.of_append {files rest : List Input} (h : Roomy (files ++ rest)) : Roomy files := by
  obtain ⟨hcount, hnames, hsizes, hblocks⟩ := h
  rw [length_append] at hcount hblocks
  refine ⟨by omega, fun f hf => hnames f (mem_append_left _ hf),
    fun f hf => hsizes f (mem_append_left _ hf), ?_⟩
  have hmono := @nblocks_mono (DIRENT * (files.length + 2))
    (DIRENT * (files.length + rest.length + 2)) (Nat.mul_le_mul_left _ (by omega))
  rw [fileBlocks_append] at hblocks
  omega

/-- The root directory stays far below the largest file. -/
theorem Roomy.root_size (h : Roomy files) : (rootBytes files).length ≤ MAXFILE * BSIZE := by
  have hcount := h.count
  have hn : mkfsSb.ninodes = 200 := rfl
  have hm : MAXFILE * BSIZE = 274432 := rfl
  rw [length_rootBytes, hm]
  unfold DIRENT
  omega

/-- The image in the middle of `addFile`: `f` has an inode and an entry in the root, and no bytes. -/
structure Opened (files : List Input) (f : Input) (D : Nat → Dinode) (st : Mkfs) : Prop where
  made : Made D none st
  root : Stores D st ROOTINO T_DIR (rootBytes (files ++ [f]))
  file : ∀ k g, files[k]? = some g → Stores D st (k + 2) T_FILE g.bytes
  new : Stores D st (files.length + 2) T_FILE []
  rest : ∀ i, i = 0 ∨ files.length + 3 ≤ i → D i = Dinode.zero
  freeinode : st.freeinode = files.length + 3
  freeblock : st.freeblock = mkfsSb.data + fileBlocks files + nblocks (DIRENT * (files.length + 1 + 2))

/-- The files before the one that is added. -/
theorem Roomy.size_of (h : Roomy files) {k : Nat} {g : Input}
    (hg : files[k]? = some g) : k < files.length ∧ g.bytes.length ≤ MAXFILE * BSIZE :=
  ⟨(List.getElem?_eq_some_iff.mp hg).1, h.sizes g (List.mem_of_getElem? hg)⟩

/-- The inode and the entry of one file more. -/
theorem addFile_opened {f : Input} (h : Holds files D st) (hroomy : Roomy files)
    (hcount : files.length + 3 ≤ mkfsSb.ninodes) (hname : f.shortname ≠ none)
    (hblocks : mkfsSb.data + fileBlocks files + nblocks (DIRENT * (files.length + 1 + 2)) + 2 ≤ FSSIZE) :
    ∃ D' st', st.addFile f = f.chunks.foldlM (fun st c => st.iappend (files.length + 2) c) st' ∧
      Opened files f D' st' := by
  obtain ⟨name, hname⟩ := Option.ne_none_iff_exists'.mp hname
  have hfname : f.name = name := by rw [Input.name, hname]; rfl
  have hlen : (files ++ [f]).length = files.length + 1 := by simp
  have hfree := h.freeblock
  have hdir : T_DIR ≠ 0 := by decide
  have hfile : T_FILE ≠ 0 := by decide
  have hroot_lt : ROOTINO < mkfsSb.ninodes := by decide
  have hroot : (rootBytes (files ++ [f])).length ≤ MAXFILE * BSIZE := by
    have hn : mkfsSb.ninodes = 200 := rfl
    have hm : MAXFILE * BSIZE = 274432 := rfl
    rw [length_rootBytes, hlen, hm]
    unfold DIRENT
    omega
  -- the inode
  obtain ⟨D1, st1, hrun1, hW1, hS1, hfree1⟩ := ialloc_spec T_FILE h.made
    (by rw [h.freeinode]; omega) (h.rest _ (.inr (Nat.le_of_eq h.freeinode.symm))) (by decide)
  rw [h.freeinode] at hrun1 hW1 hS1
  have hroot1 := (h.root.freeinode (files.length + 2 + 1)).kept hW1 (show 1 ≠ _ by omega) hroot_lt
    hdir hroomy.root_size
  have hfile1 : ∀ k g, files[k]? = some g → Stores D1 st1 (k + 2) T_FILE g.bytes := by
    intro k g hg
    obtain ⟨hk, hsz⟩ := hroomy.size_of hg
    exact ((h.file k g hg).freeinode (files.length + 2 + 1)).kept hW1 (by omega) (by omega) hfile hsz
  -- its entry
  have hgrow := rootBytes_concat files f
  rw [hfname] at hgrow
  obtain ⟨D2, st2, hrun2, hW2, hroot2, hcount2⟩ := iappend_spec hW1.made hroot_lt hdir hroot1
    (toList (dirent (files.length + 2) name) 0 DIRENT) (by rw [← hgrow]; exact hroot)
    (by rw [← hgrow, length_rootBytes, length_rootBytes, hlen]; omega)
  rw [← hgrow] at hroot2 hcount2
  rw [length_rootBytes, length_rootBytes, hlen] at hcount2
  refine ⟨D2, st2, ?_, hW2.made, hroot2, fun k g hg => ?_, ?_, fun j hj => ?_, ?_, by omega⟩
  · simp only [addFile, hname, hrun1, addEntry, hrun2, Option.bind_eq_bind, Option.bind_some]
  · obtain ⟨hk, hsz⟩ := hroomy.size_of hg
    exact (hfile1 k g hg).kept hW2 (by unfold ROOTINO; omega) (by omega) hfile hsz
  · exact hS1.kept hW2 (by unfold ROOTINO; omega) (by omega) hfile (Nat.zero_le _)
  · rw [hW2.others j (by unfold ROOTINO; omega), hW1.others j (by omega)]
    exact h.rest j (by omega)
  · rw [hW2.spares.freeinode, hW1.spares.freeinode]

/-- One file more: an inode, an entry in the root, and the bytes. -/
theorem addFile_spec {f : Input} (h : Holds files D st) (hfit : Roomy (files ++ [f])) :
    ∃ D' st', st.addFile f = some st' ∧ Holds (files ++ [f]) D' st' := by
  have hlen : (files ++ [f]).length = files.length + 1 := by simp
  have hcount := hfit.count
  have hblocks := hfit.blocks
  rw [fileBlocks_append, hlen] at hblocks
  rw [hlen] at hcount
  have hone : fileBlocks [f] = nblocks f.bytes.length := by simp [fileBlocks]
  have hzero : nblocks ([] : List UInt8).length = 0 := rfl
  have hdir : T_DIR ≠ 0 := by decide
  have hfile : T_FILE ≠ 0 := by decide
  obtain ⟨D2, st2, hrun, hO⟩ := addFile_opened h hfit.of_append (by omega) (hfit.names f (by simp))
    (by omega)
  have hfree := hO.freeblock
  -- its bytes
  obtain ⟨D3, st3, hrun3, hW3, hS3, hcount3⟩ := appendAll_spec (by omega) hfile f.chunks hO.made hO.new
    (by rw [nil_append]; exact hfit.sizes f (by simp))
    (by rw [nil_append]; change _ + nblocks f.bytes.length + 2 ≤ _; omega)
  rw [nil_append] at hS3 hcount3
  change st3.freeblock + _ = st2.freeblock + nblocks f.bytes.length at hcount3
  refine ⟨D3, st3, hrun.trans hrun3, hW3.made,
    hO.root.kept hW3 (by unfold ROOTINO; omega) (by decide) hdir hfit.root_size,
    fun k g hg => ?_, fun j hj => ?_, ?_, ?_⟩
  · rw [List.getElem?_append] at hg
    split at hg
    · next hk =>
      have hsz := (hfit.of_append.size_of hg).2
      exact (hO.file k g hg).kept hW3 (by omega) (by omega) hfile hsz
    · next hk =>
      obtain ⟨hk', hg'⟩ := List.getElem?_eq_some_iff.mp hg
      obtain rfl : k = files.length := by
        have : ([f] : List Input).length = 1 := rfl
        omega
      simp only [Nat.sub_self, getElem_cons_zero] at hg'
      exact hg' ▸ hS3
  · rw [hlen] at hj
    rw [hW3.others j (by omega)]
    exact hO.rest j (by omega)
  · rw [hW3.spares.freeinode, hO.freeinode, hlen]
  · rw [fileBlocks_append, hlen]
    omega

theorem addFiles_spec (rest : List Input) (h : Holds files D st) (hfit : Roomy (files ++ rest)) :
    ∃ D' st', rest.foldlM addFile st = some st' ∧ Holds (files ++ rest) D' st' := by
  induction rest generalizing files D st with
  | nil => exact ⟨D, st, rfl, by rwa [append_nil]⟩
  | cons f rest ih =>
    rw [append_cons] at hfit ⊢
    obtain ⟨D1, st1, hrun, hH⟩ := addFile_spec h hfit.of_append
    obtain ⟨D2, st2, hrun', hH'⟩ := ih hH hfit
    refine ⟨D2, st2, ?_, hH'⟩
    rw [foldlM_cons, hrun]
    exact hrun'

/-- The blank image has no inodes and no blocks. -/
theorem blank_made : Made (fun _ => zero) none blank := by
  have hzero : ∀ b, b ≠ 1 → blank.img b = fun _ => 0 := fun b hb => by
    simp [blank, hb]
  refine ⟨fun i hi _ => ?_, fun _ _ => zero_ok, ⟨fun hr => absurd rfl hr.alloc, fun b => ?_,
    fun hr => absurd rfl hr.alloc⟩, fun b hb => hzero b ?_, fun _ _ => rfl⟩
  · have hlo := (mkfsSb_wf.iblock hi).1
    have h32 : mkfsSb.inodestart = 32 := rfl
    rw [hzero _ (by omega), get_zero]
  · exact ⟨.inl, fun h => h.elim id fun ⟨_, hr⟩ => absurd rfl hr.alloc⟩
  · rintro rfl
    exact absurd hb (by decide)

/-- The root directory with "." and "..". -/
theorem start_spec : ∃ D st, start = some st ∧ Holds [] D st := by
  have hdir : T_DIR ≠ 0 := by decide
  have hroot_lt : ROOTINO < mkfsSb.ninodes := by decide
  have hd : mkfsSb.data = 46 := by decide
  have hL : FSSIZE = 4096 := rfl
  obtain ⟨D1, st1, hrun1, hW1, hS1, hfree1⟩ := ialloc_spec T_DIR blank_made (by decide) rfl (by decide)
  have hf : blank.freeinode = ROOTINO := rfl
  have hb : blank.freeblock = mkfsSb.data := rfl
  have h16 : nblocks 16 = 1 := rfl
  have h32 : nblocks (16 + 16) = 1 := rfl
  have hzero : nblocks ([] : List UInt8).length = 0 := rfl
  have hlen : ∀ inum name, (toList (dirent inum name) 0 DIRENT).length = 16 := fun _ _ =>
    length_toList ..
  have hm : MAXFILE * BSIZE = 274432 := rfl
  rw [hf] at hrun1 hW1 hS1
  obtain ⟨D2, st2, hrun2, hW2, hS2, hcount2⟩ := iappend_spec hW1.made hroot_lt hdir hS1
    (toList (dirent ROOTINO [46]) 0 DIRENT) (by rw [nil_append, hlen]; omega)
    (by rw [nil_append, hlen]; omega)
  rw [nil_append] at hS2 hcount2
  rw [hlen] at hcount2
  obtain ⟨D3, st3, hrun3, hW3, hS3, hcount3⟩ := iappend_spec hW2.made hroot_lt hdir hS2
    (toList (dirent ROOTINO [46, 46]) 0 DIRENT) (by rw [length_append, hlen, hlen]; omega)
    (by rw [length_append, hlen, hlen]; omega)
  rw [length_append, hlen, hlen] at hcount3
  refine ⟨D3, st3, ?_, hW3.made, ?_, fun k f hk => ?_, fun j hj => ?_, ?_, ?_⟩
  · simp only [start, hrun1, addEntry, hrun2, hrun3, Option.bind_eq_bind, Option.bind_some, if_true]
  · simpa [rootBytes, entries] using hS3
  · cases hk
  · grind [Works, ROOTINO]
  · rw [hW3.spares.freeinode, hW2.spares.freeinode, hW1.spares.freeinode]
    rfl
  · show _ = mkfsSb.data + 0 + nblocks (16 + 16)
    omega

/-! ## The last two writes -/

/-- The root's size, rounded up to whole blocks. -/
def rounded (n : Nat) : Nat := (n / BSIZE + 1) * BSIZE

/-- What the image holds after `main`: the inodes, but for the root's size; the blocks of the files;
    the bitmap; and, before the inodes, what it started with. -/
structure Finished (files : List Input) (D : Nat → Dinode) (st : Mkfs) (img : Nat → Block) :
    Prop where
  holds : Holds files D st
  root : inodeAt mkfsSb img ROOTINO = { D ROOTINO with size := rounded (D ROOTINO).size }
  inode : ∀ i, i < mkfsSb.ninodes → i ≠ ROOTINO → inodeAt mkfsSb img i = D i
  blocks : ∀ b, mkfsSb.data ≤ b → img b = st.img b
  bitmap : ∀ b, b < mkfsSb.size → (mapBit mkfsSb img b = true ↔ b < st.freeblock)
  first : ∀ b, b < mkfsSb.inodestart → img b = blank.img b

/-- The bitmap block: by induction on the number of bits set. -/
theorem getBit_foldl (used b : Nat) :
    getBit ((range used).foldl setBit fun _ => 0) b = true ↔ b < used := by
  induction used with
  | zero => simp [getBit]
  | succ used ih =>
    rw [range_succ, foldl_append, foldl_cons, foldl_nil]
    by_cases hb : b = used
    · subst hb
      exact iff_of_true (getBit_setBit ..) (Nat.lt_succ_self b)
    · rw [getBit_setBit_ne hb, ih]
      omega

theorem main_spec (hfit : Roomy files) : ∃ D st img, main files = some img ∧ Finished files D st img := by
  obtain ⟨D0, st0, hstart, hH0⟩ := start_spec
  obtain ⟨D, st, hloop, hH⟩ := addFiles_spec files hH0 hfit
  rw [nil_append] at hH
  have hroot_lt : ROOTINO < mkfsSb.ninodes := by decide
  have hok := hH.made.ok ROOTINO hroot_lt
  have hsize : (D ROOTINO).size = DIRENT * (files.length + 2) := by
    rw [hH.root.inode, length_rootBytes]
  have hcount := hfit.count
  have hn : mkfsSb.ninodes = 200 := rfl
  -- the root's size
  have hok' : ({ D ROOTINO with size := rounded (D ROOTINO).size } : Dinode).Ok := by
    refine { hok with size := ?_ }
    show rounded (D ROOTINO).size < _
    rw [hsize]
    unfold rounded DIRENT BSIZE
    omega
  obtain ⟨st1, hfix, hW, hsame, hfree⟩ := (hH.made.activate ROOTINO).winode hroot_lt hok' fun ip c =>
    refers_fields (fun j => by
      by_cases hj : j = ROOTINO
      · subst hj
        rw [update_self]
        exact ⟨rfl, Iff.rfl⟩
      · rw [update_of_ne hj]
        exact ⟨rfl, Iff.rfl⟩) ip c
  have hfix' : st.fixRoot = some st1 := by
    rw [fixRoot, hH.made.rinode hroot_lt]
    exact hfix
  -- the bitmap
  have hblocks := hfit.blocks
  have hfb := hH.freeblock
  have hL : FSSIZE = 4096 := rfl
  have hB : BSIZE * 8 = 8192 := rfl
  have hbm : mkfsSb.bmapstart = 45 := rfl
  have hd : mkfsSb.data = 46 := by decide
  have h32 : mkfsSb.inodestart = 32 := rfl
  have htable : ∀ i, i < mkfsSb.ninodes → inodeAt mkfsSb (st1.wsect mkfsSb.bmapstart
      ((range st1.freeblock).foldl setBit fun _ => 0)).img i =
      update D ROOTINO { D ROOTINO with size := rounded (D ROOTINO).size } i := by
    intro i hi
    have hrange := mkfsSb_wf.iblock hi
    rw [inodeAt, wsect_ne _ _ (Nat.ne_of_lt hrange.2)]
    exact hW.made.table i hi (Option.some_ne_none i).symm
  refine ⟨D, st, (st1.wsect mkfsSb.bmapstart ((range st1.freeblock).foldl setBit
    fun _ => 0)).img, ?_, hH, ?_, fun i hi hne => ?_, fun b hb => ?_, fun b hb => ?_, fun b hb => ?_⟩
  · simp only [main, hstart, hloop, hfix', balloc, if_pos (show st1.freeblock < BSIZE * 8 by omega),
      Option.bind_eq_bind, Option.bind_some]
    rfl
  · rw [htable _ hroot_lt, update_self]
  · rw [htable _ hi, update_of_ne hne]
  · rw [wsect_ne _ _ (by omega)]
    exact hsame b hb
  · have hb' : b < 2048 := hb
    have hdiv : mkfsSb.bblock b = mkfsSb.bmapstart := by
      unfold Superblock.bblock BPB BSIZE
      omega
    have hmod : b % BPB = b := Nat.mod_eq_of_lt (by unfold BPB BSIZE; omega)
    rw [mapBit, hdiv, wsect_self, hmod, getBit_foldl, hfree]
  · rw [wsect_ne _ _ (by omega)]
    exact hW.made.first b hb

/-! ## Is it well formed? -/

/-- An inode of the table is free or stores a file. -/
theorem Holds.inode (h : Holds files D st) (hfit : Fits files) (i : Nat) :
    D i = zero ∨ ∃ type data, type ≠ 0 ∧ data.length ≤ MAXFILE * BSIZE ∧
      Stores D st i type data ∧ (i = ROOTINO → data = rootBytes files) := by
  by_cases hr : i = ROOTINO
  · subst hr
    exact .inr ⟨T_DIR, rootBytes files, by decide, hfit.roomy.root_size, h.root, fun _ => rfl⟩
  · by_cases hlt : i = 0 ∨ files.length + 2 ≤ i
    · exact .inl (h.rest i hlt)
    · obtain ⟨k, rfl⟩ : ∃ k, i = k + 2 := ⟨i - 2, by unfold ROOTINO at hr; omega⟩
      have hk : k < files.length := by omega
      refine .inr ⟨T_FILE, files[k].bytes, by decide, hfit.sizes _ (getElem_mem hk),
        h.file k _ (List.getElem?_eq_getElem hk), fun he => absurd he hr⟩

namespace Finished

variable {files : List Input} {img : Nat → Block} {p b : Nat}

section

variable (h : Finished files D st img)
include h

theorem addrs (hi : i < mkfsSb.ninodes) : (inodeAt mkfsSb img i).addrs = (D i).addrs := by
  by_cases hr : i = ROOTINO
  · subst hr
    rw [h.root]
  · rw [h.inode i hi hr]

/-- The image's inodes have the blocks that the table says. -/
theorem addr (hfit : Fits files) (hi : i < mkfsSb.ninodes) (p : Nat) :
    addrAt img (inodeAt mkfsSb img i) p = addrAt st.img (D i) p := by
  rw [addrAt_addrs (h.addrs hi)]
  refine addrAt_congr fun hx => h.blocks _ ?_
  rcases h.holds.inode hfit i with h0 | ⟨type, data, ht, -, hS, -⟩
  · rw [h0] at hx
    exact absurd rfl hx
  · refine (h.holds.made.refers_range (refers_indirect hi ?_ hx)).1
    rw [hS.inode]
    exact ht

theorem refers (hfit : Fits files) (hi : i < mkfsSb.ninodes)
    (hp : p < NPLACE) (hne : addrAt img (inodeAt mkfsSb img i) p ≠ 0) :
    Refers mkfsSb D st.img (i, p) (addrAt img (inodeAt mkfsSb img i) p) := by
  refine ⟨hi, fun ht => hne ?_, hp, (h.addr hfit hi p).symm, hne⟩
  rcases h.holds.inode hfit i with h0 | ⟨type, data, ht', -, hS, -⟩
  · rw [h.addr hfit hi, h0, addrAt]
    simp [zero]
  · refine absurd ?_ ht'
    rw [hS.inode] at ht
    exact ht

/-- The root directory has a block for each index below its end, unless its entries fill whole
    blocks: then the last block is missing. -/
theorem root_mapped (hfit : Fits files) :
    (∀ bn, bn < ((inodeAt mkfsSb img ROOTINO).size + (BSIZE - 1)) / BSIZE →
      addrAt img (inodeAt mkfsSb img ROOTINO) (place bn) ≠ 0) ↔
      DIRENT * (files.length + 2) % BSIZE ≠ 0 := by
  have hroot_lt : ROOTINO < mkfsSb.ninodes := by decide
  have hsize : (inodeAt mkfsSb img ROOTINO).size = rounded (DIRENT * (files.length + 2)) := by
    rw [h.root, h.holds.root.inode, length_rootBytes]
  have hkey : ∀ bn, bn < MAXFILE → (addrAt img (inodeAt mkfsSb img ROOTINO) (place bn) ≠ 0 ↔
      bn * BSIZE < DIRENT * (files.length + 2)) := fun bn hbn => by
    rw [h.addr hfit hroot_lt, h.holds.root.full.blocks bn hbn, length_rootBytes]
  have hcount := hfit.count
  have hn : mkfsSb.ninodes = 200 := rfl
  have hM : MAXFILE = 268 := rfl
  rw [hsize]
  unfold rounded
  unfold DIRENT BSIZE at *
  constructor
  · intro hall
    have hlast := (hkey (16 * (files.length + 2) / 1024) (by omega)).mp (hall _ (by omega))
    omega
  · intro hmod bn hbn
    exact (hkey bn (by omega)).mpr (by omega)

theorem wellFormed_iff (hfit : Fits files) :
    WellFormed mkfsSb img ↔ DIRENT * (files.length + 2) % BSIZE ≠ 0 := by
  have hroot_lt : ROOTINO < mkfsSb.ninodes := by decide
  rw [← h.root_mapped hfit]
  refine ⟨fun hwf => hwf.mapped ROOTINO hroot_lt, fun hroot => ⟨fun i hi bn hbn => ?_, ?_, ?_, ?_⟩⟩
  · by_cases hr : i = ROOTINO
    · subst hr
      exact hroot bn hbn
    · rw [h.inode i hi hr] at hbn
      rw [h.addr hfit hi]
      rcases h.holds.inode hfit i with h0 | ⟨type, data, -, hmax, hS, -⟩
      · rw [h0] at hbn
        exact absurd hbn (Nat.not_lt_zero bn)
      · rw [hS.inode] at hbn
        dsimp only at hbn
        unfold BSIZE at hbn hmax
        exact (hS.full.blocks bn (by omega)).mpr (by unfold BSIZE; omega)
  · intro i j p q hi hj hp hq hne he
    have hr := h.refers hfit hi hp hne
    have hr' := h.refers hfit hj hq (he ▸ hne)
    rw [← he] at hr'
    exact Prod.mk.inj (h.holds.made.owned.inj hr hr')
  · intro i p hi hp hne
    have hrange := h.holds.made.refers_range (h.refers hfit hi hp hne)
    refine ⟨hrange.1, lt_of_lt_of_le hrange.2 ?_⟩
    rw [h.holds.freeblock]
    exact hfit.blocks
  · intro b hb
    rw [h.bitmap b hb, h.holds.made.owned.used_iff b]
    refine or_congr_right' fun hlow => ?_
    constructor
    · rintro ⟨⟨i, p⟩, hr⟩
      exact ⟨i, p, hr.inum, hr.place, (h.addr hfit hr.inum p).trans hr.addr⟩
    · rintro ⟨i, p, hi, hp, rfl⟩
      refine ⟨(i, p), h.refers hfit hi hp fun h0 => hlow ?_⟩
      rw [h0]
      decide

end

end Finished

/-- For every list of files that fits, `mkfs` writes an image, and it is well formed exactly if the
    root's entries do not fill whole blocks. -/
theorem main_wellFormed_iff (files : List Input) (hfit : Fits files) : ∃ img, main files = some img ∧
      (WellFormed mkfsSb img ↔ DIRENT * (files.length + 2) % BSIZE ≠ 0) := by
  obtain ⟨D, st, img, hmain, hF⟩ := main_spec hfit.roomy
  exact ⟨img, hmain, hF.wellFormed_iff hfit⟩

/-- A short file, and one of 14 blocks, which `read` delivers one by one: it has an indirect block. -/
def twoFiles : List Input := [⟨[97], [[104, 105]]⟩, ⟨[98], List.replicate 14 (List.replicate BSIZE 7)⟩]

theorem twoFiles_fits : Fits twoFiles :=
  ⟨by decide, by decide, by decide +kernel, by decide +kernel⟩

/-- The two files, with the data, the indirect block and the root, are a well-formed image. -/
theorem main_wellFormed_two : Fits twoFiles ∧ ∃ img, main twoFiles = some img ∧ WellFormed mkfsSb img := by
  obtain ⟨img, hmain, hwf⟩ := main_wellFormed_iff twoFiles twoFiles_fits
  exact ⟨twoFiles_fits, img, hmain, hwf.mpr (by decide)⟩

/-- `n` empty files with names of two letters. -/
def emptyFiles (n : Nat) : List Input := (List.range n).map fun k => ⟨[97, UInt8.ofNat (65 + k)], []⟩

theorem emptyFiles_fits {n : Nat} (hn : n ≤ 62) : Fits (emptyFiles n) := by
  have hlen : (emptyFiles n).length = n := by simp [emptyFiles]
  have hzero : fileBlocks (emptyFiles n) = 0 := by
    have hempty : nblocks 0 = 0 := rfl
    simp [fileBlocks, emptyFiles, Input.bytes, comp_def, hempty, map_const']
  have hname : ∀ k, k < 62 → (⟨[97, UInt8.ofNat (65 + k)], []⟩ : Input).shortname ≠ none := by decide
  have hmem : ∀ f, f ∈ emptyFiles n → ∃ k, k < n ∧ ⟨[97, UInt8.ofNat (65 + k)], []⟩ = f := by
    intro f hf
    obtain ⟨k, hk, he⟩ := mem_map.mp hf
    exact ⟨k, mem_range.mp hk, he⟩
  refine ⟨?_, fun f hf => ?_, fun f hf => ?_, ?_⟩
  · rw [hlen]
    exact le_trans (Nat.add_le_add_right hn 2) (by decide)
  · obtain ⟨k, hk, rfl⟩ := hmem f hf
    exact hname k (by omega)
  · obtain ⟨k, -, rfl⟩ := hmem f hf
    exact Nat.zero_le _
  · have hmono : nblocks (DIRENT * (n + 2)) ≤ nblocks (DIRENT * 64) :=
      nblocks_mono (Nat.mul_le_mul_left _ (by omega))
    have hone : nblocks (DIRENT * 64) = 1 := rfl
    have hd : mkfsSb.data = 46 := by decide
    have hL : LOGICAL_DISK_SIZE = 2048 := rfl
    rw [hzero, hlen]
    omega

/-- With 62 files the root's last block is missing. -/
theorem main_hole : Fits (emptyFiles 62) ∧ ∃ img, main (emptyFiles 62) = some img ∧
    ¬ WellFormed mkfsSb img := by
  obtain ⟨D, st, img, hmain, hF⟩ := main_spec (emptyFiles_fits (Nat.le_refl 62)).roomy
  refine ⟨emptyFiles_fits (Nat.le_refl 62), img, hmain, fun hwf => ?_⟩
  exact absurd ((hF.wellFormed_iff (emptyFiles_fits (Nat.le_refl 62))).mp hwf) (by decide)

end Mkfs

end Xv6
