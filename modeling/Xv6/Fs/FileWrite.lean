/-
  WRITING A FILE: `filewrite` in rounds.

  `filewrite` cuts a request into pieces of three blocks and gives each to `writei` in a transaction of
  its own, moving the offset after each piece.  `Written v … i v'` is the volume after `i` bytes; a round
  adds one piece to it or is refused (`wp_round`), and the loop ends with all pieces written or at the
  first one that is refused (`filewriteFrom_spec`).

  Two things follow for `sys_write`, both by what a round does NOT look at.  `writei` returns the whole
  count when `copyin` stops it: the report is right exactly if the buffer can be read
  (`reported_write_iff`).  And the pieces that came before a refused one stay written: a failed call has
  changed nothing exactly if its first piece was refused (`failed_write_iff`).

  A piece that has been written is what `readi` finds (`writei_readi`), if the log has room for it.
-/
import Xv6.Fs.Icache
import Xv6.Fs.OneFile
import Xv6.Fs.Patient

namespace Xv6

open Function Option Prog Bytes OneFile Vol

/-! ## Rounds -/

/-- The most that one round writes. -/
def CHUNK : Nat := (MAXOPBLOCKS - 1 - 1 - 2) / 2 * BSIZE

/-- A round of `filewrite`'s loop: what `writei` returned. -/
def Up.filewriteRound (f : Nat) (um : UserMem) (addr i n1 : Nat) : Up Int := do
  beginOp
  let t ← tabs
  let k ← ilockPtr (t.file f).ip
  let r ← writei k (.user um ((addr + i) % 18446744073709551616)) (t.file f).off n1
  setTabs (if r > 0 then
    t.updFile f fun x => { x with off := (x.off + r.toNat) % 4294967296 } else t)
  iunlock k
  endOp
  pure r

theorem Up.filewriteFrom_succ (f : Nat) (um : UserMem) (addr n fuel i : Nat) :
    filewriteFrom f um addr n (fuel + 1) i = if i < n then do
        let r ← filewriteRound f um addr i (min (n - i) CHUNK)
        if r < 0 then pure (if i = n then (n : Int) else -1)
        else if r ≠ (min (n - i) CHUNK : Nat) then panic "short filewrite"
        else filewriteFrom f um addr n fuel (i + min (n - i) CHUNK)
      else pure (if i = n then (n : Int) else -1) := by
  rw [filewriteFrom]
  split
  · simp only [filewriteRound, Prog.bind_assoc, Prog.pure_eq, Prog.ret_bind]
    rfl
  · rfl

/-! ## The volume after some bytes -/

/-- `i` bytes of the user's buffer have been written at `off` to the file `f`, whose inode is in slot
    `k`.  What the file holds then is known as far as the buffer could be read. -/
structure Written (v : Vol) (f k : Nat) (um : UserMem) (addr off i : Nat) (v' : Vol) : Prop where
  tabs : v'.mem.tabs = v.mem.tabs.updFile f fun x => { x with off := off + i }
  inum : v'.inum k = v.inum k
  others : ∀ j, j ≠ v.inum k → v'.ino j = v.ino j ∧ v'.byte j = v.byte j ∧ (v'.torn j → v.torn j)
  type : (v'.ino (v.inum k)).type = (v.ino (v.inum k)).type
  size : (Src.user um addr).Readable i → (v'.ino (v.inum k)).size =
    if i = 0 then (v.ino (v.inum k)).size else max (v.ino (v.inum k)).size (off + i)
  bytes : (Src.user um addr).Readable i → v'.byte (v.inum k) = v.spliced k (.user um addr) off i
  torn : (Src.user um addr).Readable i → v'.torn (v.inum k) → v.torn (v.inum k)

namespace Written

variable {v v' v'' : Vol} {f k off i n1 addr : Nat} {um : UserMem}

/-- The buffer from byte `i` on. -/
theorem byte_shift (um : UserMem) (addr i j : Nat) :
    (Src.user um ((addr + i) % 18446744073709551616)).byte j = (Src.user um addr).byte (i + j) := by
  show um.byteAt _ = um.byteAt _
  congr 1
  omega

theorem readable_split (h : (Src.user um addr).Readable (i + n1)) :
    (Src.user um addr).Readable i ∧ (Src.user um ((addr + i) % 18446744073709551616)).Readable n1 := by
  constructor
  · intro j hj
    exact h j (by omega)
  · intro j hj
    have := h (i + j) (by omega)
    rwa [show ((addr + i) % 18446744073709551616 + j) % 18446744073709551616 =
      (addr + (i + j)) % 18446744073709551616 by omega]

/-- Nothing has been written yet. -/
theorem zero (hoff : (v.mem.tabs.file f).off = off) : Written v f k um addr off 0 v := by
  refine ⟨?_, rfl, fun j _ => ⟨rfl, rfl, id⟩, rfl, fun _ => (if_pos rfl).symm, fun _ => ?_, fun _ => id⟩
  · unfold Tabs.updFile
    rw [← hoff, add_zero]
    exact congrArg (fun x => { v.mem.tabs with file := x }) (update_eq_self ..).symm
  · funext o
    rw [spliced, if_neg (by omega)]

section

variable (h : Written v f k um addr off i v')
include h

/-- The inode cache and the log may change. -/
theorem congr (htabs : v''.mem.tabs = v'.mem.tabs)
    (hinum : v''.inum k = v'.inum k) (hino : v''.ino = v'.ino) (hbyte : v''.byte = v'.byte)
    (htorn : v''.torn = v'.torn) : Written v f k um addr off i v'' := by
  refine ⟨htabs.trans h.tabs, hinum.trans h.inum, ?_, ?_, ?_, ?_, ?_⟩
  · rw [hino, hbyte, htorn]
    exact h.others
  · rw [hino]
    exact h.type
  · rw [hino]
    exact h.size
  · rw [hbyte]
    exact h.bytes
  · rw [htorn]
    exact h.torn

theorem upd {g : Inode → Inode}
    (hg : (g (v'.slot k)).inum = v'.inum k) : Written v f k um addr off i (v'.upd k g) :=
  h.congr rfl ((congrArg Inode.inum (v'.upd_slot k g)).trans hg) rfl rfl rfl

theorem file : v'.mem.tabs.file f = { v.mem.tabs.file f with off := off + i } := by
  rw [h.tabs]
  exact update_self ..

/-- A piece that `writei` has accepted is added to what was written. -/
theorem add {g : Goal} {m : Nat} (hn1 : 0 < n1)
    (hw : v'.Wrote g k (.user um ((addr + i) % 18446744073709551616)) (off + i) n1 m v'')
    {tb : Tabs} (htb : tb = v'.mem.tabs.updFile f fun x => { x with off := off + i + n1 }) :
    Written v f k um addr off (i + n1) (v''.withMem { v''.mem with tabs := tb }) := by
  obtain ⟨x, a, rfl, hx, -⟩ := hw.change
  have hI := h.inum
  constructor
  · show tb = _
    rw [htb, h.tabs]
    unfold Tabs.updFile
    dsimp only
    rw [update_self, update_idem, add_assoc]
  · show ((v'.mem.setDin k x).icache k).inum = v.inum k
    rw [Mem.setDin, Mem.upd_self]
    exact hI
  · intro j hj
    have hj' : j ≠ v'.inum k := by rwa [hI]
    obtain ⟨h1, h2, h3⟩ := h.others j hj
    refine ⟨?_, ?_, fun ht => h3 ?_⟩
    · exact (update_of_ne hj' ..).trans h1
    · exact (update_of_ne hj' ..).trans h2
    · have : update v'.torn (v'.inum k) (v'.torn (v'.inum k) ∨ m < n1 ∧ ¬ g.whole) j := ht
      rwa [update_of_ne hj'] at this
  · show (update v'.ino (v'.inum k) x (v.inum k)).type = _
    rw [← hI, update_self, hx, hI]
    exact h.type
  · intro hread
    obtain ⟨hold, hnew⟩ := readable_split hread
    have hm := hw.all hnew
    have hsize := h.size hold
    show (update v'.ino (v'.inum k) x (v.inum k)).size = _
    rw [← hI, update_self, hx, hI, hm]
    show max (v'.ino (v.inum k)).size (off + i + n1) = _
    rw [hsize, if_neg (show i + n1 ≠ 0 by omega), add_assoc]
    split
    · rfl
    · omega
  · intro hread
    obtain ⟨hold, hnew⟩ := readable_split hread
    have hm := hw.all hnew
    show update v'.byte (v'.inum k) (v'.spliced k _ (off + i) m) (v.inum k) = _
    rw [← hI, update_self, hm]
    funext o
    unfold spliced
    rw [byte_shift, hI, h.bytes hold]
    unfold spliced
    -- the new piece, an old one, or what the file had there
    by_cases hnewer : off + i ≤ o ∧ o < off + i + n1
    · rw [if_pos hnewer, if_pos (by omega), show i + (o - (off + i)) = o - off by omega]
    · grind
  · intro hread
    obtain ⟨hold, hnew⟩ := readable_split hread
    have hm := hw.all hnew
    intro ht
    have ht : update v'.torn (v'.inum k) (v'.torn (v'.inum k) ∨ m < n1 ∧ ¬ g.whole) (v.inum k) := ht
    rw [← hI, update_self] at ht
    rcases ht with ht | ⟨hlt, -⟩
    · rw [hI] at ht
      exact h.torn hold ht
    · omega

end

end Written

section Rounds

variable {sb : Superblock} {v v' : Vol} {f k off i n n1 addr : Nat} {um : UserMem}

/-- **One round**: the piece is refused and nothing happens, or it is written. -/
theorem wp_round (h : Written v f k um addr off i v') (hip : (v.mem.tabs.file f).ip = some k)
    (hk : k < NINODE) (hdir : (v.ino (v.inum k)).type ≠ T_DIR) (hn1 : 0 < n1) :
    (Up.filewriteRound f um addr i n1).wp (spec sb .lenient) (fun r v'' =>
      (v'.refuses k (off + i) n1 ∧ r = -1 ∧ Written v f k um addr off i v'') ∨
      (¬ v'.refuses k (off + i) n1 ∧ r = n1 ∧ Written v f k um addr off (i + n1) v'')) v' := by
  refine ⟨fun ht => ht.elim, ?_⟩
  rintro ⟨⟩ v1 ⟨rfl, -⟩
  refine ⟨trivial, ?_⟩
  rintro t v2 ⟨⟨rfl, rfl⟩, -⟩
  have hptr : (v'.mem.tabs.file f).ip = some k := by rw [h.file, hip]
  have hoff : (v'.mem.tabs.file f).off = off + i := by rw [h.file]
  dsimp only [Prog.bind]
  rw [hptr, hoff]
  refine ⟨⟨hk, fun hb => hb.elim, fun hb => hb.elim, fun hb => hb.elim, fun ht => ht.elim⟩, ?_⟩
  rintro ⟨⟩ v3 ⟨⟨href, hlock, htype, h3⟩, -⟩
  have hw1 : Written v f k um addr off i { v' with out := v'.out + 1 } := h.congr rfl rfl rfl rfl rfl
  have hw3 : Written v f k um addr off i v3 := h3 ▸ hw1.upd rfl
  have hheld : v3.Held k := by
    subst h3
    constructor
    · exact hk
    · rw [upd_slot]
      exact href
    · rw [upd_slot]
    · rw [upd_slot]
  have hrefuses : v3.refuses k (off + i) n1 ↔ v'.refuses k (off + i) n1 := by
    subst h3
    unfold refuses
    rw [hw3.inum, h.inum]
    rfl
  have hnd : (v3.ino (v3.inum k)).type ≠ T_DIR := by
    rw [hw3.inum, hw3.type]
    exact hdir
  refine ⟨⟨hheld, fun hd => absurd hd hnd, fun ht => ht.elim, fun hb => hb.elim⟩, ?_⟩
  rintro r v4 ⟨heff, -⟩
  have heff : if v3.refuses k (off + i) n1 then r = (-1 : Int) ∧ v4 = v3
    else r = (n1 : Int) ∧ if n1 = 0 then v4 = v3 else
      ∃ m, v3.Wrote .lenient k (.user um ((addr + i) % 18446744073709551616)) (off + i) n1 m v4 := heff
  refine ⟨trivial, ?_⟩
  rintro ⟨⟩ v5 ⟨h5, -⟩
  refine ⟨⟨hk, fun hb => hb.elim⟩, ?_⟩
  rintro ⟨⟩ v6 ⟨⟨-, -, h6⟩, -⟩
  refine ⟨trivial, ?_⟩
  rintro ⟨⟩ v7 ⟨h7, -⟩
  -- unlocking and ending the transaction keep what was written
  have hdone : ∀ j, Written v f k um addr off j v5 → Written v f k um addr off j v7 := by
    intro j hj
    have hj6 : Written v f k um addr off j v6 := h6 ▸ hj.upd rfl
    subst h7
    exact hj6.congr rfl rfl rfl rfl rfl
  by_cases href : v3.refuses k (off + i) n1
  · rw [if_pos href] at heff
    obtain ⟨rfl, rfl⟩ := heff
    left
    refine ⟨hrefuses.mp href, rfl, hdone i ?_⟩
    subst h5
    refine hw3.congr ?_ rfl rfl rfl rfl
    exact hw3.tabs.trans h.tabs.symm |>.symm
  · rw [if_neg href, if_neg (by omega)] at heff
    obtain ⟨rfl, m, hwrote⟩ := heff
    right
    refine ⟨fun hx => href (hrefuses.mpr hx), rfl, hdone (i + n1) ?_⟩
    subst h5
    refine hw3.add hn1 hwrote ?_
    -- the offset stays below the largest file, and does not wrap
    have hsmall : off + i + n1 ≤ MAXFILE * BSIZE := by
      unfold refuses at href
      omega
    have hmod : (off + i + n1) % 4294967296 = off + i + n1 := by
      unfold MAXFILE NDIRECT NINDIRECT BSIZE at hsmall
      omega
    rw [if_pos (show (n1 : Int) > 0 by omega), hw3.tabs.trans h.tabs.symm]
    unfold Tabs.updFile
    dsimp only
    rw [hoff, Int.toNat_natCast, hmod]

/-- **The loop**: everything is written, or a piece was refused after those before it were written. -/
theorem filewriteFrom_spec (hip : (v.mem.tabs.file f).ip = some k) (hk : k < NINODE)
    (hdir : (v.ino (v.inum k)).type ≠ T_DIR) (fuel : Nat) :
    ∀ i v', Written v f k um addr off i v' → i ≤ n → n - i ≤ fuel →
      (Up.filewriteFrom f um addr n fuel i).wp (spec sb .lenient) (fun r v'' =>
        (r = n ∧ Written v f k um addr off n v'') ∨
        (r = -1 ∧ ∃ j, i ≤ j ∧ j < n ∧ Written v f k um addr off j v'' ∧
          (j = i ↔ v'.refuses k (off + i) (min (n - i) CHUNK)))) v' := by
  induction fuel with
  | zero =>
    intro i v' h hi hfuel
    obtain rfl : i = n := by omega
    left
    rw [if_pos rfl]
    exact ⟨rfl, h⟩
  | succ fuel ih =>
    intro i v' h hi hfuel
    rw [Up.filewriteFrom_succ]
    by_cases hlt : i < n
    · have hn1 : 0 < min (n - i) CHUNK := by
        have : 0 < CHUNK := by decide
        omega
      rw [if_pos hlt]
      refine wp_seq (wp_round h hip hk hdir hn1) ?_
      rintro r v1 (⟨href, rfl, h1⟩ | ⟨href, rfl, h1⟩)
      · rw [if_pos (by decide), if_neg (by omega)]
        right
        exact ⟨rfl, i, le_rfl, hlt, h1, iff_of_true rfl href⟩
      · grind [wp_mono]
    · obtain rfl : i = n := by omega
      rw [if_neg hlt, if_pos rfl]
      exact .inl ⟨rfl, h⟩

end Rounds

/-! ## `sys_write` -/

/-- The checks that `sys_write` and `filewrite` make before they touch the file. -/
def Mem.Denies (m : Mem) (f k : Nat) (n : Int) : Prop :=
  (m.icache k).din.perm &&& M_WRITE = 0 ∨ (m.tabs.file f).writable = false ∨ n < 0

instance (m : Mem) (f k : Nat) (n : Int) : Decidable (m.Denies f k n) := by
  unfold Mem.Denies
  infer_instance

/-- What `sys_write` does to a volume, for a file on an inode. -/
theorem wp_sysWrite {sb : Superblock} {v : Vol} {p f fd' k addr : Nat} {um : UserMem} {fd n con : Int}
    (hfd : v.mem.tabs.argfd p fd = some (fd', f)) (htype : (v.mem.tabs.file f).type = .inode)
    (hip : (v.mem.tabs.file f).ip = some k) (hk : k < NINODE)
    (hdir : (v.mem.tabs.file f).writable = true → (v.ino (v.inum k)).type ≠ T_DIR) :
    (Up.sysWrite p fd um addr n con).wp (spec sb .lenient) (fun r v' =>
      (v.mem.Denies f k n ∧ r = -1 ∧ v' = v) ∨
      (¬ v.mem.Denies f k n ∧ ((r = n ∧ Written v f k um addr (v.mem.tabs.file f).off n.toNat v') ∨
        (r = -1 ∧ ∃ j, j < n.toNat ∧ Written v f k um addr (v.mem.tabs.file f).off j v' ∧
          (j = 0 ↔ v.refuses k (v.mem.tabs.file f).off (min n.toNat CHUNK)))))) v := by
  unfold Mem.Denies
  refine ⟨trivial, ?_⟩
  rintro t v1 ⟨⟨rfl, rfl⟩, -⟩
  dsimp only [Prog.bind]
  rw [hfd]
  dsimp only
  rw [hip]
  refine ⟨trivial, ?_⟩
  rintro x v2 ⟨⟨rfl, rfl⟩, -⟩
  dsimp only [Prog.bind, Inode.fields]
  by_cases hperm : (v2.slot k).din.perm &&& M_WRITE = 0
  · rw [if_pos hperm]
    exact .inl ⟨.inl hperm, rfl, rfl⟩
  rw [if_neg hperm]
  refine ⟨trivial, ?_⟩
  rintro t v3 ⟨⟨rfl, rfl⟩, -⟩
  dsimp only [Prog.bind]
  cases hw : (v3.mem.tabs.file f).writable with
  | false => exact .inl ⟨.inr (.inl rfl), rfl, rfl⟩
  | true =>
    rw [htype]
    by_cases hn : n < 0
    · dsimp only
      rw [if_pos hn]
      exact .inl ⟨.inr (.inr hn), rfl, rfl⟩
    · dsimp only
      rw [if_neg hn]
      refine wp_mono (filewriteFrom_spec hip hk (hdir hw) n.toNat 0 v3 (.zero rfl) (Nat.zero_le _)
        le_rfl) ?_
      intro r v' hr
      right
      refine ⟨by rintro (h | h | h); exacts [hperm h, Bool.noConfusion h, hn h], ?_⟩
      rcases hr with ⟨rfl, h⟩ | ⟨rfl, j, -, hj, h, hiff⟩
      · exact .inl ⟨Int.toNat_of_nonneg (by omega), h⟩
      · exact .inr ⟨rfl, j, hj, h, hiff⟩

/-! ## Kernel states -/

namespace Kern

variable (sb : Superblock) (s s' : Kern) (f k : Nat)

/-- `r` bytes of the buffer were written to file `f`, and nothing else happened to any file. -/
structure WriteHappened (um : UserMem) (addr r : Nat) : Prop where
  data : ∀ j, j < r → ∃ pg, um.page ((addr + j) % 18446744073709551616 / PGSIZE) = some pg ∧
    s'.byteAt sb (s.mem.icache k).inum ((s.mem.tabs.file f).off + j) =
      pg ((addr + j) % 18446744073709551616 % PGSIZE)
  rest : ∀ o, o < (s.dinode sb (s.mem.icache k).inum).size →
    ¬ ((s.mem.tabs.file f).off ≤ o ∧ o < (s.mem.tabs.file f).off + r) →
    s'.byteAt sb (s.mem.icache k).inum o = s.byteAt sb (s.mem.icache k).inum o
  size : (s'.dinode sb (s.mem.icache k).inum).size =
    max (s.dinode sb (s.mem.icache k).inum).size ((s.mem.tabs.file f).off + r)
  off : (s'.mem.tabs.file f).off = (s.mem.tabs.file f).off + r
  others : ∀ i, i < sb.ninodes → i ≠ (s.mem.icache k).inum → s'.dinode sb i = s.dinode sb i ∧
    ((s.dinode sb i).type ≠ 0 → ∀ o, o < (s.dinode sb i).size → s'.byteAt sb i o = s.byteAt sb i o)

/-- The file is as it was: its size, its bytes, and the offset of the descriptor. -/
structure FileSame : Prop where
  size : (s'.dinode sb (s.mem.icache k).inum).size = (s.dinode sb (s.mem.icache k).inum).size
  bytes : ∀ o, o < (s.dinode sb (s.mem.icache k).inum).size →
    s'.byteAt sb (s.mem.icache k).inum o = s.byteAt sb (s.mem.icache k).inum o
  off : (s'.mem.tabs.file f).off = (s.mem.tabs.file f).off

/-- `writei` refuses `n` bytes at the offset of file `f`. -/
def Refuses (n : Nat) : Prop :=
  (s.dinode sb (s.mem.icache k).inum).size < (s.mem.tabs.file f).off ∨
  ((s.mem.tabs.file f).off + n) % 4294967296 < (s.mem.tabs.file f).off ∨
  MAXFILE * BSIZE < (s.mem.tabs.file f).off + n

end Kern

section Calls

variable {sb : Superblock} {s s' : Kern} {p f fd' k addr : Nat} {um : UserMem} {fd n con r : Int}

/-- What the state after `sys_write` shows. -/
theorem Kern.Shows.sysWrite {v : Vol} (hsb : sb.Wf) (hv : s.Shows sb v)
    (hfd : s.mem.tabs.argfd p fd = some (fd', f)) (ho : s.OpenInode sb f k)
    (hrun : s.syscall sb (.write p fd um addr n con) = .ok (r, s')) :
    ∃ v', s'.Shows sb v' ∧ ((v.mem.Denies f k n ∧ r = -1 ∧ v' = v) ∨ (¬ v.mem.Denies f k n ∧
        ((r = n ∧ Written v f k um addr (v.mem.tabs.file f).off n.toNat v') ∨
        (r = -1 ∧ ∃ j, j < n.toNat ∧ Written v f k um addr (v.mem.tabs.file f).off j v' ∧
          (j = 0 ↔ v.refuses k (v.mem.tabs.file f).off (min n.toNat CHUNK)))))) := by
  have hi := (ho.shown hsb hv).1
  obtain ⟨htype, hip, hk, -, -, hdir⟩ := ho
  rw [hv.mem] at hfd htype hip hdir
  rw [show (v.mem.icache k).inum = v.inum k from rfl, hv.dinode hsb hi] at hdir
  obtain ⟨v', hQ, hv'⟩ := hv.up hsb (wp_sysWrite hfd htype hip hk hdir) hrun
  exact ⟨v', hv', hQ⟩

/-- Bytes that could be read are in the file, and only they. -/
theorem Written.happened {v v' : Vol} {m : Nat} (hsb : sb.Wf) (hv : s.Shows sb v)
    (hv' : s'.Shows sb v') (htorn : ∀ i, ¬ v.torn i) (ho : s.OpenInode sb f k) (hm : 0 < m)
    (hw : Written v f k um addr (v.mem.tabs.file f).off m v')
    (hread : (Src.user um addr).Readable m) : s.WriteHappened sb s' f k um addr m := by
  have hmem := hv.mem
  obtain ⟨hi, halloc⟩ := ho.shown hsb hv
  have hsize : (v'.ino (v.inum k)).size = max (v.ino (v.inum k)).size ((v.mem.tabs.file f).off + m) := by
    rw [hw.size hread, if_neg (by omega)]
  have hbyte : ∀ o, o < (v'.ino (v.inum k)).size →
      s'.byteAt sb (v.inum k) o = v.spliced k (.user um addr) (v.mem.tabs.file f).off m o := by
    intro o ho
    rw [hv'.byteAt hsb hi (by rwa [hw.type]) ho fun ht => htorn _ (hw.torn hread ht), hw.bytes hread]
  constructor
  · intro j hj
    rw [hmem]
    have hpage := hread j hj
    obtain ⟨pg, hpg⟩ := ne_none_iff_exists'.mp hpage
    refine ⟨pg, hpg, (hbyte _ (by omega)).trans ?_⟩
    rw [spliced, if_pos (by omega), Nat.add_sub_cancel_left]
    show um.byteAt _ = _
    rw [UserMem.byteAt, hpg]
  · rw [hmem]
    intro o ho hout
    have ho : o < (v.ino (v.inum k)).size := by
      rw [← hv.dinode hsb hi]
      exact ho
    refine (hbyte o (by omega)).trans ?_
    rw [spliced, if_neg hout]
    exact (hv.byteAt hsb hi halloc ho (htorn _)).symm
  · rw [hmem]
    show (s'.dinode sb (v.inum k)).size = max (s.dinode sb (v.inum k)).size _
    rw [hv'.dinode hsb hi, hv.dinode hsb hi, hsize]
  · rw [hmem, hv'.mem, hw.file]
  · intro i hlt hne
    rw [hmem] at hne
    obtain ⟨h1, h2, h3⟩ := hw.others i hne
    exact hv.same hsb hv' hlt h1 h2 (htorn i) fun ht => htorn i (h3 ht)

/-- **A reported write happened** exactly if the buffer can be read. -/
theorem reported_write_iff (hsb : sb.Wf) (hs : s.Coherent sb)
    (hfd : s.mem.tabs.argfd p fd = some (fd', f)) (ho : s.OpenInode sb f k) (hn : 0 < n)
    (hrun : s.syscall sb (.write p fd um addr n con) = .ok (r, s')) (hr : 0 ≤ r) :
    s.WriteHappened sb s' f k um addr r.toNat ↔ (Src.user um addr).Readable n.toNat := by
  obtain ⟨v, hv, htorn⟩ := hs
  obtain ⟨v', hv', ⟨-, rfl, -⟩ | ⟨-, ⟨rfl, hw⟩ | ⟨rfl, -⟩⟩⟩ := hv.sysWrite hsb hfd ho hrun
  · exact absurd hr (by decide)
  · constructor
    · intro h j hj
      obtain ⟨pg, hpg, -⟩ := h.data j hj
      rw [hpg]
      exact some_ne_none pg
    · intro hread
      exact hw.happened hsb hv hv' htorn ho (by omega) hread
  · exact absurd hr (by decide)

/-- The file holds one byte, and one byte is written over it. -/
theorem reported_write_one : ∃ s s' : Kern, OneFile.kern 1 1 0 = .ok s ∧
    s.syscall mkfsSb (.write 0 0 onePage 0 1 0) = .ok (1, s') ∧
    s.WriteHappened mkfsSb s' 0 1 onePage 0 1 := by
  have hrun : ((write 1 1 0 onePage 0 1).map fun x => x.2.1) = some 1 := by decide +kernel
  obtain ⟨⟨s, r, s'⟩, hw, rfl⟩ := map_eq_some_iff.mp hrun
  obtain ⟨hs, hr⟩ := write_eq hw
  obtain ⟨hcoh, hopen⟩ := open_coherent (by decide) (by decide) covers_one hs
  have hfd := kern_argfd hs
  refine ⟨s, s', hs, hr, (reported_write_iff mkfsSb_wf hcoh hfd hopen (by decide) hr (by decide)).mpr ?_⟩
  intro j hj
  obtain rfl : j = 0 := by
    have : j < 1 := hj
    omega
  exact some_ne_none _

/-- Two bytes are written, the second of which is not mapped.  Both are reported, and the size of the
    file stays 1. -/
theorem reported_write_missing : ∃ s s' : Kern, s.Coherent mkfsSb ∧ s.OpenInode mkfsSb 0 1 ∧
    s.mem.tabs.argfd 0 0 = some (0, 0) ∧
    s.syscall mkfsSb (.write 0 0 onePage 4095 2 0) = .ok (2, s') ∧
    (s'.dinode mkfsSb 2).size = 1 ∧ ¬ s.WriteHappened mkfsSb s' 0 1 onePage 4095 2 := by
  have hrun : ((write 1 1 0 onePage 4095 2).map fun x =>
      (x.2.1, (x.2.2.dinode mkfsSb 2).size)) = some (2, 1) := by decide +kernel
  obtain ⟨⟨s, r, s'⟩, hw, heq⟩ := map_eq_some_iff.mp hrun
  obtain ⟨rfl, hsize⟩ := Prod.mk.inj heq
  obtain ⟨hs, hr⟩ := write_eq hw
  obtain ⟨hcoh, hopen⟩ := open_coherent (by decide) (by decide) covers_one hs
  have hmem : s.mem = openMem 1 1 0 := kern_mem hs
  have hsize : (s'.dinode mkfsSb 2).size = 1 := hsize
  refine ⟨s, s', hcoh, hopen, kern_argfd hs, hr, hsize, ?_⟩
  intro h
  have hmax := h.size
  rw [hmem] at hmax
  have hmax : (s'.dinode mkfsSb 2).size = max (s.dinode mkfsSb 2).size 2 := hmax
  rw [hsize] at hmax
  exact absurd hmax (by clear hmax; omega)

/-- **A failed write has changed nothing** exactly if it was denied or its first piece was refused. -/
theorem failed_write_iff (hsb : sb.Wf) (hs : s.Coherent sb)
    (hfd : s.mem.tabs.argfd p fd = some (fd', f)) (ho : s.OpenInode sb f k)
    (hrun : s.syscall sb (.write p fd um addr n con) = .ok (-1, s')) :
    s.FileSame sb s' f k ↔ s.mem.Denies f k n ∨ s.Refuses sb f k (min n.toNat CHUNK) := by
  obtain ⟨v, hv, htorn⟩ := hs
  obtain ⟨hi, halloc⟩ := ho.shown hsb hv
  have hmem := hv.mem
  have hrefuses : s.Refuses sb f k (min n.toNat CHUNK) ↔
      v.refuses k (v.mem.tabs.file f).off (min n.toNat CHUNK) := by
    unfold Kern.Refuses refuses
    rw [hmem, show (v.mem.icache k).inum = v.inum k from rfl, hv.dinode hsb hi]
  -- a volume with the same size and bytes shows the same file
  have hsame : ∀ {v' : Vol}, s'.Shows sb v' → (v'.ino (v.inum k)).type = (v.ino (v.inum k)).type →
      (v'.ino (v.inum k)).size = (v.ino (v.inum k)).size → v'.byte (v.inum k) = v.byte (v.inum k) →
      ¬ v'.torn (v.inum k) → (v'.mem.tabs.file f).off = (v.mem.tabs.file f).off →
      s.FileSame sb s' f k := by
    intro v' hv' htype hsize hbyte ht hoff
    constructor
    · rw [hmem, show (v.mem.icache k).inum = v.inum k from rfl, hv.dinode hsb hi, hv'.dinode hsb hi, hsize]
    · rw [hmem, show (v.mem.icache k).inum = v.inum k from rfl, hv.dinode hsb hi]
      intro o ho
      rw [hv.byteAt hsb hi halloc ho (htorn _), ← hbyte]
      exact hv'.byteAt hsb hi (by rwa [htype]) (by rwa [hsize]) ht
    · rw [hmem, hv'.mem, hoff]
  rw [hrefuses, hmem]
  obtain ⟨v', hv', ⟨hd, -, rfl⟩ | ⟨hd, hres⟩⟩ := hv.sysWrite hsb hfd ho hrun
  · exact iff_of_true (hsame hv' rfl rfl rfl (htorn _) rfl) (.inl hd)
  have hn : ¬ n < 0 := fun h => hd (.inr (.inr h))
  rcases hres with ⟨rfl, -⟩ | ⟨-, j, hj, hw, hiff⟩
  · exact absurd hn (by decide)
  constructor
  · intro hsm
    -- every piece that was written moved the offset
    have hoff := hsm.off
    rw [hv'.mem, hw.file, hmem] at hoff
    have hj0 : j = 0 := by
      have : (v.mem.tabs.file f).off + j = (v.mem.tabs.file f).off := hoff
      omega
    exact .inr (hiff.mp hj0)
  · intro h
    obtain rfl := hiff.mpr (h.resolve_left hd)
    have hnone : (Src.user um addr).Readable 0 := fun _ hj => absurd hj (Nat.not_lt_zero _)
    refine hsame hv' hw.type ((hw.size hnone).trans (if_pos rfl)) ?_ (fun ht => htorn _ (hw.torn hnone ht))
      (congrArg File.off hw.file)
    rw [hw.bytes hnone]
    funext o
    exact if_neg (by omega)

/-- The descriptor stands past the end of the file. -/
theorem failed_write_past_end : ∃ s s' : Kern, OneFile.kern 1 1 2 = .ok s ∧
    s.syscall mkfsSb (.write 0 0 onePage 0 1 0) = .ok (-1, s') ∧ s.FileSame mkfsSb s' 0 1 := by
  have hrun : ((write 1 1 2 onePage 0 1).map fun x => (x.2.1, (x.1.dinode mkfsSb 2).size)) =
    some (-1, 1) := by decide +kernel
  obtain ⟨⟨s, r, s'⟩, hw, heq⟩ := map_eq_some_iff.mp hrun
  obtain ⟨rfl, hsize⟩ := Prod.mk.inj heq
  obtain ⟨hs, hr⟩ := write_eq hw
  obtain ⟨hcoh, hopen⟩ := open_coherent (by decide) (by decide) covers_one hs
  have hfd := kern_argfd hs
  refine ⟨s, s', hs, hr, (failed_write_iff mkfsSb_wf hcoh hfd hopen hr).mpr (.inr (.inl ?_))⟩
  have hsize : (s.dinode mkfsSb 2).size = 1 := hsize
  rw [kern_mem hs]
  show (s.dinode mkfsSb 2).size < 2
  rw [hsize]
  decide

/-- The largest file, three blocks before its end: the first piece of 3073 bytes is written, the last
    byte is refused.  The call fails, the offset has moved and a byte is overwritten. -/
theorem failed_write_half_done : ∃ s s' : Kern, s.Coherent mkfsSb ∧ s.OpenInode mkfsSb 0 1 ∧
    s.mem.tabs.argfd 0 0 = some (0, 0) ∧
    s.syscall mkfsSb (.write 0 0 onePage 0 3073 0) = .ok (-1, s') ∧
    (s.mem.tabs.file 0).off = 271360 ∧ (s'.mem.tabs.file 0).off = 274432 ∧
    s.byteAt mkfsSb 2 271360 = 0 ∧ s'.byteAt mkfsSb 2 271360 = 66 ∧ ¬ s.FileSame mkfsSb s' 0 1 := by
  have hrun : ((write NPLACE (MAXFILE * BSIZE) 271360 onePage 0 3073).map fun x =>
      (x.2.1, (x.2.2.mem.tabs.file 0).off, x.1.byteAt mkfsSb 2 271360,
        x.2.2.byteAt mkfsSb 2 271360)) = some (-1, 274432, 0, 66) := by decide +kernel
  obtain ⟨⟨s, r, s'⟩, hw, heq⟩ := map_eq_some_iff.mp hrun
  obtain ⟨rfl, heq⟩ := Prod.mk.inj heq
  obtain ⟨hoff', heq⟩ := Prod.mk.inj heq
  obtain ⟨hbyte, hbyte'⟩ := Prod.mk.inj heq
  obtain ⟨hs, hr⟩ := write_eq hw
  obtain ⟨hcoh, hopen⟩ := open_coherent (by decide) (by decide) covers_all hs
  have hoff : (s.mem.tabs.file 0).off = 271360 := by
    rw [kern_mem hs]
    rfl
  have hoff' : (s'.mem.tabs.file 0).off = 274432 := hoff'
  refine ⟨s, s', hcoh, hopen, kern_argfd hs, hr, hoff, hoff', hbyte, hbyte', ?_⟩
  intro h
  have hsame := h.off
  rw [hoff, hoff'] at hsame
  exact absurd hsame (by decide)

end Calls

/-! ## Reading back -/

section ReadBack

variable {sb : Superblock} {s s' : Kern} {v v' : Vol} {k off n : Nat} {src : Src} {r : Int}

/-- The bound on the free blocks may be taken to be what the bitmap has. -/
theorem Kern.Shows.vacant (hsb : sb.Wf) (h : s.Shows sb v) :
    s.Shows sb { v with lh := s.mach.log.lh.length, free := freeBlocks sb s.mach.view } := by
  obtain ⟨-, -, -, t, ⟨⟨H, hB⟩, hq⟩, hR⟩ := h.exact
  refine ⟨t, ⟨⟨H, hB⟩, hq⟩, { hR with ok := { hR.ok with }, free := freeBlocks_mono fun c hc hf => ?_ }⟩
  have hrange := Superblock.bblock_range hc
  have hlow := hsb.inode_lt
  rw [mapBit, ← hB.view _ (hsb.not_inLog (by omega)) (.inr (hR.fs.meta_clean hrange.2))]
  exact hf

/-- The volume after `writei` has taken all `n` bytes. -/
structure Vol.Put (v : Vol) (k : Nat) (src : Src) (off n : Nat) (v' : Vol) : Prop where
  slot : ∃ x, v'.slot k = { v.slot k with din := x }
  ino : ∃ a, v'.ino (v.inum k) =
    { v.ino (v.inum k) with addrs := a, size := max (v.ino (v.inum k)).size (off + n) }
  byte : v'.byte (v.inum k) = v.spliced k src off n
  torn : ∀ i, v'.torn i → v.torn i
  others : ∀ i, i ≠ v.inum k → v'.ino i = v.ino i ∧ v'.byte i = v.byte i

theorem Vol.Put.of_effect {g : Goal} (hoff : off ≤ (v.ino (v.inum k)).size)
    (hmax : off + n ≤ MAXFILE * BSIZE) (hread : src.Readable n)
    (h : Effect sb g (.writei k src off n) v r v') : r = n ∧ v.Put k src off n v' := by
  have hb : MAXFILE * BSIZE = 274432 := rfl
  have hnot : ¬ v.refuses k off n := by
    unfold refuses
    omega
  simp only [Effect, if_neg hnot] at h
  obtain ⟨rfl, h⟩ := h
  refine ⟨rfl, ?_⟩
  by_cases hn : n = 0
  · obtain rfl : v' = v := by rwa [if_pos hn] at h
    refine ⟨⟨_, rfl⟩, ⟨(v'.ino (v'.inum k)).addrs, ?_⟩, ?_, fun _ h => h, fun _ _ => ⟨rfl, rfl⟩⟩
    · rw [Nat.max_eq_left (by omega)]
    · funext o
      rw [spliced, if_neg (by omega)]
  · rw [if_neg hn] at h
    obtain ⟨m, hw⟩ := h
    obtain ⟨x, a, rfl, hx, -⟩ := hw.change
    obtain rfl := hw.all hread
    refine ⟨⟨x, upd_slot ..⟩, ⟨x.addrs, (update_self ..).trans hx⟩, update_self .., fun i hi => ?_,
      fun i hi => ⟨update_of_ne hi .., update_of_ne hi ..⟩⟩
    have hi : update v.torn (v.inum k) (v.torn (v.inum k) ∨ m < m ∧ ¬ g.whole) i := hi
    by_cases he : i = v.inum k
    · rw [he, update_self] at hi
      rw [he]
      exact hi.resolve_right fun h => absurd h.1 (lt_irrefl m)
    · rwa [update_of_ne he] at hi

/-- What `readi` delivers of `n` bytes at `off` in a file of `size` bytes. -/
def Kern.delivered (size off n : Nat) : Nat :=
  if size < off ∨ (off + n) % 4294967296 < off then 0 else min n (size - off)

/-- **A file is an array of bytes.**  A `writei` that fits into a file puts all of the source there and
    changes no other file, and every `readi` delivers what is there then.  It comes back if the disk and
    the log have room. -/
theorem writei_readi (hsb : sb.Wf) (hs : s.Coherent sb) (hk : Icache.Held s.mem k) {i : Nat}
    (hi : (s.mem.icache k).inum = i) (hoff : off ≤ (s.dinode sb i).size)
    (hmax : off + n ≤ MAXFILE * BSIZE) (hread : src.Readable n) :
    (1 ≤ s.mach.log.outstanding → s.mach.log.lh.length + (2 * span off n + 3) < sb.nlog →
      span off n + 1 ≤ freeBlocks sb s.mach.view →
        ∃ s', s.icall sb (.writei k src off n) = .ok ((n : Int), s')) ∧
    ∀ r s', s.icall sb (.writei k src off n) = .ok (r, s') → r = (n : Int) ∧
      s'.dinode sb i = { s.dinode sb i with
        addrs := (s'.dinode sb i).addrs, size := max (s.dinode sb i).size (off + n) } ∧
      (∀ dst off' n', ∃ q s'', s'.icall sb (.readi k dst off' n') = .ok (q, s'') ∧
        (dst.Writable (Kern.delivered (s'.dinode sb i).size off' n') →
          q.1 = Kern.delivered (s'.dinode sb i).size off' n') ∧
        ∀ o, o < q.1 → q.2 o = if off ≤ off' + o ∧ off' + o < off + n then src.byte (off' + o - off)
          else s.byteAt sb i (off' + o)) ∧
      ∀ j, j < sb.ninodes → j ≠ i → s'.dinode sb j = s.dinode sb j ∧
        ((s.dinode sb j).type ≠ 0 → ∀ o, o < (s.dinode sb j).size → s'.byteAt sb j o = s.byteAt sb j o) := by
  obtain ⟨v, hv, htorn⟩ := hs
  have hmem := hv.mem
  rw [hmem] at hk
  have hk : v.Held k := ⟨hk.lt, hk.ref, hk.locked, hk.valid⟩
  obtain ⟨-, halloc, hlt⟩ := hk.ino hv.ok
  obtain rfl : v.inum k = i := by
    rw [← hi, hmem]
    rfl
  rw [hv.dinode hsb hlt] at hoff ⊢
  refine (and_iff_right_of_imp fun hback hout hroom hfree => ?_).mpr fun r s' hrun => ?_
  · obtain ⟨r, s', -, hrun, -⟩ := (hv.vacant hsb).strictly (o := .writei k src off n) hsb
      ⟨{ hk with }, fun _ => hread, fun _ => ⟨hv.exact.1 ▸ hout, hroom⟩, fun _ => hfree⟩
    obtain ⟨rfl, -⟩ := hback r s' hrun
    exact ⟨s', hrun⟩
  have hcall := hv.call (g := .lenient) (o := .writei k src off n) hsb trivial id
    ⟨hk, fun _ => hread, fun h => h.elim, fun h => h.elim⟩
  rw [hrun] at hcall
  obtain ⟨v', ⟨heff, -⟩, hv'⟩ := hcall
  obtain ⟨rfl, hp⟩ := Vol.Put.of_effect hoff hmax hread heff
  obtain ⟨x, hslot⟩ := hp.slot
  have hinum : v'.inum k = v.inum k := (congrArg Inode.inum hslot :)
  have hk' : v'.Held k := by
    refine ⟨hk.lt, ?_, ?_, ?_⟩ <;> rw [hslot]
    exacts [hk.ref, hk.locked, hk.valid]
  have hnot : ∀ j, ¬ v'.torn j := fun j hj => htorn j (hp.torn j hj)
  obtain ⟨a, hino⟩ := hp.ino
  rw [hv'.dinode hsb hlt]
  refine ⟨rfl, by rw [hino], fun dst off' n' => ?_, fun j hj hne => ?_⟩
  · obtain ⟨-, -, hlh, hexact⟩ := hv'.exact
    obtain ⟨q, s'', -, hrun', ⟨hle, hall, hbytes, -⟩, -⟩ := hexact.strictly (o := .readi k dst off' n')
      hsb ⟨{ hk' with }, fun _ => hlh⟩
    have hcount : Vol.readable { v' with lh := s'.mach.log.lh.length } k off' n' =
        Kern.delivered (v'.ino (v.inum k)).size off' n' := by
      rw [← hinum]
      rfl
    rw [hcount] at hle hall
    refine ⟨q, s'', hrun', hall, fun o ho => ?_⟩
    have hbyte : q.2 o = v'.byte (v'.inum k) (off' + o) := hbytes (hnot _) o ho
    rw [hbyte, hinum, hp.byte]
    unfold spliced
    split
    · rfl
    · -- a byte outside of what was written was there before
      next hout =>
      refine (hv.byteAt hsb hlt halloc ?_ (htorn _)).symm
      have hsize : (v'.ino (v.inum k)).size = max _ _ := congrArg Dinode.size hino
      unfold Kern.delivered at hle
      split at hle <;> omega
  · exact hv.same hsb hv' hj (hp.others j hne).1 (hp.others j hne).2 (htorn j) (hnot j)

end ReadBack

namespace OneFile

/-- The kernel has the file locked, in a transaction. -/
def locked (q size : Nat) : Option Kern := do
  let s ← (kern q size 0).toOption
  let (_, s') ← ((do Up.beginOp; Up.ilock 1 : Up Unit).run (I := Inodes) (Kern.icall mkfsSb) s).toOption
  pure s'

theorem locked_held {q size : Nat} {s : Kern} (hq : q ≤ NPLACE) (hsize : size ≤ MAXFILE * BSIZE)
    (hcover : ∀ bn, bn * BSIZE < size → place bn < q) (h : locked q size = some s) :
    s.Coherent mkfsSb ∧ Icache.Held s.mem 1 ∧ (s.mem.icache 1).inum = 2 := by
  unfold locked at h
  obtain ⟨s0, hs, h⟩ := bind_eq_some_iff.mp h
  obtain ⟨⟨u, s1⟩, hr, h⟩ := bind_eq_some_iff.mp h
  cases h
  have hs := toOption_eq_some hs
  obtain ⟨⟨v, hv, htorn⟩, -⟩ := open_coherent hq hsize hcover hs
  have hmem : v.mem = openMem q size 0 := hv.mem.symm.trans (kern_mem hs)
  have hp : (do Up.beginOp; Up.ilock 1 : Up Unit).wp (Vol.spec mkfsSb .lenient)
      (fun _ v' => v'.torn = v.torn ∧ v'.Held 1 ∧ v'.inum 1 = 2) v := by
    refine ⟨fun h => h.elim, ?_⟩
    rintro _ v1 ⟨rfl, -⟩
    refine ⟨⟨by decide, fun h => h.elim, fun h => h.elim, fun h => h.elim, fun h => h.elim⟩, ?_⟩
    rintro _ v2 ⟨⟨href, -, -, rfl⟩, -⟩
    refine ⟨rfl, ⟨by decide, ?_, ?_, ?_⟩, ?_⟩
    · rw [upd_slot]
      exact href
    · rw [upd_slot]
    · rw [upd_slot]
    · refine (congrArg Inode.inum (upd_slot ..)).trans ?_
      show (v.mem.icache 1).inum = 2
      rw [hmem]
      rfl
  obtain ⟨v', ⟨ht, hk, hi⟩, hv'⟩ := hv.up mkfsSb_wf hp (toOption_eq_some hr)
  rw [hv'.mem]
  exact ⟨⟨v', hv', ht ▸ htorn⟩, ⟨hk.lt, hk.ref, hk.locked, hk.valid⟩, hi⟩

end OneFile

/-- One byte is written over another and read back. -/
theorem writei_readi_byte : ∃ s s' s'' : Kern, ∃ q, locked 1 1 = some s ∧
    s.icall mkfsSb (.writei 1 (.kernel fun _ => 66) 0 1) = .ok ((1 : Int), s') ∧
    s'.icall mkfsSb (.readi 1 .kernel 0 1) = .ok (q, s'') ∧ q.1 = 1 ∧ q.2 0 = 66 := by
  have hrun : ((locked 1 1).bind fun s =>
      (s.icall mkfsSb (.writei 1 (.kernel fun _ => 66) 0 1)).toOption.map fun x : Int × Kern =>
        (x.1, Kern.delivered (x.2.dinode mkfsSb 2).size 0 1)) = some (1, 1) := by decide +kernel
  obtain ⟨s, hs, hrun⟩ := bind_eq_some_iff.mp hrun
  obtain ⟨⟨r, s'⟩, hr, heq⟩ := map_eq_some_iff.mp hrun
  obtain ⟨rfl, hone⟩ := Prod.mk.inj heq
  obtain ⟨hcoh, hk, hi⟩ := locked_held (by decide) (by decide) covers_one hs
  have hsrc : (Src.kernel fun _ => 66).Readable 1 := trivial
  have hr := toOption_eq_some hr
  obtain ⟨-, -, hback, -⟩ := (writei_readi mkfsSb_wf hcoh hk hi (Nat.zero_le _) (by decide)
    hsrc).2 _ s' hr
  obtain ⟨q, s'', hq, hall, hbytes⟩ := hback .kernel 0 1
  have hlen : q.1 = 1 := (hall trivial).trans hone
  exact ⟨s, s', s'', q, hs, hr, hq, hlen, hbytes 0 (by omega)⟩

/-- 28 blocks in one transaction: the log has no room for them. -/
theorem writei_too_big : ∃ s : Kern, locked 0 0 = some s ∧ s.Coherent mkfsSb ∧ Icache.Held s.mem 1 ∧
    (s.mem.icache 1).inum = 2 ∧ s.icall mkfsSb (.writei 1 (.kernel fun _ => 0) 0 (28 * BSIZE)) =
      .error (.panic "too big a transaction") := by
  have hrun : ((locked 0 0).map fun s => failsWith (s.icall mkfsSb
      (.writei 1 (.kernel fun _ => 0) 0 (28 * BSIZE))) (.panic "too big a transaction")) = some true := by
    decide +kernel
  obtain ⟨s, hs, hfails⟩ := map_eq_some_iff.mp hrun
  obtain ⟨hcoh, hk, hi⟩ := locked_held (by decide) (by decide) (fun bn h => absurd h (Nat.not_lt_zero _)) hs
  exact ⟨s, hs, hcoh, hk, hi, failsWith_eq hfails⟩

end Xv6
