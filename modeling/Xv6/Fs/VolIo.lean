/-
  READING AND WRITING FILES: `readi` and `writei`.

  Both go over a range of the file block by block, `bmap` telling them where a block is.  `writei`
  works on the inode in memory until its last step, so the loop has its own invariant, `Writing`: after
  `tot` bytes the file has exactly these bytes more, and nobody else's blocks have changed.

  A copy from user memory may stop in the middle of a block.  What it left behind is in the buffer and
  not in the log, and the file is torn from then on.
-/
import Xv6.Fs.VolInode

namespace Xv6

open Function Prog Bytes Owner

variable {dst : Dst} {a j m n tot : Nat}

/-! ## User memory -/

namespace UserMem

variable {um : UserMem}

/-- A mapped address is far below the end of the address space. -/
theorem page_lt (h : um.page (a / PGSIZE) ≠ none) : a < 274877906944 := by
  have : a / PGSIZE < 67108864 := by
    by_contra hge
    exact h (um.bound _ (not_lt.mp hge))
  unfold PGSIZE at this
  omega

/-- The addresses of a round lie on one page. -/
theorem round_page (hn : n ≤ PGSIZE - a % PGSIZE) (hj : j < n) :
    (a + j) / PGSIZE = a / PGSIZE ∧ (a + j) % PGSIZE = a % PGSIZE + j := by
  unfold PGSIZE at *
  omega

/-- `copyin` succeeds exactly if all its pages are there, and then it has copied all bytes. -/
theorem copyinFrom_spec (fuel : Nat) (dst : Bytes) (off a len : Nat) (hf : len ≤ fuel) :
    ((um.copyinFrom fuel dst off a len).2 = true ↔ ∀ j, j < len → um.page ((a + j) / PGSIZE) ≠ none) ∧
    ((um.copyinFrom fuel dst off a len).2 = true →
      (um.copyinFrom fuel dst off a len).1 = blit dst off len fun j => um.byteAt (a + j)) := by
  induction fuel generalizing dst off a len with
  | zero =>
    obtain rfl : len = 0 := by omega
    refine ⟨iff_of_true rfl fun j hj => absurd hj (Nat.not_lt_zero _), fun _ => ?_⟩
    rw [blit_zero]
    rfl
  | succ fuel ih =>
    unfold copyinFrom
    split
    · grind [blit_zero]
    next h0 =>
    cases hpg : um.page (a / PGSIZE) with
    | none =>
      refine ⟨iff_of_false (by simp) fun h => ?_, fun h => by simp at h⟩
      exact h 0 (Nat.pos_of_ne_zero h0) (by simpa using hpg)
    | some pg =>
      dsimp only
      obtain ⟨n, hn⟩ : ∃ n, n = min (PGSIZE - a % PGSIZE) len := ⟨_, rfl⟩
      rw [← hn]
      have hpos : 0 < n := by unfold PGSIZE at hn; omega
      have hle : n ≤ PGSIZE - a % PGSIZE := by omega
      have hlen : n ≤ len := by omega
      -- the next round starts where this one ends, if there is one
      have hnext : ∀ j, n ≤ j → j < len → (a / PGSIZE + 1) * PGSIZE + (j - n) = a + j := fun j h1 h2 => by
        unfold PGSIZE at *
        omega
      obtain ⟨ih1, ih2⟩ := ih (blit dst off n fun i => pg (a % PGSIZE + i)) (off + n)
        ((a / PGSIZE + 1) * PGSIZE) (len - n) (by omega)
      refine ⟨ih1.trans ⟨fun h j hj => ?_, fun h j hj => ?_⟩, fun h => ?_⟩
      · by_cases hjn : j < n
        · rw [(round_page hle hjn).1, hpg]
          simp
        · rw [← hnext j (by omega) hj]
          exact h (j - n) (by omega)
      · have := h (j + n) (by omega)
        rw [← hnext (j + n) (by omega) (by omega), Nat.add_sub_cancel] at this
        exact this
      · rw [ih2 h]
        funext q
        unfold blit
        by_cases h1 : off ≤ q ∧ q < off + n
        · rw [if_neg (by omega), if_pos h1, if_pos (by omega)]
          obtain ⟨h2, h3⟩ := round_page hle (show q - off < n by omega)
          show _ = um.byteAt (a + (q - off))
          rw [byteAt, h2, h3, hpg]
        · grind

theorem copyoutFrom_spec (fuel a len : Nat) (hf : len ≤ fuel)
    (h : ∀ j, j < len → um.page ((a + j) / PGSIZE) ≠ none) : um.copyoutFrom fuel a len = true := by
  induction fuel generalizing a len with
  | zero => rfl
  | succ fuel ih =>
    unfold copyoutFrom
    split
    · rfl
    next h0 =>
    cases hpg : um.page (a / PGSIZE) with
    | none => exact absurd (by simpa using hpg) (h 0 (Nat.pos_of_ne_zero h0))
    | some pg =>
      dsimp only
      have hpos : 0 < PGSIZE - a % PGSIZE := by unfold PGSIZE; omega
      refine ih _ _ (by omega) fun j hj => ?_
      have := h (j + min (PGSIZE - a % PGSIZE) len) (by omega)
      have he : (a / PGSIZE + 1) * PGSIZE + j = a + (j + min (PGSIZE - a % PGSIZE) len) := by
        unfold PGSIZE at *
        omega
      rw [he]
      exact this

/-- Addresses that are mapped do not wrap. -/
theorem no_wrap (h : ∀ j, j < n → um.page ((a + j) % 18446744073709551616 / PGSIZE) ≠ none) (hj : j < n) :
    (a + j) % 18446744073709551616 = a % 18446744073709551616 + j := by
  induction j with
  | zero => rfl
  | succ j ih =>
    have h1 := ih (by omega)
    have h2 := page_lt (h j (by omega))
    omega

end UserMem

namespace Src

variable {src : Src} {off : Nat} {d : Bytes}

/-- `either_copyin` of a part of what can be read. -/
theorem copy_ok (h : src.Readable n) (hm : tot + m ≤ n) : (src.copy tot d off m).2 = true := by
  cases src with
  | kernel bytes => rfl
  | user um addr =>
    have hpart : ∀ j, j < m → um.page ((addr + tot + j) % 18446744073709551616 / PGSIZE) ≠ none :=
      fun j hj => by
        rw [add_assoc]
        exact h (tot + j) (by omega)
    refine (UserMem.copyinFrom_spec m d off _ m le_rfl).1.mpr fun j hj => ?_
    rw [← UserMem.no_wrap hpart hj]
    exact hpart j hj

/-- What `either_copyin` copies. -/
theorem copy_eq (h : (src.copy tot d off m).2 = true) :
    (src.copy tot d off m).1 = blit d off m fun j => src.byte (tot + j) := by
  cases src with
  | kernel bytes => rfl
  | user um addr =>
    obtain ⟨h1, h2⟩ := @UserMem.copyinFrom_spec um m d off ((addr + tot) % 18446744073709551616) m le_rfl
    have hpages := h1.mp h
    refine (h2 h).trans ?_
    funext q
    unfold blit
    split
    · next hq =>
      have := UserMem.page_lt (hpages (q - off) (by omega))
      show um.byteAt _ = Src.byte (user um addr) (tot + (q - off))
      unfold Src.byte
      dsimp only
      rw [show (addr + (tot + (q - off))) % 18446744073709551616 =
        (addr + tot) % 18446744073709551616 + (q - off) by omega]
    · rfl

end Src

theorem Dst.copy_ok (h : dst.Writable n) (hm : tot + m ≤ n) : dst.copy tot m = true := by
  cases dst with
  | kernel => rfl
  | user um addr =>
    have hpart : ∀ j, j < m → um.page ((addr + tot + j) % 18446744073709551616 / PGSIZE) ≠ none :=
      fun j hj => by
        rw [add_assoc]
        exact h (tot + j) (by omega)
    refine UserMem.copyoutFrom_spec m _ m le_rfl fun j hj => ?_
    rw [← UserMem.no_wrap hpart hj]
    exact hpart j hj

/-! ## Reading -/

section Read

variable {sb : Superblock} {g : Goal} {t : Store} {v : Vol} {k : Nat}

/-- A block of a file is read again; what a torn file holds may be different now. -/
theorem Rep.reread (h : Rep sb t v) (hsb : sb.Wf) {i p b : Nat} {d : Block}
    (hr : Refers sb v.ino t.blk (i, p) b) (hp : p ≠ NDIRECT) (hd : ¬ t.taint b → d = t.blk b) :
    Rep sb { t with blk := update t.blk b d } v := by
  by_cases hT : t.taint b
  · have hdata := (h.fs.refers_data hr).1
    have hne : ∀ c, c ≠ b → update t.blk b d c = t.blk c := fun c hc =>
      update_of_ne hc ..
    have hfs : Fs sb v.ino none (fun _ => False) { t with blk := update t.blk b d } := by
      refine h.fs.change (fun c hc => hne c ?_) (fun _ => id) rfl hsb
      rintro rfl
      rcases hc with hc | ⟨j, hj⟩
      · omega
      · exact hp (Prod.mk.inj (h.fs.owned.inj hr hj)).2
    have haddr : ∀ j, j < sb.ninodes → (v.ino j).type ≠ 0 → ∀ q,
        addrAt (update t.blk b d) (v.ino j) q = addrAt t.blk (v.ino j) q := fun j hj ht q =>
      addrAt_congr fun hx => hne _ fun he =>
        hp (Prod.mk.inj (h.fs.owned.inj hr (he ▸ refers_indirect hj ht hx))).2
    refine ⟨hfs, h.ok, fun j q hj ht hq => (haddr j hj ht q).trans (h.addr j q hj ht hq),
      fun j o hj ht ho hTj => ?_, fun j q c hc hTc => ?_, h.mem, h.held, h.out, h.lh, ?_⟩
    · rw [← h.byte j o hj ht ho hTj]
      refine content_congr (haddr j hj ht _) (hne _ fun he => hTj ?_)
      exact h.torn j _ b (he ▸ (h.refers_byte hj ht ho).2) hT
    · grind [Rep, Refers]
    · exact le_trans h.free (freeBlocks_update (.inr hdata) d)
  · rw [hd hT, update_eq_self]
    exact h

/-- The bytes of one round lie in one block. -/
theorem round_block {o : Nat} (hm : m ≤ BSIZE - o % BSIZE) (hj : j < m) :
    (o + j) / BSIZE = o / BSIZE ∧ (o + j) % BSIZE = o % BSIZE + j := by
  unfold BSIZE at *
  omega

theorem wp_readLoop (hsb : sb.Wf) (hR : Rep sb t v) (hk : v.Held k) (hbuf : g.total → v.lh < NBUF)
    {off fuel : Nat} {out : Bytes} (hn : off + n ≤ (v.ino (v.inum k)).size)
    (hfuel : n ≤ tot + fuel) (htot : tot ≤ n)
    (hout : ¬ v.torn (v.inum k) → ∀ o, o < tot → out o = v.byte (v.inum k) (off + o)) :
    (Code.readLoop sb k dst n fuel tot (off + tot) out).wp (Store.looks sb g)
    (fun r t' => Rep sb t' v ∧ r.1 ≤ n ∧ (dst.Writable n → r.1 = n) ∧
      (¬ v.torn (v.inum k) → ∀ o, o < r.1 → r.2 o = v.byte (v.inum k) (off + o))) t := by
  obtain ⟨hdin, htype, hi⟩ := hk.ino hR.ok
  induction fuel generalizing t tot out with
  | zero => exact ⟨hR, htot, fun _ => by show tot = n; omega, hout⟩
  | succ fuel ih =>
    unfold Code.readLoop
    split
    · next hlt =>
      obtain ⟨hbn, hr⟩ := hR.refers_byte hi htype (show off + tot < _ by omega)
      have hbuf' : g.total → t.lh.length < NBUF := fun ht => lt_of_le_of_lt hR.lh (hbuf ht)
      have hdata := (hR.fs.refers_data hr).1
      have hmeta := hsb.inode_lt
      refine wp_seq (wp_bmap_here hsb hR.fs hi htype (by rw [hR.mem]; exact hdin) hR.held hbn hbuf'
        hr.ne) ?_
      rintro b t' ⟨rfl, rfl⟩
      refine Store.look_bread hdata (not_inLog hsb (by omega))
        (fun ht => by rw [hR.held]; simpa using hbuf' ht) fun d _ hd => ?_
      have hR' := hR.reread hsb hr (place_lt hbn).2 hd
      refine Store.look_data (List.mem_cons_self ..) ?_
      rw [Store.hold_blk]
      dsimp only
      rw [update_self]
      obtain ⟨m, hm⟩ : ∃ m, m = min (n - tot) (BSIZE - (off + tot) % BSIZE) := ⟨_, rfl⟩
      have hpos : 0 < m := by unfold BSIZE at hm; omega
      have hle : m ≤ BSIZE - (off + tot) % BSIZE := by omega
      rw [← hm]
      split
      · refine Store.look_brelse ?_
        rw [add_assoc]
        refine ih hR' (by omega) (by omega) fun hT o ho => ?_
        by_cases hot : o < tot
        · rw [blit_out (.inl hot)]
          exact hout hT o hot
        · -- a byte of this block
          rw [blit_in (by omega) (by omega), hd fun hb => hT (hR.torn _ _ _ hr hb),
            ← hR.byte _ _ hi htype (by omega) hT]
          obtain ⟨h1, h2⟩ := round_block hle (show o - tot < m by omega)
          rw [show off + tot + (o - tot) = off + o by omega] at h1 h2
          rw [content, h1, h2]
      · next hc =>
        exact Store.look_brelse ⟨hR', htot, fun hw => absurd (Dst.copy_ok hw (by omega)) hc, hout⟩
    · next hge => exact ⟨hR, htot, fun _ => by show tot = n; omega, hout⟩

/-- `readi` looks, and delivers what the file holds. -/
theorem wp_readi (hsb : sb.Wf) (hR : Rep sb t v) {off : Nat}
    (hsafe : Vol.Safe sb g (.readi k dst off n) v) :
    (Code.readi sb k dst off n).wp (Store.looks sb g) (fun r t' => ∃ v',
      Vol.Effect sb g (.readi k dst off n) v r v' ∧ Rep sb t' v') t := by
  obtain ⟨hk, hbuf⟩ := hsafe
  obtain ⟨hdin, htype, hi⟩ := hk.ino hR.ok
  refine Store.look_mem ?_
  rw [hR.mem]
  dsimp only
  rw [show (v.mem.icache k).din = v.ino (v.inum k) from hdin]
  have hread : v.readable k off n = if (v.ino (v.inum k)).size < off ∨
      (off + n) % 4294967296 < off then 0 else min n ((v.ino (v.inum k)).size - off) := rfl
  split
  · next hno =>
    rw [if_pos hno] at hread
    refine ⟨v, ⟨?_, fun _ => ?_, fun _ o ho => absurd ho (Nat.not_lt_zero _), rfl⟩, hR⟩
    · rw [hread]
    · rw [hread]
  · next hgo =>
    rw [if_neg hgo] at hread
    have hsame : (if (v.ino (v.inum k)).size < off + n then (v.ino (v.inum k)).size - off else n) =
        v.readable k off n := by
      rw [hread]
      split <;> omega
    rw [hsame]
    have hle : off + v.readable k off n ≤ (v.ino (v.inum k)).size := by rw [hread]; omega
    refine wp_mono (wp_readLoop hsb hR hk hbuf hle (by omega) (Nat.zero_le _)
      fun _ o ho => absurd ho (Nat.not_lt_zero _)) ?_
    rintro r t' ⟨hR', h1, h2, h3⟩
    exact ⟨v, ⟨h1, h2, h3, rfl⟩, hR'⟩

theorem readi_served (hsb : sb.Wf) (k : Nat) (dst : Dst) (off n : Nat) :
    Served sb g (.readi k dst off n) := fun _ _ hR hsafe => wp_of_only (wp_readi hsb hR hsafe)

end Read

end Xv6
