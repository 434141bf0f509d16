/-
  THE REDO LOG, abstractly: a disk is a function from block numbers to blocks, a program's effect
  on it is the LIST OF BLOCK WRITES it issues, and a crash keeps a PREFIX of that list.

  A redo log keeps a header block at `start` and `cap` log blocks after it.  A commit of the blocks
  `l` with contents `v` issues

      log writes  ++  header naming l  ++  home writes  ++  header naming nothing

  and recovery copies the blocks the header names from the log to their homes and then clears the
  header.  `replay d` is the disk recovery would produce; the whole argument is that `replay` is the
  disk's MEANING: every write except the committing header write leaves `replay`'s home blocks
  alone (`replay_log_write`, `replay_install`, `replay_clear`), so a crash anywhere — inside a
  commit, inside recovery, inside the recovery of that recovery — is invisible to it.

  The header's encoding is a parameter: any `enc`/`dec` pair that round-trips lists within `cap`.
-/
import Mathlib.Logic.Function.Basic
import Mathlib.Data.List.TakeDrop

namespace RedoLog

open Function List

variable {β : Type}

variable {d d' v : Nat → β} {b k : Nat} {l : List Nat}

/-! ## Disks and write lists -/

/-- The disk after a list of block writes. -/
def apply (d : Nat → β) (ws : List (Nat × β)) : Nat → β :=
  ws.foldl (fun d w => update d w.1 w.2) d

@[simp] theorem apply_nil (d : Nat → β) : apply d [] = d := rfl

@[simp] theorem apply_cons (d : Nat → β) (w : Nat × β) (ws : List (Nat × β)) :
    apply d (w :: ws) = apply (update d w.1 w.2) ws := rfl

theorem apply_append (d : Nat → β) (ws ws' : List (Nat × β)) :
    apply d (ws ++ ws') = apply (apply d ws) ws' := foldl_append ..

/-- A block none of the writes goes to keeps its contents. -/
theorem apply_of_notMem {ws : List (Nat × β)} (h : ∀ w ∈ ws, w.1 ≠ b) : apply d ws b = d b := by
  induction ws generalizing d with
  | nil => rfl
  | cons w ws ih =>
    rw [apply_cons, ih fun w' hw' => h w' (mem_cons_of_mem _ hw')]
    exact update_of_ne (h w (mem_cons_self ..)).symm _ _

/-- The contents after a list of writes depend on the old contents only where nothing is written. -/
theorem apply_congr {ws : List (Nat × β)}
    (h : (∀ w ∈ ws, w.1 ≠ b) → d b = d' b) : apply d ws b = apply d' ws b := by
  induction ws generalizing d d' with
  | nil => exact h fun w hw => absurd hw not_mem_nil
  | cons w ws ih =>
    rw [apply_cons, apply_cons]
    refine ih fun hws => ?_
    by_cases hb : w.1 = b
    · subst hb; rw [update_self, update_self]
    · grind

/-! ## The log -/

/-- Where the log lies and how its header block stores a list of block numbers: `enc h l` is the
    header `h` overwritten with `l`. -/
structure Layout (β : Type) where
  start : Nat
  cap : Nat
  enc : β → List Nat → β
  dec : β → List Nat
  /-- The lists a header can hold. -/
  Fits : List Nat → Prop
  fits_nil : Fits []
  fits_len : ∀ {l}, Fits l → l.length ≤ cap
  dec_enc : ∀ h {l}, Fits l → dec (enc h l) = l

variable (L : Layout β)

/-- The log's own blocks: the header and `cap` blocks after it. -/
def Layout.InLog (b : Nat) : Prop := L.start ≤ b ∧ b ≤ L.start + L.cap

instance (b : Nat) : Decidable (L.InLog b) := inferInstanceAs (Decidable (_ ∧ _))

/-- A list of home blocks that a header can name. -/
def Layout.Ok (l : List Nat) : Prop := L.Fits l ∧ ∀ b ∈ l, ¬ L.InLog b

/-- Copy the blocks of `l` into the log, from log block `k` on. -/
def Layout.logWrites (v : Nat → β) : Nat → List Nat → List (Nat × β)
  | _, [] => []
  | k, b :: bs => (L.start + 1 + k, v b) :: Layout.logWrites v (k + 1) bs

/-- Copy log blocks `k, k + 1, …` to the homes `l`. -/
def Layout.installs (d : Nat → β) : Nat → List Nat → List (Nat × β)
  | _, [] => []
  | k, b :: bs => (b, d (L.start + 1 + k)) :: Layout.installs d (k + 1) bs

/-- Everything a commit of the blocks `l` with contents `v` writes, `h` being the header block
    before it; a commit of nothing writes nothing. -/
def Layout.commitWrites (h : β) (l : List Nat) (v : Nat → β) : List (Nat × β) :=
  if l = [] then [] else
    L.logWrites v 0 l ++ [(L.start, L.enc h l)] ++ l.map (fun b => (b, v b))
      ++ [(L.start, L.enc (L.enc h l) [])]

/-- Everything recovery writes. -/
def Layout.recoverWrites (d : Nat → β) : List (Nat × β) :=
  L.installs d 0 (L.dec (d L.start)) ++ [(L.start, L.enc (d L.start) [])]

/-- The disk recovery would leave in the home blocks: the meaning of a disk. -/
def Layout.replay (d : Nat → β) : Nat → β := apply d (L.installs d 0 (L.dec (d L.start)))

/-- The disk's header names home blocks only. -/
def Layout.Good (d : Nat → β) : Prop := L.Ok (L.dec (d L.start))

/-- Equal home blocks. -/
def Layout.SameHome (d d' : Nat → β) : Prop := ∀ b, ¬ L.InLog b → d b = d' b

/-- The home blocks after committing `l` with contents `v`. -/
def overlay (d : Nat → β) (l : List Nat) (v : Nat → β) : Nat → β := fun b =>
  if b ∈ l then v b else d b

variable {L}

theorem Layout.not_inLog_start (h : ¬ L.InLog b) : b ≠ L.start := by
  rintro rfl; exact h ⟨Nat.le_refl _, Nat.le_add_right ..⟩

theorem Layout.SameHome.trans {d d' d'' : Nat → β} (h : L.SameHome d d') (h' : L.SameHome d' d'') :
    L.SameHome d d'' := fun b hb => (h b hb).trans (h' b hb)

/-! ### Where the writes go -/

theorem Layout.logWrites_inLog {w : Nat × β}
    (h : w ∈ L.logWrites v k l) : L.start + k < w.1 ∧ w.1 ≤ L.start + k + l.length := by
  induction l generalizing k with
  | nil => exact absurd h not_mem_nil
  | cons b bs ih =>
    grind [Layout.logWrites]

theorem Layout.installs_home {w : Nat × β} (h : w ∈ L.installs d k l) : w.1 ∈ l := by
  induction l generalizing k with
  | nil => exact absurd h not_mem_nil
  | cons b bs ih =>
    grind [Layout.installs]

theorem Layout.mem_installs (h : b ∈ l) : ∃ w ∈ L.installs d k l, w.1 = b := by
  induction l generalizing k with
  | nil => exact absurd h not_mem_nil
  | cons c bs ih =>
    rcases mem_cons.mp h with rfl | h
    · exact ⟨_, mem_cons_self .., rfl⟩
    · obtain ⟨w, hw, hb⟩ := ih (k := k + 1) h
      exact ⟨w, mem_cons_of_mem _ hw, hb⟩

/-- Installation reads the log blocks only. -/
theorem Layout.installs_congr
    (h : ∀ i, i < l.length → d (L.start + 1 + (k + i)) = d' (L.start + 1 + (k + i))) :
    L.installs d k l = L.installs d' k l := by
  induction l generalizing k with
  | nil => rfl
  | cons b bs ih =>
    rw [Layout.installs, Layout.installs]
    have h0 := h 0 (Nat.succ_pos _)
    have ht : L.installs d (k + 1) bs = L.installs d' (k + 1) bs := ih fun i hi => by
      have := h (i + 1) (Nat.succ_lt_succ hi)
      rwa [show k + (i + 1) = k + 1 + i by omega] at this
    rw [ht, show d (L.start + 1 + k) = d' (L.start + 1 + k) from h0]

theorem Layout.logWrites_congr {v v' : Nat → β}
    (h : ∀ b ∈ l, v b = v' b) : L.logWrites v k l = L.logWrites v' k l := by
  induction l generalizing k with
  | nil => rfl
  | cons b bs ih =>
    rw [Layout.logWrites, Layout.logWrites, h b (mem_cons_self ..),
      ih fun c hc => h c (mem_cons_of_mem _ hc)]

/-- Once the log blocks hold `v`, installation writes `v`. -/
theorem Layout.installs_after_log (d v : Nat → β) (k : Nat) (l : List Nat) :
    L.installs (apply d (L.logWrites v k l)) k l = l.map fun b => (b, v b) := by
  induction l generalizing d k with
  | nil => rfl
  | cons b bs ih =>
    have hk : apply (update d (L.start + 1 + k) (v b)) (L.logWrites v (k + 1) bs)
        (L.start + 1 + k) = v b := by
      rw [apply_of_notMem, update_self]
      intro w hw
      have := Layout.logWrites_inLog hw
      omega
    rw [Layout.installs, Layout.logWrites, apply_cons, hk, ih, map_cons]

/-! ### The meaning of a disk is stable under every write but one -/

theorem Layout.replay_of_dec_nil (h : L.dec (d L.start) = []) : L.replay d = d := by
  rw [Layout.replay, h]; rfl

/-- A disk that agrees on the header, on the log blocks it names, and on every home block it does
    NOT name has the same meaning. -/
theorem Layout.replay_congr (hg : L.Good d) (hh : d' L.start = d L.start)
    (hlog : ∀ b, L.InLog b → d' b = d b)
    (hhome : ∀ b, ¬ L.InLog b → b ∉ L.dec (d L.start) → d' b = d b) :
    L.SameHome (L.replay d') (L.replay d) := by
  intro b hb
  have hcap := L.fits_len hg.1
  have hins : L.installs d' 0 (L.dec (d L.start)) = L.installs d 0 (L.dec (d L.start)) :=
    Layout.installs_congr fun i hi => hlog _ ⟨by omega, by omega⟩
  rw [Layout.replay, Layout.replay, hh, hins]
  refine apply_congr fun hnot => hhome b hb fun hmem => ?_
  obtain ⟨w, hw, hwb⟩ := Layout.mem_installs (L := L) (d := d) (k := 0) hmem
  exact hnot w hw hwb

/-- A crash inside installation does not change the meaning, nor the header. -/
theorem Layout.replay_install (hg : L.Good d) (ws : List (Nat × β))
    (hsub : ∀ w ∈ ws, w.1 ∈ L.dec (d L.start)) :
    apply d ws L.start = d L.start ∧ L.SameHome (L.replay (apply d ws)) (L.replay d) := by
  have hlog : ∀ b, L.InLog b → apply d ws b = d b := fun b hb =>
    apply_of_notMem fun w hw hwb => hg.2 _ (hsub w hw) (hwb ▸ hb)
  have hstart : apply d ws L.start = d L.start := hlog _ ⟨Nat.le_refl _, Nat.le_add_right ..⟩
  refine ⟨hstart, Layout.replay_congr hg hstart hlog fun b _ hb => ?_⟩
  exact apply_of_notMem fun w hw hwb => hb (hwb ▸ hsub w hw)

/-- Clearing the header of a fully installed log does not change the meaning. -/
theorem Layout.replay_clear {h : β} (hinst : L.SameHome (L.replay d) d) :
    L.SameHome (L.replay (update d L.start (L.enc h []))) (L.replay d) := by
  intro b hb
  have hdec : L.dec (update d L.start (L.enc h []) L.start) = [] := by
    rw [update_self, L.dec_enc h L.fits_nil]
  rw [Layout.replay_of_dec_nil hdec, update_of_ne (Layout.not_inLog_start hb)]
  exact (hinst b hb).symm

/-! ## Crashes -/

variable (L)

/-- Recoveries of `d` that crash themselves, any number of them, leave `d'`. -/
inductive Layout.Crashes : (Nat → β) → (Nat → β) → Prop
  | none (d : Nat → β) : Layout.Crashes d d
  | again (d : Nat → β) (k : Nat) {d' : Nat → β} :
      Layout.Crashes (apply d ((L.recoverWrites d).take k)) d' → Layout.Crashes d d'

variable {L}

/-- Once every named block is installed, the disk IS its meaning. -/
theorem Layout.replay_installed (hg : L.Good d) :
    L.SameHome (L.replay (apply d (L.installs d 0 (L.dec (d L.start)))))
      (apply d (L.installs d 0 (L.dec (d L.start)))) := by
  have h := Layout.replay_install hg (L.installs d 0 (L.dec (d L.start)))
    fun w hw => Layout.installs_home hw
  exact h.2

/-- Any prefix of recovery keeps the meaning and a good header; the whole of it clears the header. -/
theorem Layout.recover_prefix (hg : L.Good d) (k : Nat) : L.Good (apply d ((L.recoverWrites d).take k)) ∧
    L.SameHome (L.replay (apply d ((L.recoverWrites d).take k))) (L.replay d) := by
  have hsub : ∀ w ∈ (L.installs d 0 (L.dec (d L.start))).take k, w.1 ∈ L.dec (d L.start) :=
    fun w hw => Layout.installs_home (mem_of_mem_take hw)
  rw [Layout.recoverWrites, take_append, apply_append]
  obtain ⟨hstart, hsame⟩ := Layout.replay_install hg _ hsub
  rcases Nat.eq_zero_or_pos (k - (L.installs d 0 (L.dec (d L.start))).length) with hk | hk
  · rw [hk, take_zero, apply_nil]
    exact ⟨by rw [Layout.Good, hstart]; exact hg, hsame⟩
  · -- the installs are complete and the clearing header write is in the prefix
    rw [take_of_length_le (by omega), take_of_length_le (by simp; omega), apply_cons, apply_nil]
    constructor
    · rw [Layout.Good, update_self, L.dec_enc _ L.fits_nil]
      exact ⟨L.fits_nil, fun b hb => absurd hb not_mem_nil⟩
    · have hall := Layout.replay_install hg (L.installs d 0 (L.dec (d L.start)))
        fun w hw => Layout.installs_home hw
      exact (Layout.replay_clear (Layout.replay_installed hg)).trans hall.2

/-- **Recovery may be interrupted as often as it likes**: the disk keeps its meaning. -/
theorem Layout.crashes_replay (h : L.Crashes d d') (hg : L.Good d) :
    L.Good d' ∧ L.SameHome (L.replay d') (L.replay d) := by
  induction h with
  | none d => exact ⟨hg, fun _ _ => rfl⟩
  | again d k _ ih =>
    obtain ⟨hg', hsame⟩ := Layout.recover_prefix hg k
    obtain ⟨h1, h2⟩ := ih hg'
    exact ⟨h1, h2.trans hsame⟩

/-- A recovery that completes leaves the meaning of the disk in the home blocks. -/
theorem Layout.recover_done (d : Nat → β) : L.SameHome (apply d (L.recoverWrites d)) (L.replay d) := by
  rw [Layout.recoverWrites, apply_append, apply_cons, apply_nil]
  intro b hb
  rw [update_of_ne (Layout.not_inLog_start hb)]
  rfl

/-! ## Commits -/

theorem apply_map_overlay (d v : Nat → β) (l : List Nat) :
    apply d (l.map fun b => (b, v b)) = overlay d l v := by
  induction l generalizing d with
  | nil => funext b; simp [overlay]
  | cons c l ih =>
    funext b
    rw [map_cons, apply_cons, ih]
    simp only [overlay, mem_cons]
    by_cases hl : b ∈ l
    · rw [if_pos hl, if_pos (.inr hl)]
    · grind

/-- Writing log blocks touches neither the header nor any home block. -/
theorem Layout.replay_log_write (d : Nat → β) (ws : List (Nat × β))
    (hlog : ∀ w ∈ ws, L.start < w.1 ∧ w.1 ≤ L.start + L.cap) :
    apply d ws L.start = d L.start ∧ L.SameHome (apply d ws) d := by
  refine ⟨apply_of_notMem fun w hw => ?_, fun b hb => apply_of_notMem fun w hw hwb => ?_⟩
  · have := hlog w hw; omega
  · subst hwb
    have := hlog w hw
    exact hb ⟨by omega, this.2⟩

@[simp] theorem Layout.length_logWrites (v : Nat → β) (k : Nat) (l : List Nat) :
    (L.logWrites v k l).length = l.length := by
  induction l generalizing k with
  | nil => rfl
  | cons b bs ih => rw [Layout.logWrites, length_cons, length_cons, ih]

/-- **One commit, cut anywhere.** Before the committing header write (the `l.length`-th) the meaning
    is the old disk, from it on it is the old disk overlaid with the transaction. -/
theorem Layout.commit_prefix (hd : L.dec (d L.start) = []) (hl : L.Ok l) (hne : l ≠ []) (k : Nat) :
    L.Good (apply d ((L.commitWrites (d L.start) l v).take k)) ∧
    L.SameHome (L.replay (apply d ((L.commitWrites (d L.start) l v).take k)))
      (if k ≤ l.length then d else overlay d l v) := by
  have hcap := L.fits_len hl.1
  have hlogs : ∀ w ∈ L.logWrites v 0 l, L.start < w.1 ∧ w.1 ≤ L.start + L.cap := fun w hw => by
    have := Layout.logWrites_inLog hw; omega
  rw [Layout.commitWrites, if_neg hne, append_assoc, append_assoc, take_append,
    Layout.length_logWrites, apply_append]
  by_cases hk : k ≤ l.length
  · -- only log blocks were written
    rw [if_pos hk, Nat.sub_eq_zero_of_le hk, take_zero, apply_nil]
    obtain ⟨hs, hsame⟩ := Layout.replay_log_write d ((L.logWrites v 0 l).take k)
      fun w hw => hlogs w (mem_of_mem_take hw)
    have hdec : L.dec (apply d ((L.logWrites v 0 l).take k) L.start) = [] := by rw [hs, hd]
    refine ⟨?_, by rw [Layout.replay_of_dec_nil hdec]; exact hsame⟩
    rw [Layout.Good, hdec]
    exact ⟨L.fits_nil, fun b hb => absurd hb not_mem_nil⟩
  · rw [if_neg hk, take_of_length_le (by simp; omega)]
    obtain ⟨hs, hsame⟩ := Layout.replay_log_write d _ hlogs
    -- the disk right after the committing header write
    generalize hd1 : apply d (L.logWrites v 0 l) = d1 at hs hsame ⊢
    obtain ⟨j, hj⟩ : ∃ j, k - l.length = j + 1 := ⟨k - l.length - 1, by omega⟩
    rw [hj, singleton_append, take_succ_cons, apply_cons]
    generalize hd2 : update d1 L.start (L.enc (d L.start) l) = d2
    have hs2 : d2 L.start = L.enc (d L.start) l := by rw [← hd2, update_self]
    have hdec2 : L.dec (d2 L.start) = l := by rw [hs2, L.dec_enc _ hl.1]
    have hg2 : L.Good d2 := by rw [Layout.Good, hdec2]; exact hl
    have hins : L.installs d2 0 l = l.map fun b => (b, v b) := by
      rw [← Layout.installs_after_log d v 0 l, hd1]
      refine Layout.installs_congr fun i _ => ?_
      rw [← hd2]
      exact update_of_ne (by omega) _ _
    have hrep2 : L.SameHome (L.replay d2) (overlay d l v) := by
      intro b hb
      rw [Layout.replay, hdec2, hins, apply_map_overlay, overlay, overlay]
      have hb2 : d2 b = d b := by
        rw [← hd2, update_of_ne (Layout.not_inLog_start hb)]; exact hsame b hb
      rw [hb2]
    -- the rest of the commit is exactly the recovery of `d2`
    have hrec : l.map (fun b => (b, v b)) ++ [(L.start, L.enc (L.enc (d L.start) l) [])]
        = L.recoverWrites d2 := by
      rw [Layout.recoverWrites, hdec2, hins, hs2]
    obtain ⟨hg, hsm⟩ := Layout.recover_prefix hg2 j
    rw [← hrec] at hg hsm
    exact ⟨hg, hsm.trans hrep2⟩

theorem Layout.commit_done (hd : L.dec (d L.start) = []) (hl : L.Ok l) :
    L.dec (apply d (L.commitWrites (d L.start) l v) L.start) = [] ∧
    L.SameHome (apply d (L.commitWrites (d L.start) l v)) (overlay d l v) := by
  by_cases hne : l = []
  · subst hne
    rw [Layout.commitWrites, if_pos rfl, apply_nil]
    exact ⟨hd, fun b _ => by simp [overlay]⟩
  · have hfull := Layout.commit_prefix (v := v) hd hl hne (L.commitWrites (d L.start) l v).length
    have hlen : ¬ (L.commitWrites (d L.start) l v).length ≤ l.length := by
      rw [Layout.commitWrites, if_neg hne]; simp
    rw [take_length, if_neg hlen] at hfull
    have hdec : L.dec (apply d (L.commitWrites (d L.start) l v) L.start) = [] := by
      rw [Layout.commitWrites, if_neg hne, apply_append, apply_cons, apply_nil,
        update_self, L.dec_enc _ L.fits_nil]
    rw [Layout.replay_of_dec_nil hdec] at hfull
    exact ⟨hdec, hfull.2⟩

/-! ## Sequences of commits -/

variable (L) in
/-- The writes of a sequence of commits, each a list of blocks with its contents. -/
def Layout.commits : (Nat → β) → List (List Nat × (Nat → β)) → List (Nat × β)
  | _, [] => []
  | d, (l, v) :: ts => L.commitWrites (d L.start) l v ++
      Layout.commits (apply d (L.commitWrites (d L.start) l v)) ts

/-- The home blocks after a sequence of transactions. -/
def after (d : Nat → β) (ts : List (List Nat × (Nat → β))) : Nat → β :=
  ts.foldl (fun d t => overlay d t.1 t.2) d

theorem Layout.after_congr (h : L.SameHome d d')
    (ts : List (List Nat × (Nat → β))) : L.SameHome (after d ts) (after d' ts) := by
  induction ts generalizing d d' with
  | nil => exact h
  | cons t ts ih =>
    refine ih fun b hb => ?_
    simp only [overlay]
    rw [h b hb]

variable (L) in
/-- Is this the write that commits a transaction?  (A header that names something.) -/
def Layout.IsCommit (w : Nat × β) : Bool := w.1 == L.start && !(L.dec w.2).isEmpty

/-- A commit, cut at `k`, contains its committing write exactly when `k` passes the log writes. -/
theorem Layout.count_commit_prefix {h : β} (hl : L.Ok l) (hne : l ≠ []) (k : Nat) :
    ((L.commitWrites h l v).take k).countP L.IsCommit = if k ≤ l.length then 0 else 1 := by
  have hlog : ∀ w ∈ L.logWrites v 0 l, ¬ L.IsCommit w = true := fun w hw => by
    have := Layout.logWrites_inLog hw
    simp only [Layout.IsCommit, Bool.and_eq_true, beq_iff_eq, not_and]
    omega
  have hrest : ∀ w ∈ l.map (fun b => (b, v b)) ++ [(L.start, L.enc (L.enc h l) [])],
      ¬ L.IsCommit w = true := fun w hw => by
    rcases mem_append.mp hw with hw | hw
    · obtain ⟨b, hb, rfl⟩ := mem_map.mp hw
      have := Layout.not_inLog_start (hl.2 b hb)
      simp [Layout.IsCommit, this]
    · obtain rfl := mem_singleton.mp hw
      simp [Layout.IsCommit, L.dec_enc _ L.fits_nil]
  rw [Layout.commitWrites, if_neg hne, append_assoc, append_assoc, take_append,
    countP_append, Layout.length_logWrites,
    countP_eq_zero.mpr fun w hw => hlog w (mem_of_mem_take hw), Nat.zero_add]
  by_cases hk : k ≤ l.length
  · rw [Nat.sub_eq_zero_of_le hk, if_pos hk]; rfl
  · obtain ⟨j, hj⟩ : ∃ j, k - l.length = j + 1 := ⟨k - l.length - 1, by omega⟩
    have hc : L.IsCommit (L.start, L.enc h l) = true := by
      simp [Layout.IsCommit, L.dec_enc _ hl.1, hne]
    rw [if_neg hk, hj, singleton_append, take_succ_cons, countP_cons_of_pos hc,
      countP_eq_zero.mpr fun w hw => hrest w (mem_of_mem_take hw)]

/-- **Crash atomicity.** Cut the writes of a sequence of commits anywhere: the meaning of the disk
    is that of exactly the transactions whose committing header write is in the prefix. -/
theorem Layout.crash_commits (ts : List (List Nat × (Nat → β))) :
    ∀ (d : Nat → β), L.dec (d L.start) = [] → (∀ t ∈ ts, L.Ok t.1) → ∀ k : Nat,
    L.Good (apply d ((L.commits d ts).take k)) ∧
    L.SameHome (L.replay (apply d ((L.commits d ts).take k)))
      (after d ((ts.filter fun t => !t.1.isEmpty).take (((L.commits d ts).take k).countP L.IsCommit))) := by
  induction ts with
  | nil =>
    intro d hd _ k
    simp only [Layout.commits, take_nil, apply_nil]
    refine ⟨?_, by rw [Layout.replay_of_dec_nil hd]; exact fun b _ => rfl⟩
    rw [Layout.Good, hd]
    exact ⟨L.fits_nil, fun b hb => absurd hb not_mem_nil⟩
  | cons t ts ih =>
    obtain ⟨l, v⟩ := t
    intro d hd hts k
    have hl : L.Ok l := hts (l, v) (mem_cons_self ..)
    have hts' : ∀ t ∈ ts, L.Ok t.1 := fun t ht => hts t (mem_cons_of_mem _ ht)
    obtain ⟨hdec', hsame'⟩ := Layout.commit_done (v := v) hd hl
    rw [Layout.commits]
    by_cases hne : l = []
    · -- an empty transaction writes nothing and is not counted
      subst hne
      have h0 : L.commitWrites (d L.start) [] v = [] := if_pos rfl
      rw [h0, nil_append, apply_nil]
      simpa using ih d hd hts' k
    · have hcons : ((l, v) :: ts).filter (fun t => !t.1.isEmpty)
          = (l, v) :: ts.filter fun t => !t.1.isEmpty := by simp [hne]
      rw [hcons, take_append, apply_append, countP_append]
      rcases Nat.lt_or_ge k (L.commitWrites (d L.start) l v).length with hk | hk
      · -- the crash is inside this commit
        obtain ⟨hg, hsm⟩ := Layout.commit_prefix (v := v) hd hl hne k
        rw [Nat.sub_eq_zero_of_le (Nat.le_of_lt hk), take_zero, apply_nil, countP_nil,
          Nat.add_zero, Layout.count_commit_prefix hl hne]
        refine ⟨hg, ?_⟩
        by_cases hkl : k ≤ l.length
        · rw [if_pos hkl] at hsm ⊢; exact hsm
        · rw [if_neg hkl] at hsm ⊢; exact hsm
      · -- this commit is complete
        have hlen : ¬ (L.commitWrites (d L.start) l v).length ≤ l.length := by
          rw [Layout.commitWrites, if_neg hne]; simp
        have hcount := Layout.count_commit_prefix (h := d L.start) (v := v) hl hne
          (L.commitWrites (d L.start) l v).length
        rw [take_length, if_neg hlen] at hcount
        rw [take_of_length_le hk, hcount, Nat.add_comm 1, take_succ_cons]
        obtain ⟨hg, hsm⟩ := ih _ hdec' hts' (k - (L.commitWrites (d L.start) l v).length)
        exact ⟨hg, hsm.trans (Layout.after_congr hsame' _)⟩

end RedoLog
