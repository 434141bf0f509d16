/-
  COPYING TO AND FROM USER MEMORY (`copyout`, `copyin`, `copyinstr`).

  The user's view of a page table is `St.frame`: the physical page of an address, if `walkaddr` gives it
  out.  `St.userMem` is the memory that the user sees through it, the `UserMem` that the file system is
  written against; `copyin` here is `copyin` there (`copyin_reads`).

  Each function goes page by page, and no two pages need to be neighbours in memory.  `copyout` writes, and
  what it writes must change neither the table nor another page of the user: that is `UserTable`.
-/
import Xv6.Fs.VolIo
import Xv6.Vm.Bare

namespace Xv6.Vm

open Function Prog Vcode Bytes Words

/-! ## What the user sees -/

namespace St

variable (s : St) (r : Nat)

/-- The frame of the page that user address `a` is on. -/
def frame (a : Nat) : Option Nat :=
  if a < MAXVA then (s.pte r a).bind fun w => if w &&& PTE_U = 0 then none else some (PTE2PA w) else none

/-- Different pages of the user are different frames, and none is frame 0 or a page of the table. -/
structure UserTable : Prop where
  ne_zero : ∀ a pa, s.frame r a = some pa → pa ≠ 0
  apart : ∀ a pa, s.frame r a = some pa → ¬s.Interior r pa
  inj : ∀ a b pa, s.frame r a = some pa → s.frame r b = some pa → a / 4096 = b / 4096

theorem frame_lt {a pa : Nat} {s : St} {r : Nat} (h : s.frame r a = some pa) : a < MAXVA := by
  unfold frame at h
  split at h
  · assumption
  · cases h

/-- The memory that the user sees. -/
def userMem : UserMem where
  page p := (s.frame r (p * PGSIZE)).map fun pa => Words.bytes (s.word pa)
  bound p hp := by
    have h : ¬p * PGSIZE < MAXVA := by
      unfold PGSIZE MAXVA
      omega
    unfold frame
    rw [if_neg h]
    rfl

end St

section Frames

variable {s : St} {r b : Nat}

theorem pte_page {a : Nat} (h : a / 4096 = b / 4096) : s.pte r a = s.pte r b := by
  have hpx : ∀ l, PX l a = PX l b := fun l => by rw [PX_eq, PX_eq, h]
  have hind : indices a 2 = indices b 2 := by
    have hpx' : ∀ l, px l a = px l b := fun l => Fin.ext (hpx l)
    unfold indices indices
    rw [hpx', hpx']
    rfl
  unfold St.pte
  rw [hind, hpx]

/-- An address has the frame of its page. -/
theorem frame_page {a : Nat} (h : a / 4096 = b / 4096) : s.frame r a = s.frame r b := by
  have hlt : a < MAXVA ↔ b < MAXVA := by
    unfold MAXVA
    omega
  unfold St.frame
  rw [pte_page h]
  simp only [hlt]

theorem frame_congr {s' : St}
    (h : ∀ va, s'.pte r va = s.pte r va) (a : Nat) : s'.frame r a = s.frame r a := by
  unfold St.frame
  rw [h]

theorem userMem_page (a : Nat) :
    (s.userMem r).page (a / PGSIZE) = (s.frame r a).map fun pa => bytes (s.word pa) := by
  have h : a / PGSIZE * PGSIZE / 4096 = a / 4096 := by
    unfold PGSIZE
    omega
  show Option.map _ (s.frame r (a / PGSIZE * PGSIZE)) = _
  rw [frame_page h]

theorem userMem_byteAt {a pa : Nat} (h : s.frame r a = some pa) :
    (s.userMem r).byteAt a = bytes (s.word pa) (a % PGSIZE) := by
  unfold UserMem.byteAt
  rw [userMem_page, h]
  rfl

/-- A page is there for the user's eyes exactly if `walkaddr` gives it out. -/
theorem userMem_page_ne {a : Nat} : (s.userMem r).page (a / PGSIZE) ≠ none ↔ s.frame r a ≠ none := by
  rw [userMem_page, ne_eq, Option.map_eq_none_iff]

end Frames

/-! ## `walkaddr` -/

section Copy

variable {may : Prop} {ok : Err → Prop} {s s1 : St} {r : Nat} {α : Type} {Q : α → St → Prop}

theorem wp_walkaddr {L : Layout} {va : Nat} {k : Nat → Vcode α}
    (h : (k ((s.frame r va).getD 0)).wp (spec L may ok) Q s) :
    (walkaddr r va >>= k).wp (spec L may ok) Q s := by
  unfold walkaddr
  unfold St.frame at h
  by_cases hva : va < MAXVA
  · rw [if_pos hva] at h
    rw [if_neg (not_le.mpr hva), bind_assoc]
    refine wp_walk hva ?_
    unfold St.pte at h
    unfold St.walks
    cases hn : s.node r (indices va 2) with
    | none =>
      rw [hn] at h
      exact h
    | some a =>
      rw [hn] at h
      show (load a (PX 0 va) >>= _ >>= _).wp _ _ _
      rw [bind_assoc]
      refine wp_load ?_
      simp only [Option.bind_some, valid] at h
      by_cases hv : s.word a (PX 0 va) &&& PTE_V = 0
      · rw [if_pos hv]
        rw [if_neg (not_not_intro hv)] at h
        exact h
      · rw [if_neg hv]
        rw [if_pos hv] at h
        by_cases hu : s.word a (PX 0 va) &&& PTE_U = 0
        · rw [if_pos hu]
          simp only [Option.bind_some, if_pos hu] at h
          exact h
        · rw [if_neg hu]
          simp only [Option.bind_some, if_neg hu] at h
          exact h
  · rw [if_neg hva] at h
    rw [if_pos (not_lt.mp hva)]
    exact h

/-- The start of the page after that of `a`. -/
theorem next_page {a pa : Nat} (h : s.frame r a = some pa) :
    wrap (PGROUNDDOWN a + PGSIZE) = (a / PGSIZE + 1) * PGSIZE := by
  have hlt := St.frame_lt h
  unfold MAXVA at hlt
  unfold wrap PGROUNDDOWN PGSIZE
  omega

theorem sub_rounddown (a : Nat) : a - PGROUNDDOWN a = a % PGSIZE := by
  unfold PGROUNDDOWN PGSIZE
  omega

theorem frame_rounddown (a : Nat) : s.frame r (PGROUNDDOWN a) = s.frame r a := by
  refine frame_page ?_
  unfold PGROUNDDOWN PGSIZE
  omega

section

variable {a pa : Nat} (hne : ∀ a pa, s.frame r a = some pa → pa ≠ 0)
include hne

/-- A round of a copying loop: the page is there or it is not. -/
theorem wp_round {L : Layout} {fail : Vcode α}
    {k : Nat → Vcode α} (h0 : s.frame r a = none → fail.wp (spec L may ok) Q s)
    (h1 : ∀ pa, s.frame r a = some pa → (k pa).wp (spec L may ok) Q s) :
    (walkaddr r (PGROUNDDOWN a) >>= fun pa => if pa = 0 then fail else k pa).wp (spec L may ok) Q s := by
  refine wp_walkaddr ?_
  rw [frame_rounddown]
  cases hf : s.frame r a with
  | none =>
    rw [if_pos (show (none : Option Nat).getD 0 = 0 from rfl)]
    exact h0 hf
  | some pa =>
    rw [if_neg (show ¬(some pa).getD 0 = 0 from hne a pa hf)]
    exact h1 pa hf

/-! ## `copyin` -/

/-- **`copyin` is the file system's `copyin` on the memory that the user sees.** -/
theorem copyinFrom_reads {dst : Bytes} {L : Layout} {done len srcva : Nat} (fuel : Nat) :
    (copyinFrom r fuel dst done srcva len).wp (spec L may ok) (fun res s' => s' = s ∧
      res = (((s.userMem r).copyinFrom fuel dst done srcva len).1,
        if ((s.userMem r).copyinFrom fuel dst done srcva len).2 then 0 else -1)) s := by
  induction fuel generalizing dst done srcva len with
  | zero => exact ⟨rfl, rfl⟩
  | succ fuel ih =>
    rw [copyinFrom, UserMem.copyinFrom]
    by_cases hlen : len = 0
    · rw [if_pos hlen, if_pos hlen]
      exact ⟨rfl, rfl⟩
    rw [if_neg hlen, if_neg hlen]
    refine wp_round hne ?_ ?_
    · intro hf
      rw [userMem_page, hf]
      exact ⟨rfl, rfl⟩
    · intro pa hf
      refine wp_bytes ?_
      rw [next_page hf, sub_rounddown, userMem_page, hf]
      exact ih

theorem copyin_reads {L : Layout} (dst : Bytes) (srcva len : Nat) :
    (copyin r dst srcva len).wp (spec L may ok) (fun res s' => s' = s ∧
      (res.2 = 0 ∨ res.2 = -1) ∧ (res.2 = 0 ↔ ∀ j, j < len → s.frame r (srcva + j) ≠ none) ∧
      (res.2 = 0 → res.1 = blit dst 0 len fun j => (s.userMem r).byteAt (srcva + j))) s := by
  refine wp_mono (copyinFrom_reads hne len) ?_
  rintro res s' ⟨rfl, rfl⟩
  obtain ⟨h1, h2⟩ := @UserMem.copyinFrom_spec (s'.userMem r) len dst 0 srcva len le_rfl
  have hpages : (∀ j, j < len → (s'.userMem r).page ((srcva + j) / PGSIZE) ≠ none) ↔
      ∀ j, j < len → s'.frame r (srcva + j) ≠ none :=
    forall_congr' fun j => imp_congr_right fun _ => userMem_page_ne
  rw [hpages] at h1
  dsimp only
  cases hok : ((s'.userMem r).copyinFrom len dst 0 srcva len).2 with
  | true => exact ⟨rfl, .inl rfl, iff_of_true rfl (h1.mp hok), fun _ => h2 hok⟩
  | false =>
    grind

/-! ## `copyinstr` -/

omit hne in
/-- The inner loop stops at the first NUL, which it copies, or copies all. -/
theorem copyChars_cases (pg : Bytes) (n : Nat) (dst : Bytes) (done p : Nat) :
    (∃ k, k < n ∧ pg (p + k) = 0 ∧ (∀ j, j < k → pg (p + j) ≠ 0) ∧
      copyChars pg n dst done p = (blit dst done (k + 1) fun j => pg (p + j), true)) ∨
    ((∀ j, j < n → pg (p + j) ≠ 0) ∧
      copyChars pg n dst done p = (blit dst done n fun j => pg (p + j), false)) := by
  induction n generalizing dst done p with
  | zero => exact .inr ⟨fun j hj => absurd hj (Nat.not_lt_zero j), by rw [blit_zero]; rfl⟩
  | succ n ih =>
    rw [copyChars]
    by_cases h0 : pg p = 0
    · rw [if_pos h0]
      refine .inl ⟨0, Nat.succ_pos n, h0, fun j hj => absurd hj (Nat.not_lt_zero j), ?_⟩
      rw [blit_one, add_zero, h0]
    · rw [if_neg h0]
      -- one byte more than the rest
      have hone : ∀ m, blit (update dst done (pg p)) (done + 1) m (fun j => pg (p + 1 + j)) =
          blit dst done (m + 1) fun j => pg (p + j) := fun m => by
        rw [add_comm m 1, ← blit_append, blit_one]
        simp only [add_assoc, add_zero]
      have hnext : ∀ {k}, (∀ j, j < k → pg (p + 1 + j) ≠ 0) → ∀ j, j < k + 1 → pg (p + j) ≠ 0 := by
        intro k h j hj
        cases j with
        | zero => exact h0
        | succ j =>
          rw [add_comm j 1, ← add_assoc]
          exact h j (by omega)
      rcases ih (update dst done (pg p)) (done + 1) (p + 1) with ⟨k, hk, hz, hnz, heq⟩ | ⟨hnz, heq⟩
      · refine .inl ⟨k + 1, by omega, ?_, hnext hnz, ?_⟩
        · rw [add_comm k 1, ← add_assoc]
          exact hz
        · rw [heq, hone]
      · refine .inr ⟨hnext hnz, ?_⟩
        rw [heq, hone]

/-- The string at `a` ends with its byte `k`. -/
structure EndsAt (um : UserMem) (a k : Nat) : Prop where
  there : ∀ j, j ≤ k → um.page ((a + j) / PGSIZE) ≠ none
  nul : um.byteAt (a + k) = 0
  before : ∀ j, j < k → um.byteAt (a + j) ≠ 0

omit hne in
/-- The string at `a` starts with `n` bytes that are no NUL. -/
theorem EndsAt.add {n : Nat}
    {um : UserMem} {k : Nat} (hthere : ∀ j, j < n → um.page ((a + j) / PGSIZE) ≠ none)
    (hbefore : ∀ j, j < n → um.byteAt (a + j) ≠ 0) : EndsAt um a (n + k) ↔ EndsAt um (a + n) k := by
  constructor
  · intro h
    refine ⟨fun j hj => ?_, ?_, fun j hj => ?_⟩
    · rw [add_assoc]
      exact h.there _ (by omega)
    · rw [add_assoc]
      exact h.nul
    · rw [add_assoc]
      exact h.before _ (by omega)
  · intro h
    refine ⟨fun j hj => ?_, ?_, fun j hj => ?_⟩
    · by_cases hjn : j < n
      · exact hthere j hjn
      · have := h.there (j - n) (by omega)
        rwa [show a + n + (j - n) = a + j by omega] at this
    · rw [← add_assoc]
      exact h.nul
    · by_cases hjn : j < n
      · exact hbefore j hjn
      · have := h.before (j - n) (by omega)
        rwa [show a + n + (j - n) = a + j by omega] at this

/-- How `copyinstr` comes back: with the whole string, or with some of what there is. -/
def Fetches (um : UserMem) (dst : Bytes) (done a max : Nat) (res : Bytes × Int) : Prop :=
  (∃ k, k < max ∧ EndsAt um a k ∧ res = (blit dst done (k + 1) fun j => um.byteAt (a + j), 0)) ∨
    ((∀ k, k < max → ¬EndsAt um a k) ∧ ∃ n, n ≤ max ∧
      res = (blit dst done n fun j => um.byteAt (a + j), -1))

theorem copyinstrFrom_reads {dst : Bytes} {L : Layout} {done max srcva : Nat} (fuel : Nat)
    (hf : max ≤ fuel) :
    (copyinstrFrom r fuel dst done srcva max).wp (spec L may ok) (fun res s' => s' = s ∧
      Fetches (s.userMem r) dst done srcva max res) s := by
  induction fuel generalizing dst done srcva max with
  | zero => exact ⟨rfl, .inr ⟨fun k hk => by omega, 0, Nat.zero_le _, by rw [blit_zero]⟩⟩
  | succ fuel ih =>
    rw [copyinstrFrom]
    by_cases hmax : max = 0
    · rw [if_pos hmax]
      exact ⟨rfl, .inr ⟨fun k hk => by omega, 0, Nat.zero_le _, by rw [blit_zero]⟩⟩
    rw [if_neg hmax]
    refine wp_round hne ?_ ?_
    · intro hf
      refine ⟨rfl, .inr ⟨fun k _ h => h.there 0 (Nat.zero_le k) ?_, 0, Nat.zero_le _, by rw [blit_zero]⟩⟩
      rw [add_zero, userMem_page, hf]
      rfl
    · intro pa hpa
      refine wp_bytes ?_
      rw [next_page hpa, sub_rounddown]
      obtain ⟨n, hn⟩ : ∃ n, n = min (PGSIZE - srcva % PGSIZE) max := ⟨_, rfl⟩
      rw [← hn]
      have hpos : 0 < n := by
        unfold PGSIZE at hn
        omega
      -- the bytes of this round are on the page of `srcva`
      have hround : ∀ j, j < n → s.frame r (srcva + j) = some pa ∧
          (s.userMem r).byteAt (srcva + j) = bytes (s.word pa) (srcva % PGSIZE + j) := by
        grind [PGSIZE, frame_page, userMem_byteAt]
      have hthere : ∀ j, j < n → (s.userMem r).page ((srcva + j) / PGSIZE) ≠ none := fun j hj =>
        userMem_page_ne.mpr (by rw [(hround j hj).1]; exact Option.some_ne_none pa)
      have hblit : ∀ m, m ≤ n → blit dst done m (fun j => bytes (s.word pa) (srcva % PGSIZE + j)) =
          blit dst done m fun j => (s.userMem r).byteAt (srcva + j) := by grind [blit]
      rcases copyChars_cases (bytes (s.word pa)) n dst done (srcva % PGSIZE) with
        ⟨k, hk, hz, hnz, heq⟩ | ⟨hnz, heq⟩
      · -- the NUL is on this page
        rw [heq, hblit _ hk]
        refine ⟨rfl, .inl ⟨k, by omega, ⟨fun j hj => hthere j (by omega), ?_, fun j hj => ?_⟩, rfl⟩⟩
        · rw [(hround k hk).2]
          exact hz
        · rw [(hround j (by omega)).2]
          exact hnz j hj
      · rw [heq, hblit _ (Nat.le_refl n)]
        have hbefore : ∀ j, j < n → (s.userMem r).byteAt (srcva + j) ≠ 0 := fun j hj => by
          rw [(hround j hj).2]
          exact hnz j hj
        by_cases hend : max - n = 0
        · -- all `max` bytes are copied
          have hlast : ∀ k, k < max → ¬EndsAt (s.userMem r) srcva k := fun k hk h =>
            hbefore k (by omega) h.nul
          rw [hend]
          refine wp_mono (ih (Nat.zero_le fuel)) ?_
          rintro res s' ⟨rfl, ⟨k, hk, -⟩ | ⟨-, m, hm, rfl⟩⟩
          · omega
          · obtain rfl : m = 0 := by omega
            exact ⟨rfl, .inr ⟨hlast, n, by omega, by rw [blit_zero]⟩⟩
        · have hnext : (srcva / PGSIZE + 1) * PGSIZE = srcva + n := by
            unfold PGSIZE at hn ⊢
            omega
          rw [hnext]
          -- what follows is appended
          have hcat : ∀ m, blit (blit dst done n fun j => (s.userMem r).byteAt (srcva + j)) (done + n) m
              (fun j => (s.userMem r).byteAt (srcva + n + j)) =
              blit dst done (n + m) fun j => (s.userMem r).byteAt (srcva + j) := fun m => by
            rw [← blit_append]
            simp only [add_assoc]
          refine wp_mono (ih (by omega)) ?_
          rintro res s' ⟨rfl, ⟨k, hk, hends, rfl⟩ | ⟨hnot, m, hm, rfl⟩⟩
          · refine ⟨rfl, .inl ⟨n + k, by omega, (EndsAt.add hthere hbefore).mpr hends, ?_⟩⟩
            rw [hcat, add_assoc]
          · refine ⟨rfl, .inr ⟨fun k hk hends => ?_, n + m, by omega, by rw [hcat]⟩⟩
            have hkn : n ≤ k := by
              by_contra hlt
              exact hbefore k (by omega) hends.nul
            refine hnot (k - n) (by omega) ((EndsAt.add hthere hbefore).mp ?_)
            rwa [show n + (k - n) = k by omega]

theorem copyinstr_reads {L : Layout} (dst : Bytes) (srcva max : Nat) :
    (copyinstr r dst srcva max).wp (spec L may ok) (fun res s' => s' = s ∧
      Fetches (s.userMem r) dst 0 srcva max res) s := copyinstrFrom_reads hne max (Nat.le_refl max)

end

/-! ## `copyout` -/

/-- The first `len` bytes of `src` are at `dstva`, and nothing else has changed. -/
structure Stored (r dstva : Nat) (src : Bytes) (len : Nat) (s s' : St) : Prop where
  rest : s' = { s with word := s'.word }
  node : ∀ p, p.length ≤ 3 → s'.node r p = s.node r p
  pte : ∀ va, s'.pte r va = s.pte r va
  user : ∀ a pa, s.frame r a = some pa → Words.bytes (s'.word pa) (a % PGSIZE) =
    if dstva ≤ a ∧ a < dstva + len then src (a - dstva) else Words.bytes (s.word pa) (a % PGSIZE)
  other : ∀ pa, (∀ a, dstva ≤ a → a < dstva + len → s.frame r a ≠ some pa) → s'.word pa = s.word pa

namespace Stored

variable {src : Bytes}

theorem zero (r dstva : Nat) (src : Bytes) (s : St) : Stored r dstva src 0 s s :=
  ⟨rfl, fun _ _ => rfl, fun _ => rfl, fun _ _ _ => (if_neg (by omega)).symm, fun _ _ => rfl⟩

section

variable {dstva len : Nat} {s' : St} (h : Stored r dstva src len s s')
include h

/-- Only the bytes that are stored count. -/
theorem congr {src' : Bytes} (hsrc : ∀ j, j < len → src j = src' j) :
    Stored r dstva src' len s s' := by
  refine { h with user := fun a pa ha => ?_ }
  rw [h.user a pa ha]
  split
  · next hin => exact hsrc _ (by omega)
  · rfl

theorem frame (a : Nat) : s'.frame r a = s.frame r a := frame_congr h.pte a

theorem table (hs : s.UserTable r) : s'.UserTable r := by
  refine ⟨?_, ?_, ?_⟩
  · intro a pa ha
    rw [h.frame] at ha
    exact hs.ne_zero a pa ha
  · rintro a pa ha ⟨p, hp, hnode⟩
    rw [h.frame] at ha
    rw [h.node p hp.le] at hnode
    exact hs.apart a pa ha ⟨p, hp, hnode⟩
  · intro a b pa ha hb
    rw [h.frame] at ha hb
    exact hs.inj a b pa ha hb

/-- What the user sees afterwards. -/
theorem byteAt {j : Nat} (hj : j < len) (hf : s.frame r (dstva + j) ≠ none) :
    (s'.userMem r).byteAt (dstva + j) = src j := by
  obtain ⟨pa, hpa⟩ := Option.ne_none_iff_exists'.mp hf
  rw [userMem_byteAt ((h.frame _).trans hpa), h.user _ pa hpa, if_pos (by omega), Nat.add_sub_cancel_left]

end

theorem append {dstva len m : Nat} {s' : St}
    (h : Stored r dstva src len s s1) (h' : Stored r (dstva + len) (fun i => src (len + i)) m s1 s') :
    Stored r dstva src (len + m) s s' := by
  refine ⟨?_, fun p hp => (h'.node p hp).trans (h.node p hp), fun va => (h'.pte va).trans (h.pte va), ?_, ?_⟩
  · rw [h'.rest, h.rest]
  · intro a pa ha
    rw [h'.user a pa ((h.frame a).trans ha), h.user a pa ha]
    by_cases h1 : dstva ≤ a ∧ a < dstva + len
    · rw [if_neg (by omega), if_pos h1, if_pos (by omega)]
    · grind
  · intro pa hpa
    rw [h'.other pa fun a h1 h2 => by rw [h.frame]; exact hpa a (by omega) (by omega),
      h.other pa fun a h1 h2 => hpa a h1 (by omega)]

/-- A copy that stays on one page. -/
theorem round {dstva len pa : Nat}
    (hs : s.UserTable r) (hpa : s.frame r dstva = some pa) (hpos : 0 < len)
    (hlen : len ≤ PGSIZE - dstva % PGSIZE) (src : Bytes) :
    Stored r dstva src len s (s.patch pa (poke (dstva % PGSIZE) len src)) := by
  have hword : ∀ b, b ≠ pa → (s.patch pa (poke (dstva % PGSIZE) len src)).word b = s.word b :=
    fun b hb => update_of_ne hb ..
  obtain ⟨hnode, hpte⟩ := pte_off (hs.apart _ _ hpa) hword
  refine ⟨rfl, hnode, hpte, ?_, ?_⟩
  · intro a pa' ha
    by_cases heq : pa' = pa
    · subst heq
      have hpage := hs.inj a dstva pa' ha hpa
      show bytes (update s.word pa' _ pa') _ = _
      rw [update_self, bytes_poke]
      unfold blit
      unfold PGSIZE at hlen ⊢
      by_cases h : dstva ≤ a ∧ a < dstva + len
      · rw [if_pos (by omega), if_pos h]
        exact congrArg src (by omega)
      · rw [if_neg (by omega), if_neg h]
    · grind [PGSIZE, frame_page]
  · intro pa' hpa'
    refine hword pa' ?_
    rintro rfl
    exact hpa' dstva le_rfl (by omega) hpa

end Stored

/-- How `copyout` comes back: with everything copied, or at the first page that is not there. -/
def CopiesOut (r dstva : Nat) (src : Bytes) (len : Nat) (s : St) (res : Int) (s' : St) : Prop :=
  (res = 0 ∧ (∀ j, j < len → s.frame r (dstva + j) ≠ none) ∧ Stored r dstva src len s s') ∨
    (res = -1 ∧ ∃ n, n < len ∧ s.frame r (dstva + n) = none ∧ Stored r dstva src n s s')

theorem copyoutFrom_zero (src : Bytes) (fuel dstva done : Nat) : copyoutFrom r src fuel dstva done 0 = pure 0 := by
  cases fuel <;> rfl

theorem copyoutFrom_stores {L : Layout} {done dstva len : Nat}
    (src : Bytes) (fuel : Nat) (hs : s.UserTable r)
    (hf : len ≤ fuel) : (copyoutFrom r src fuel dstva done len).wp (spec L may ok)
      (CopiesOut r dstva (fun i => src (done + i)) len s) s := by
  induction fuel generalizing dstva done len s with
  | zero =>
    obtain rfl : len = 0 := by omega
    exact .inl ⟨rfl, fun j hj => absurd hj (Nat.not_lt_zero j), .zero ..⟩
  | succ fuel ih =>
    rw [copyoutFrom]
    by_cases hlen : len = 0
    · subst hlen
      rw [if_pos rfl]
      exact .inl ⟨rfl, fun j hj => absurd hj (Nat.not_lt_zero j), .zero ..⟩
    rw [if_neg hlen]
    refine wp_round hs.ne_zero ?_ ?_
    · intro hnone
      exact .inr ⟨rfl, 0, Nat.pos_of_ne_zero hlen, hnone, .zero ..⟩
    · intro pa hpa
      refine wp_patch ?_
      rw [next_page hpa, sub_rounddown]
      obtain ⟨n, hn⟩ : ∃ n, n = min (PGSIZE - dstva % PGSIZE) len := ⟨_, rfl⟩
      rw [← hn]
      have hpos : 0 < n := by
        unfold PGSIZE at hn
        omega
      have hle : n ≤ PGSIZE - dstva % PGSIZE := by omega
      have hstep := Stored.round hs hpa hpos hle fun i => src (done + i)
      have hthere : ∀ j, j < n → s.frame r (dstva + j) ≠ none := by
        intro j hj
        rw [frame_page (UserMem.round_page (a := dstva) hle hj).1, hpa]
        exact Option.some_ne_none pa
      by_cases hend : len = n
      · rw [← hend, Nat.sub_self, copyoutFrom_zero, hend]
        exact .inl ⟨rfl, hthere, hstep⟩
      · have hnext : (dstva / PGSIZE + 1) * PGSIZE = dstva + n := by
          unfold PGSIZE at hn ⊢
          omega
        have hsrc : (fun i => src (done + n + i)) = fun i => src (done + (n + i)) := by
          funext i
          rw [add_assoc]
        rw [hnext]
        refine wp_mono (ih (hstep.table hs) (by omega)) ?_
        rw [hsrc]
        rintro res s' (⟨rfl, hall, hst⟩ | ⟨rfl, m, hm, hnone, hst⟩)
        · have hst := hstep.append hst
          rw [show n + (len - n) = len by omega] at hst
          refine .inl ⟨rfl, fun j hj => ?_, hst⟩
          by_cases hjn : j < n
          · exact hthere j hjn
          · have := hall (j - n) (by omega)
            rw [hstep.frame, show dstva + n + (j - n) = dstva + j by omega] at this
            exact this
        · rw [hstep.frame, add_assoc] at hnone
          exact .inr ⟨rfl, n + m, by omega, hnone, hstep.append hst⟩

theorem copyout_stores {L : Layout} (src : Bytes) (dstva len : Nat) (hs : s.UserTable r) :
    (copyout r dstva src len).wp (spec L may ok) (CopiesOut r dstva src len s) s := by
  have h : (copyoutFrom r src len dstva 0 len).wp (spec L may ok) _ s :=
    copyoutFrom_stores src len hs (Nat.le_refl len)
  simp only [zero_add] at h
  exact h

end Copy

/-! ## Processes -/

section Process

variable {own : Nat → Place} {t : Owner} {r : Nat} {u : Bool} {s : St}

theorem frame_eq_some {a pa : Nat} : s.frame r a = some pa ↔
    a < MAXVA ∧ ∃ w, s.pte r a = some w ∧ w &&& PTE_U ≠ 0 ∧ PTE2PA w = pa := by
  unfold St.frame
  by_cases ha : a < MAXVA
  · rw [if_pos ha, Option.bind_eq_some_iff, and_iff_right ha]
    refine exists_congr fun w => and_congr_right fun _ => ?_
    split
    · next h => exact iff_of_false nofun fun h' => h'.1 h
    · next h => rw [Option.some.injEq, and_iff_right h]
  · rw [if_neg ha]
    exact iff_of_false nofun fun h => ha h.1

/-- What a process may use is a leaf of its table. -/
theorem User.frame_leaf {L : Layout} {a n pa : Nat}
    (hH : Heap L own s) (hU : User own s t r n u) (h : s.frame r a = some pa) :
    own pa = .leaf t (a / 4096) := by
  obtain ⟨map, hT, hm, -⟩ := hU
  obtain ⟨ha, w, hw, hPU, rfl⟩ := frame_eq_some.mp h
  rw [hT.pte hH ha] at hw
  unfold valid at hw
  split at hw
  · grind [Table, Mapping]
  · cases hw

/-- The page table of a process is one for the user. -/
theorem User.userTable {L : Layout} {n : Nat}
    (hH : Heap L own s) (hU : User own s t r n u) : s.UserTable r := by
  refine ⟨fun a pa h => hH.ne_zero (hU.frame_leaf hH h) (by simp), ?_, ?_⟩
  · rintro a pa h ⟨p, hp, hnode⟩
    obtain ⟨map, hT, -⟩ := id hU
    obtain ⟨x, hx⟩ := hT.node hH hp hnode
    rw [hU.frame_leaf hH h] at hx
    cases hx
  · intro a b pa ha hb
    have hlab := hU.frame_leaf hH ha
    rw [hU.frame_leaf hH hb] at hlab
    exact (Place.leaf.inj hlab).2.symm

end Process

/-! ## The three copies -/

/-- User code may use address `a`: it is below `MAXVA`, and its PTE is valid and has `PTE_U`. -/
def St.Accessible (s : St) (r a : Nat) : Prop := a < MAXVA ∧ ∃ w, s.pte r a = some w ∧ w &&& PTE_U ≠ 0

theorem frame_ne_none {a : Nat} {s : St} {r : Nat} : s.frame r a ≠ none ↔ s.Accessible r a := by
  rw [Option.ne_none_iff_exists']
  constructor
  · rintro ⟨pa, h⟩
    obtain ⟨ha, w, hw, hPU, -⟩ := frame_eq_some.mp h
    exact ⟨ha, w, hw, hPU⟩
  · rintro ⟨ha, w, hw, hPU⟩
    exact ⟨PTE2PA w, frame_eq_some.mpr ⟨ha, w, hw, hPU, rfl⟩⟩

/-- New pages are there for the user. -/
theorem St.Zeroed.accessible {a m n : Nat}
    {s : St} {r : Nat} (h : s.Zeroed r n m) (hn : n ≤ a / 4096) (hm : a / 4096 < m)
    (hlt : m ≤ 32768) : s.Accessible r a := by
  obtain ⟨w, hw, hflags, -⟩ := h a hn hm
  refine ⟨by unfold MAXVA; omega, w, hw, fun hPU => ?_⟩
  unfold PTE_FLAGS at hflags
  rw [show PTE_U = 0x3FF &&& PTE_U from rfl, ← Nat.and_assoc, hflags] at hPU
  exact absurd hPU (by decide)

/-- Among the accessible bytes there is a NUL exactly if the string ends there. -/
theorem exists_endsAt {a max : Nat} {s : St} {r : Nat} : (∃ k, k < max ∧ EndsAt (s.userMem r) a k) ↔
    ∃ k, k < max ∧ (s.userMem r).byteAt (a + k) = 0 ∧ ∀ j, j ≤ k → s.Accessible r (a + j) := by
  constructor
  · rintro ⟨k, hk, h⟩
    exact ⟨k, hk, h.nul, fun j hj => frame_ne_none.mp (userMem_page_ne.mp (h.there j hj))⟩
  · rintro ⟨k, hk, hnul, hacc⟩
    have hex : ∃ k, (s.userMem r).byteAt (a + k) = 0 := ⟨k, hnul⟩
    have hle : Nat.find hex ≤ k := Nat.find_min' hex hnul
    refine ⟨Nat.find hex, by omega, fun j hj => ?_, Nat.find_spec hex, fun j hj => Nat.find_min hex hj⟩
    exact userMem_page_ne.mpr (frame_ne_none.mpr (hacc j (by omega)))

/-- **User copies are exact.**  For every page table whose user pages are different frames, none of them frame 0
    or a page of the table: the copies succeed exactly if all the pages are accessible, and then they have
    copied what they should. -/
theorem user_copies_exact (L : Layout) (m : Machine) (r : Nat) (ht : m.st.UserTable r) :
    (∀ dstva src len, ∃ ret m',
      (copyout r dstva src len).run (I := Calls) (Machine.serve L) m = .ok (ret, m') ∧
      (ret = 0 ∨ ret = -1) ∧ (ret = 0 ↔ ∀ a, dstva ≤ a → a < dstva + len → m.st.Accessible r a) ∧
      (ret = 0 → Stored r dstva src len m.st m'.st ∧ ∀ dst, ∃ m'',
        (copyin r dst dstva len).run (I := Calls) (Machine.serve L) m' = .ok ((blit dst 0 len src, 0), m''))) ∧
    (∀ dst srcva len, ∃ res m',
      (copyin r dst srcva len).run (I := Calls) (Machine.serve L) m = .ok (res, m') ∧ m'.st = m.st ∧
      (res.2 = 0 ∨ res.2 = -1) ∧ (res.2 = 0 ↔ ∀ a, srcva ≤ a → a < srcva + len → m.st.Accessible r a) ∧
      (res.2 = 0 → res.1 = blit dst 0 len fun j => (m.st.userMem r).byteAt (srcva + j))) ∧
    (∀ dst srcva max, ∃ res m',
      (copyinstr r dst srcva max).run (I := Calls) (Machine.serve L) m = .ok (res, m') ∧ m'.st = m.st ∧
      (res.2 = 0 ∨ res.2 = -1) ∧
      (res.2 = 0 ↔ ∃ k, k < max ∧ (m.st.userMem r).byteAt (srcva + k) = 0 ∧
        ∀ j, j ≤ k → m.st.Accessible r (srcva + j)) ∧
      (res.2 = 0 → ∃ k, k < max ∧ EndsAt (m.st.userMem r) srcva k ∧
        res.1 = blit dst 0 (k + 1) fun j => (m.st.userMem r).byteAt (srcva + j)) ∧
      ∀ i, max ≤ i → res.1 i = dst i) := by
  -- a range, by its addresses or by its offsets
  have hrange : ∀ a len, (∀ j, j < len → m.st.frame r (a + j) ≠ none) ↔
      ∀ b, a ≤ b → b < a + len → m.st.Accessible r b := by
    intro a len
    constructor
    · intro h b h1 h2
      have := h (b - a) (by omega)
      rw [show a + (b - a) = b by omega] at this
      exact frame_ne_none.mp this
    · intro h j hj
      exact frame_ne_none.mpr (h (a + j) (by omega) (by omega))
  refine ⟨?_, ?_, ?_⟩
  · intro dstva src len
    obtain ⟨ret, m', hrun, hout⟩ := wp_runs (L := L) (copyout_stores src dstva len ht)
    refine ⟨ret, m', hrun, ?_⟩
    rcases hout with ⟨rfl, hall, hst⟩ | ⟨rfl, n, hn, hnone, -⟩
    · refine ⟨.inl rfl, iff_of_true rfl ((hrange dstva len).mp hall), fun _ => ⟨hst, fun dst => ?_⟩⟩
      have hall' : ∀ j, j < len → m'.st.frame r (dstva + j) ≠ none := fun j hj => by
        rw [hst.frame]
        exact hall j hj
      obtain ⟨res, m'', hrun', -, -, hiff, hcopy⟩ := wp_runs (L := L)
        (copyin_reads (hst.table ht).ne_zero dst dstva len)
      have h0 := hiff.mpr hall'
      refine ⟨m'', hrun'.trans ?_⟩
      have hblit : (blit dst 0 len fun j => (m'.st.userMem r).byteAt (dstva + j)) = blit dst 0 len src := by
        funext i
        unfold blit
        split
        · next hi => exact hst.byteAt (by omega) (hall _ (by omega))
        · rfl
      rw [← hblit, ← hcopy h0, ← h0]
    · refine ⟨.inr rfl, iff_of_false (by decide) fun h => ?_, fun h => absurd h (by decide)⟩
      exact (hrange dstva len).mpr h n hn hnone
  · intro dst srcva len
    obtain ⟨res, m', hrun, hst, hret, hiff, hcopy⟩ := wp_runs (L := L) (copyin_reads ht.ne_zero dst srcva len)
    exact ⟨res, m', hrun, hst, hret, hiff.trans (hrange srcva len), hcopy⟩
  · intro dst srcva max
    obtain ⟨res, m', hrun, hst, hF⟩ := wp_runs (L := L)
      (copyinstr_reads ht.ne_zero dst srcva max)
    have hout : ∀ n, n ≤ max → ∀ i, max ≤ i →
        blit dst 0 n (fun j => (m.st.userMem r).byteAt (srcva + j)) i = dst i := fun n hn i hi =>
      blit_out (.inr (by omega))
    have hfail : (-1 : Int) ≠ 0 := by decide
    refine ⟨res, m', hrun, hst, ?_⟩
    rcases hF with ⟨k, hk, hends, rfl⟩ | ⟨hnot, n, hn, rfl⟩
    · exact ⟨.inl rfl, iff_of_true rfl (exists_endsAt.mp ⟨k, hk, hends⟩), fun _ => ⟨k, hk, hends, rfl⟩,
        hout (k + 1) hk⟩
    · refine ⟨.inr rfl, iff_of_false hfail fun h => ?_, fun h => absurd h hfail, hout n hn⟩
      obtain ⟨k, hk, hends⟩ := exists_endsAt.mpr h
      exact hnot k hk hends

/-- A process with two pages, and nine bytes across the boundary between them. -/
theorem user_copies_exact_two_pages : ∃ m r, m.st.UserTable r ∧
    ∃ ret m', (copyout r 4090 (fun i => UInt8.ofNat i) 9).run (I := Calls) (Machine.serve bareLayout) m =
      .ok (ret, m') ∧ ret = 0 ∧ Stored r 4090 (fun i => UInt8.ofNat i) 9 m.st m'.st := by
  obtain ⟨m, own, -, hmem, hH, hU, hz⟩ := exists_space 8192 0x87FE0000 (by decide) (by decide)
    (by decide +kernel)
  have ht := hU.userTable hH
  obtain ⟨hcopyout, -⟩ := user_copies_exact bareLayout m 0x87FE0000 ht
  obtain ⟨ret, m', hrun, -, hiff, hst⟩ := hcopyout 4090 (UInt8.ofNat) 9
  have h0 : ret = 0 := hiff.mpr fun a h1 h2 =>
    St.Zeroed.accessible hz (Nat.zero_le _) (by omega) (by decide)
  exact ⟨m, 0x87FE0000, ht, ret, m', hrun, h0, (hst h0).1⟩

/-- A page table whose only page, at address 0, is the frame `f`. -/
def onePage (f : Nat) : Machine where
  st :=
    { freelist := []
      word := fun a i =>
        if a = 0x80001000 ∧ i = 0 then dirPte 0x80002000
        else if a = 0x80002000 ∧ i = 0 then dirPte 0x80003000
        else if a = 0x80003000 ∧ i = 0 then mkPte f (PTE_R ||| PTE_W ||| PTE_U)
        else 0
      mem := fun _ => .zero }
  deny := []

theorem onePage_frame {a pa : Nat}
    {f : Nat} (h : (onePage f).st.frame 0x80001000 a = some pa) : a / 4096 = 0 := by
  obtain ⟨ha, w, hw, -⟩ := frame_eq_some.mp h
  obtain ⟨b, hb, -, hword, hv⟩ := walks_of_pte hw
  obtain ⟨c, hc, hdec⟩ := Option.bind_eq_some_iff.mp hb
  obtain ⟨d, hd, hdec'⟩ := Option.bind_eq_some_iff.mp hc
  obtain rfl := Option.some.inj hd
  have h2 : PX 2 a = 0 := by
    by_contra hne
    have : pteDec ((onePage f).st.word 0x80001000 (PX 2 a)) = some c := hdec'
    simp [onePage, hne, pteDec, valid] at this
  have hc : c = 0x80002000 := by
    have : pteDec ((onePage f).st.word 0x80001000 (PX 2 a)) = some c := hdec'
    rw [h2, show (onePage f).st.word 0x80001000 0 = dirPte 0x80002000 from rfl,
      show pteDec (dirPte 0x80002000) = some 0x80002000 by decide] at this
    exact (Option.some.inj this).symm
  subst hc
  have h1 : PX 1 a = 0 := by
    by_contra hne
    have : pteDec ((onePage f).st.word 0x80002000 (PX 1 a)) = some b := hdec
    simp [onePage, hne, pteDec, valid] at this
  have hb : b = 0x80003000 := by
    have : pteDec ((onePage f).st.word 0x80002000 (PX 1 a)) = some b := hdec
    rw [h1, show (onePage f).st.word 0x80002000 0 = dirPte 0x80003000 from rfl,
      show pteDec (dirPte 0x80003000) = some 0x80003000 by decide] at this
    exact (Option.some.inj this).symm
  subst hb
  have h0 : PX 0 a = 0 := by
    by_contra hne
    rw [← hword] at hv
    simp [onePage, hne] at hv
  rw [PX_eq] at h0 h1 h2
  unfold MAXVA at ha
  omega

/-- Frame 0 is never found; and through a page that is the root of the table itself a copy destroys the
    table. -/
theorem user_copies_bad_frames :
    ((∀ a b pa, (onePage 0).st.frame 0x80001000 a = some pa → (onePage 0).st.frame 0x80001000 b = some pa →
        a / 4096 = b / 4096) ∧ (onePage 0).st.Accessible 0x80001000 0 ∧
      ∃ m', (copyout 0x80001000 0 (fun _ => 0) 8).run (I := Calls) (Machine.serve bareLayout) (onePage 0) =
        .ok (-1, m')) ∧
    (∀ a b pa, (onePage 0x80001000).st.frame 0x80001000 a = some pa →
        (onePage 0x80001000).st.frame 0x80001000 b = some pa → a / 4096 = b / 4096) ∧
      ∃ m' dst m'', (copyout 0x80001000 0 (fun _ => 0) 8).run (I := Calls) (Machine.serve bareLayout)
        (onePage 0x80001000) = .ok (0, m') ∧
      (copyin 0x80001000 (fun _ => 0) 0 8).run (I := Calls) (Machine.serve bareLayout) m' =
        .ok ((dst, -1), m'') := by
  have hinj : ∀ f a b pa, (onePage f).st.frame 0x80001000 a = some pa →
      (onePage f).st.frame 0x80001000 b = some pa → a / 4096 = b / 4096 := fun f a b pa ha hb => by
    rw [onePage_frame ha, onePage_frame hb]
  refine ⟨⟨hinj 0, ⟨by decide, mkPte 0 (PTE_R ||| PTE_W ||| PTE_U), by decide +kernel, by decide⟩, ?_⟩, hinj _, ?_⟩
  · have h : ((copyout 0x80001000 0 (fun _ => 0) 8).run (Machine.serve bareLayout)
        (onePage 0)).toOption.map (·.1) = some (-1) := by decide +kernel
    obtain ⟨⟨ret, m'⟩, hrun, rfl⟩ := Option.map_eq_some_iff.mp h
    exact ⟨m', toOption_eq_some hrun⟩
  · have h : (do
        let x ← ((copyout 0x80001000 0 (fun _ => 0) 8).run (Machine.serve bareLayout)
          (onePage 0x80001000)).toOption
        let y ← ((copyin 0x80001000 (fun _ => 0) 0 8).run (Machine.serve bareLayout) x.2).toOption
        pure (x.1, y.1.2)) = some (0, -1) := by decide +kernel
    obtain ⟨⟨ret, m'⟩, hrun, h⟩ := Option.bind_eq_some_iff.mp h
    obtain ⟨⟨⟨dst, res⟩, m''⟩, hrun', h⟩ := Option.bind_eq_some_iff.mp h
    obtain ⟨rfl, rfl⟩ := Prod.mk.inj (Option.some.inj h)
    exact ⟨m', dst, m'', toOption_eq_some hrun, toOption_eq_some hrun'⟩

end Xv6.Vm
