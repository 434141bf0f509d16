/-
  `malloc` OVER THE KERNEL'S `sbrk`.

  The user heap of `Xv6.User` run by a process of the modelled kernel: it can touch the bytes its page
  table maps for the user to read and write, and `sbrk` is `sys_sbrk` with `growproc` behind it.

  `malloc` computes the size of the block it needs in units of 16 bytes and passes `16 * nunits` to
  `sbrk`, whose parameter is an `int`.  From 2^27 units on that is a number below 2^31 no longer: it
  is NEGATIVE, 0 or 16, `growproc` takes it for a wish to shrink (or for nothing), and `malloc`
  believes that it got `nunits` units at the old break.
-/
import Xv6.Vm.Copy
import Xv6.Vm.Sbrk
import Xv6.User.Heap

namespace Xv6.Vm

open Prog Vcode

variable {L : Layout} {m : Machine} {fuel p q : Nat} {s' : Umalloc.Proc Machine}
open Umalloc (Os Stop FAILED unitsFor morecoreUnits Header Answers)

/-! ## The system of a process -/

/-- The user may read and write the byte at `x`. -/
def St.Writable (s : St) (r x : Nat) : Bool :=
  decide (x < MAXVA) && (s.pte r x).any fun w =>
    decide (w &&& PTE_U ≠ 0 ∧ w &&& PTE_R ≠ 0 ∧ w &&& PTE_W ≠ 0)

/-- What process `p` sees of the machine.  A pointer is the `uint64` that `sys_sbrk` returns. -/
def heapOs (L : Layout) (p : Nat) : Os Machine where
  mapped m x := m.st.Writable (m.st.mem p).pagetable x
  sbrk m n :=
    match (sysSbrk p n).run (I := Calls) (Machine.serve L) m with
    | .ok r => .ok ((r.1 % 18446744073709551616).toNat, r.2)
    | .error _ => .error .kernel

/-- The break of process `p`. -/
def brkOf (p : Nat) (m : Machine) : Nat := (m.st.mem p).sz

section Sbrk

variable {s s' : St} {m' : Machine} {r x y : Nat} {n : Int}

theorem writable_page (h : x / 4096 = y / 4096) : s.Writable r x = s.Writable r y := by
  have hmax : x < MAXVA ↔ y < MAXVA := by
    unfold MAXVA
    omega
  unfold St.Writable
  rw [pte_page h, decide_eq_decide.2 hmax]

theorem writable_congr (h : s'.pte r x = s.pte r x) : s'.Writable r x = s.Writable r x := by
  unfold St.Writable
  rw [h]

theorem St.Zeroed.writable {a b : Nat} (h : s.Zeroed r a b) (ha : a ≤ x / 4096) (hb : x / 4096 < b)
    (hx : x < MAXVA) : s.Writable r x = true := by
  obtain ⟨w, hw, hflags, -⟩ := h x ha hb
  have hbit : ∀ f, f &&& 0x3FF = f → (PTE_W ||| PTE_X ||| PTE_R ||| PTE_U ||| PTE_V) &&& f ≠ 0 →
      w &&& f ≠ 0 := by grind [PTE_FLAGS]
  unfold St.Writable
  rw [hw, Option.any_some, Bool.and_eq_true, decide_eq_true_eq, decide_eq_true_eq]
  exact ⟨hx, hbit _ (by decide) (by decide), hbit _ (by decide) (by decide),
    hbit _ (by decide) (by decide)⟩

theorem St.Space.size_le (hs : s.Space L p) : (s.mem p).sz ≤ 134217728 := by
  obtain ⟨own, u, hH, hU⟩ := hs
  exact hU.size_le hH

theorem pgroundup_eq (hs : s.Space L p) : PGROUNDUP (s.mem p).sz = ((s.mem p).sz + 4095) / 4096 * 4096 :=
  roundup _ rfl (by have := hs.size_le; omega)

/-- Nothing above the size of a process can be touched. -/
theorem St.Space.writable_lt (hs : s.Space L p) (hx : x < TRAPFRAME)
    (h : s.Writable (s.mem p).pagetable x = true) : x < PGROUNDUP (s.mem p).sz := by
  obtain ⟨own, u, hH, hU⟩ := hs
  refine ((hU.mappedBelow hH) x hx).1 fun hnone => ?_
  unfold St.Writable at h
  rw [hnone] at h
  simp at h

/-- After a change of size: the old pages that are left can be touched as before, the new ones can. -/
theorem Resized.writable (hR : Resized p n s s') (hs : s.Space L p) (hs' : s'.Space L p)
    (hx : x < TRAPFRAME) : s'.Writable (s'.mem p).pagetable x = true ↔ x < PGROUNDUP (s'.mem p).sz ∧
      (x < PGROUNDUP (s.mem p).sz → s.Writable (s.mem p).pagetable x = true) := by
  have hpt : (s'.mem p).pagetable = (s.mem p).pagetable := by rw [hR.mem, Function.update_self]
  rw [pgroundup_eq hs, pgroundup_eq hs']
  have hlt := fun h => hs'.writable_lt (x := x) hx h
  rw [pgroundup_eq hs', hpt] at hlt
  rw [hpt]
  by_cases hold : x / 4096 < min (((s.mem p).sz + 4095) / 4096) (((s'.mem p).sz + 4095) / 4096)
  · rw [writable_congr (hR.kept.pte x hold)]
    exact ⟨fun h => ⟨by omega, fun _ => h⟩, fun h => h.2 (by omega)⟩
  · refine ⟨fun h => ⟨hlt h, fun _ => ?_⟩, fun h => ?_⟩
    · have := hlt h
      omega
    · refine St.Zeroed.writable hR.zeroed (by omega) (by omega) ?_
      have hT : TRAPFRAME = 274877898752 := rfl
      unfold MAXVA
      omega

/-- Growing takes nothing away. -/
theorem Resized.keeps (hR : Resized p n s s') (hs : s.Space L p) (hs' : s'.Space L p) (hn : 0 ≤ n)
    (h : s.Writable (s.mem p).pagetable x = true) : s'.Writable (s'.mem p).pagetable x = true := by
  by_cases hx : x < TRAPFRAME
  · refine (hR.writable hs hs' hx).2 ⟨?_, fun _ => h⟩
    have hlt := hs.writable_lt hx h
    have hle : (s.mem p).sz ≤ (s'.mem p).sz := by
      have := hR.size
      omega
    rw [pgroundup_eq hs] at hlt
    rw [pgroundup_eq hs']
    exact lt_of_lt_of_le hlt (Nat.mul_le_mul_right _ (Nat.div_le_div_right (by omega)))
  · have hpt : (s'.mem p).pagetable = (s.mem p).pagetable := by rw [hR.mem, Function.update_self]
    have hmax : x < MAXVA := by
      unfold St.Writable at h
      simp only [Bool.and_eq_true, decide_eq_true_eq] at h
      exact h.1
    rw [hpt, writable_congr (hR.kept.top x hmax ?_)]
    · exact h
    · have hT : TRAPFRAME = 274877898752 := rfl
      unfold MAXVA at hmax
      unfold Special
      omega

/-- How `sys_sbrk` comes back, for every `int`. -/
theorem sbrk_answers (hs : m.st.Space L p) (hn : -2147483648 ≤ n ∧ n < 2147483648) :
    ∃ a m', (heapOs L p).sbrk m n = .ok (a, m') ∧ m'.st.Space L p ∧
      ((0 ≤ brkOf p m + n ∧ a = brkOf p m ∧ Resized p n m.st m'.st) ∨
        (0 < n ∧ a = FAILED ∧ Unmoved p m.st m'.st) ∨
        (brkOf p m + n < 0 ∧ a = brkOf p m ∧ m'.st = m.st)) := by
  have hle := hs.size_le
  obtain ⟨own, u, hH, hU⟩ := hs
  have hwp : (sysSbrk p n).wp (spec L True fun _ => False) (fun a s' => ∃ res,
      Settles L p n m.st res s' ∧ a = if res < 0 then -1 else ((m.st.mem p).sz : Int)) m.st := by
    have hint : toInt (m.st.mem p).sz = (m.st.mem p).sz := by
      unfold toInt
      rw [Nat.mod_eq_of_lt (by omega), if_pos (by omega)]
    refine wp_mem ?_
    refine wp_seq (growproc_settles hH hU hn) fun res s' hS => ?_
    rw [hint]
    by_cases hres : res < 0
    · rw [if_pos hres]
      exact ⟨res, hS, by rw [if_pos hres]⟩
    · rw [if_neg hres]
      exact ⟨res, hS, by rw [if_neg hres]⟩
  obtain ⟨a, m', hrun, res, hS, rfl⟩ := wp_runs hwp
  have hsbrk : (heapOs L p).sbrk m n =
      .ok (((if res < 0 then -1 else ((m.st.mem p).sz : Int)) % 18446744073709551616).toNat, m') := by
    unfold heapOs
    simp only [hrun]
  have hok : (((m.st.mem p).sz : Int) % 18446744073709551616).toNat = (m.st.mem p).sz := by omega
  refine ⟨_, m', hsbrk, hS.space, ?_⟩
  by_cases hroom : 0 ≤ ((m.st.mem p).sz : Int) + n
  · rcases hS.grew.exact hroom with ⟨rfl, hR⟩ | ⟨rfl, hU'⟩
    · exact .inl ⟨hroom, hok, hR⟩
    · refine .inr (.inl ⟨?_, rfl, hU'⟩)
      by_contra hneg
      exact absurd (hS.down (by omega)) (by decide)
  · grind [Settles, brkOf]

end Sbrk

/-! ## When `sbrk(16)` fails -/

/-- The pages that `walk` has to allocate on the way down from `pagetable`. -/
def St.missing (s : St) (va : Nat) : Nat → Nat → Nat
  | 0, _ => 0
  | level + 1, pagetable =>
    if s.word pagetable (PX (level + 1) va) &&& PTE_V ≠ 0 then
      s.missing va level (PTE2PA (s.word pagetable (PX (level + 1) va)))
    else level + 1

/-- `sbrk(16)` fails: the 16 bytes do not fit into the last page, and there are not as many pages to be
    had as a new one and the missing page-table pages above it need. -/
def Machine.Refuses (p : Nat) (m : Machine) : Prop :=
  PGROUNDUP (brkOf p m) < brkOf p m + 16 ∧
    ¬m.Supplies (m.st.missing (PGROUNDUP (brkOf p m)) 2 (m.st.mem p).pagetable + 1)

section Supply

variable {own : Nat → Place} {t : Owner} {r a b : Nat} {S : Nat → Prop} {map : Nat → Nat} {m' : Machine}

theorem ran_bind {α β : Type} {c : Vcode α} {f : α → Vcode β} {x : β}
    (h : (c >>= f).run (I := Calls) (Machine.serve L) m = .ok (x, m')) : ∃ y m1,
      c.run (I := Calls) (Machine.serve L) m = .ok (y, m1) ∧
      (f y).run (I := Calls) (Machine.serve L) m1 = .ok (x, m') :=
  run_bind_ok (I := Calls) (Machine.serve L) h

theorem run_kalloc {α : Type} {k : Nat → Vcode α} {pg : Nat}
    (h : Machine.serve L .kalloc m = .ok (pg, m')) :
    (kalloc >>= k).run (I := Calls) (Machine.serve L) m = (k pg).run (I := Calls) (Machine.serve L) m' :=
  run_call_ok (I := Calls) (Machine.serve L) (o := .kalloc) (k := k) h

/-- From an entry that is not there, `walk` allocates at every level. -/
theorem walkFrom_alloc (va l : Nat) (hpte : ∀ k, l = k + 1 → m.st.word a (PX l va) &&& PTE_V = 0)
    (ha : a ∉ m.st.freelist) (hnd : m.st.freelist.Nodup) (h0 : 0 ∉ m.st.freelist) :
    ∃ res m', (walkFrom va true l a).run (I := Calls) (Machine.serve L) m = .ok (res, m') ∧
      (res = none ↔ ¬m.Supplies l) := by
  induction l generalizing a m with
  | zero => exact ⟨_, m, rfl, by simp [Machine.Supplies]⟩
  | succ l ih =>
    have hrun : (walkFrom va true (l + 1) a).run (I := Calls) (Machine.serve L) m = (kalloc >>= fun pg =>
        if pg = 0 then pure none
        else do
          memset pg 0
          store a (PX (l + 1) va) (PA2PTE pg ||| PTE_V)
          walkFrom va true l pg).run (I := Calls) (Machine.serve L) m := by
      show Prog.run (I := Calls) (Machine.serve L) (if _ then _ else _) m = _
      rw [if_neg (not_not_intro (hpte l rfl)), if_neg (by decide)]
    rcases serve_kalloc L m with ⟨m', hk, -, hno⟩ | ⟨pg, rest, hf, hk, hsup⟩
    · exact ⟨none, m', hrun.trans (run_kalloc hk), by simp [hno]⟩
    · rw [hf] at ha hnd h0
      have hapg : a ≠ pg := List.ne_of_not_mem_cons ha
      obtain ⟨hpg, hnd⟩ := List.nodup_cons.1 hnd
      have hpg0 : 0 ≠ pg := List.ne_of_not_mem_cons h0
      obtain ⟨res, m', hw, hres⟩ := ih (a := pg) (m := ⟨((m.st.take pg rest).fill pg 0).store a (PX (l + 1) va)
        (PA2PTE pg ||| PTE_V), m.deny.tail⟩) (fun k _ => by simp [St.store, St.fill, hapg.symm]) hpg hnd
        (List.not_mem_of_not_mem_cons h0)
      refine ⟨res, m', (hrun.trans (run_kalloc hk)).trans ?_, hres.trans (not_congr (hsup l).symm)⟩
      rw [if_neg hpg0.symm]
      exact hw

/-- `walk` comes back without an entry exactly if it cannot get the pages that are missing. -/
theorem walkFrom_none_iff (va l q : Nat) (hH : Heap L own m.st) (hT : Table own m.st.word t r S map)
    (ha : own a = .node t l q) :
    ∃ res m', (walkFrom va true l a).run (I := Calls) (Machine.serve L) m = .ok (res, m') ∧
      (res = none ↔ ¬m.Supplies (m.st.missing va l a)) := by
  induction l generalizing a q with
  | zero => exact ⟨_, m, rfl, by simp [Machine.Supplies, St.missing]⟩
  | succ l ih =>
    rcases hT.down a l q _ ha (px_node (l + 1) va).1 with hzero | ⟨b, hb, hlab⟩
    · rw [St.missing, hzero, if_neg (by simp)]
      refine walkFrom_alloc va (l + 1) (fun _ _ => by simp [hzero]) ?_ hH.nodup ?_
      · rw [hH.free, ha]
        simp
      · rw [hH.free]
        intro h
        exact hH.ne_zero h (by simp) rfl
    · have hpa : PTE2PA (dirPte b) = b := PTE2PA_dirPte (hH.aligned hlab (by simp))
      obtain ⟨res, m', hw, hres⟩ := ih _ hlab
      refine ⟨res, m', ?_, ?_⟩
      · show Prog.run (I := Calls) (Machine.serve L) (if _ then _ else _) m = _
        rw [hb, if_pos (dirPte_valid b), hpa]
        exact hw
      · rw [St.missing, hb, if_pos (dirPte_valid b), hpa]
        exact hres

/-- What is missing depends on the nodes of the table only. -/
theorem missing_congr {s s' : St} (va l q : Nat) (hH : Heap L own s) (hT : Table own s.word t r S map)
    (ha : own a = .node t l q) (h : ∀ b l x, own b = .node t l x → s'.word b = s.word b) :
    s'.missing va l a = s.missing va l a := by
  induction l generalizing a q with
  | zero => rfl
  | succ l ih =>
    rw [St.missing, St.missing, h a _ _ ha]
    rcases hT.down a l q _ ha (px_node (l + 1) va).1 with hzero | ⟨b, hb, hlab⟩
    · rw [hzero, if_neg (by simp), if_neg (by simp)]
    · rw [hb, if_pos (dirPte_valid b), if_pos (dirPte_valid b), PTE2PA_dirPte (hH.aligned hlab (by simp))]
      exact ih _ hlab

/-- `mappages` of one page fails exactly if `walk` does. -/
theorem mappages_fails_iff {va pa perm : Nat} {ret : Int} (hH : Heap L own m.st)
    (hT : Table own m.st.word t r S map) (hva : va < MAXVA) (hal : va % PGSIZE = 0)
    (h : (mappages r va PGSIZE pa perm).run (I := Calls) (Machine.serve L) m = .ok (ret, m')) :
    ret ≠ 0 ↔ ¬m.Supplies (m.st.missing va 2 r) := by
  rw [mappages_page hal, mapLoop] at h
  obtain ⟨res, m1, hwalk, h⟩ := ran_bind h
  unfold walk at hwalk
  rw [if_neg (by omega)] at hwalk
  obtain ⟨res', m2, hw, hres⟩ := walkFrom_none_iff va 2 _ hH hT (hT.root_node hva)
  obtain ⟨rfl, -⟩ := Prod.mk.inj (Except.ok.inj (hwalk.symm.trans hw))
  rw [← hres]
  cases res with
  | none =>
    obtain ⟨rfl, -⟩ := Prod.mk.inj (Except.ok.inj h)
    simp
  | some e =>
    obtain ⟨pte, m3, -, h⟩ := ran_bind h
    split at h
    · cases h
    · obtain ⟨_, m4, -, h⟩ := ran_bind h
      rw [if_pos rfl] at h
      obtain ⟨rfl, -⟩ := Prod.mk.inj (Except.ok.inj h)
      simp

/-- `uvmalloc`, where one page is enough, fails exactly if it or the pages above it are not to be had. -/
theorem allocLoop_supplies {old new n res : Nat} (hH : Heap L own m.st)
    (hT : Table own m.st.word t r S map) (hal : a % PGSIZE = 0) (hlt : a < new) (hle : new ≤ a + PGSIZE)
    (hva : a < MAXVA)
    (h : (allocLoop r old new (n + 1) a).run (I := Calls) (Machine.serve L) m = .ok (res, m')) :
    (res = 0 ∧ ¬m.Supplies (m.st.missing a 2 r + 1)) ∨
    (res = new ∧ m.Supplies (m.st.missing a 2 r + 1)) := by
  rw [allocLoop, if_neg (by omega)] at h
  rcases serve_kalloc L m with ⟨m1, hk, -, hno⟩ | ⟨pg, rest, hf, hk, hsup⟩
  · rw [run_kalloc hk, if_pos rfl] at h
    obtain ⟨_, m2, -, h⟩ := ran_bind h
    exact .inl ⟨(congrArg Prod.fst (Except.ok.inj h)).symm, hno _⟩
  · obtain ⟨hpg, hH'⟩ : own pg = .free ∧ Heap L (Function.update own pg (.held t)) (m.st.take pg rest) :=
      hH.take hf (by simp) (by simp)
    have hword : ∀ b, b ≠ pg → ((m.st.take pg rest).fill pg 0).word b = m.st.word b := fun b hb => by
      simp [St.fill, St.take, hb]
    have hT' : Table (Function.update own pg (.held t)) _ t r S map :=
      hT.relabel (fun l x v => by rw [hpg]; simp) (by simp) hword
    have hmiss : ((m.st.take pg rest).fill pg 0).missing a 2 r = m.st.missing a 2 r :=
      missing_congr a 2 _ hH hT hT.root fun b l x hb => hword b (label_ne hb hpg (by simp))
    rw [run_kalloc hk, if_neg (hH.ne_zero hpg (by simp))] at h
    obtain ⟨_, m2, hset, h⟩ := ran_bind h
    obtain ⟨-, rfl⟩ := Prod.mk.inj (Except.ok.inj hset)
    obtain ⟨ret, m3, hmap, h⟩ := ran_bind h
    have hret := mappages_fails_iff (hH'.same rfl) hT' hva hal hmap
    rw [hmiss] at hret
    rw [hsup]
    by_cases hret0 : ret = 0
    · rw [if_neg (not_not_intro hret0)] at h
      refine .inr ⟨?_, not_not.1 fun hno => hret.2 hno hret0⟩
      cases n with
      | zero => cases h
      | succ n =>
        rw [allocLoop, if_pos hle] at h
        exact (congrArg Prod.fst (Except.ok.inj h)).symm
    · rw [if_pos hret0] at h
      obtain ⟨_, m4, -, h⟩ := ran_bind h
      obtain ⟨_, m5, -, h⟩ := ran_bind h
      exact .inl ⟨(congrArg Prod.fst (Except.ok.inj h)).symm, hret.1 hret0⟩

/-- And so does `growproc`, for 16 bytes. -/
theorem growproc_refuses {ret : Int} (hsp : m.st.Space L p)
    (h : (growproc p 16).run (I := Calls) (Machine.serve L) m = .ok (ret, m')) :
    (ret = -1 ∧ m.Refuses p) ∨ (ret = 0 ∧ ¬m.Refuses p) := by
  have hle := hsp.size_le
  have hround := pgroundup_eq hsp
  obtain ⟨own, u, hH, map, hT, -⟩ := hsp
  have huint : toUint (((m.st.mem p).sz : Int) + 16) = (m.st.mem p).sz + 16 := by
    unfold toUint
    omega
  obtain ⟨_, m1, hmem, h⟩ := ran_bind h
  obtain ⟨rfl, rfl⟩ := Prod.mk.inj (Except.ok.inj hmem)
  rw [if_pos (by decide), Nat.mod_eq_of_lt (by omega), huint] at h
  obtain ⟨res, m2, hu, h⟩ := ran_bind h
  have hres : (res = 0 ∧ m.Refuses p) ∨ (res = (m.st.mem p).sz + 16 ∧ ¬m.Refuses p) := by
    unfold uvmalloc at hu
    rw [if_neg (by omega)] at hu
    dsimp only at hu
    unfold Machine.Refuses brkOf
    by_cases hfit : (m.st.mem p).sz + 16 ≤ PGROUNDUP (m.st.mem p).sz
    · rw [allocLoop, if_pos hfit] at hu
      exact .inr ⟨(congrArg Prod.fst (Except.ok.inj hu)).symm, fun hr => by omega⟩
    · have hmax : MAXVA = 274877906944 := rfl
      rcases allocLoop_supplies hH hT (by unfold PGSIZE; omega) (by omega) (by unfold PGSIZE; omega)
        (by omega) hu with ⟨h0, hno⟩ | ⟨hnew, hsup⟩
      · exact .inl ⟨h0, by omega, hno⟩
      · exact .inr ⟨hnew, fun hr => hr.2 hsup⟩
  rcases hres with ⟨rfl, hr⟩ | ⟨rfl, hr⟩
  · rw [if_pos (by rfl)] at h
    exact .inl ⟨(congrArg Prod.fst (Except.ok.inj h)).symm, hr⟩
  · rw [if_neg (by omega)] at h
    obtain ⟨_, m3, -, h⟩ := ran_bind h
    exact .inr ⟨(congrArg Prod.fst (Except.ok.inj h)).symm, hr⟩

/-- **When `sbrk(16)` fails**, through the free list and the calls that are denied. -/
theorem sbrk_failed_iff (hsp : m.st.Space L p) (h : (heapOs L p).sbrk m 16 = .ok (a, m')) :
    a = FAILED ↔ m.Refuses p := by
  have hle := hsp.size_le
  have hF : FAILED = 18446744073709551615 := rfl
  unfold heapOs at h
  dsimp only at h
  cases hrun : (sysSbrk p 16).run (I := Calls) (Machine.serve L) m with
  | error e =>
    rw [hrun] at h
    cases h
  | ok x =>
    rw [hrun] at h
    obtain ⟨rfl, -⟩ := Prod.mk.inj (Except.ok.inj h)
    obtain ⟨_, m1, hmem, hrun⟩ := ran_bind hrun
    obtain ⟨rfl, rfl⟩ := Prod.mk.inj (Except.ok.inj hmem)
    obtain ⟨ret, m2, hgrow, hrun⟩ := ran_bind hrun
    rcases growproc_refuses hsp hgrow with ⟨rfl, hr⟩ | ⟨rfl, hr⟩
    · rw [if_pos (by decide)] at hrun
      rw [← congrArg Prod.fst (Except.ok.inj hrun)]
      exact iff_of_true rfl hr
    · rw [if_neg (by decide)] at hrun
      rw [← congrArg Prod.fst (Except.ok.inj hrun)]
      refine iff_of_false ?_ hr
      show (toInt (m.st.mem p).sz % 18446744073709551616).toNat ≠ FAILED
      unfold toInt
      rw [Nat.mod_eq_of_lt (by omega), if_pos (by omega)]
      omega

end Supply

/-! ## `malloc` -/

/-- The heap of process `p`: not yet used, or in good order below the break. -/
def HeapState (L : Layout) (p base : Nat) (s : Umalloc.Proc Machine) : Prop :=
  s.os.st.Space L p ∧ (Umalloc.Fresh (heapOs L p) base (brkOf p) s ∨
    ∃ R B, Umalloc.Heap (heapOs L p) base (brkOf p) s R B)

/-- The size `sbrk((int)k)` leaves, for `k` from 2^31 to 2^32. -/
def shrunk (sz k : Nat) : Nat := if sz + k < 4294967296 then sz else sz + k - 4294967296

/-- What has to hold of a request for `malloc` not to hand out memory that is not there: `16 * nunits`
    is an `int`, or the twelve bytes at the break that `malloc` writes cannot be touched once `sbrk` has
    shrunk the process, or (for the largest requests, which are taken for one of 16 bytes) the kernel has
    no pages for them or the bytes cannot be touched. -/
def RequestOk (L : Layout) (p : Nat) (m : Machine) (nbytes : Nat) : Prop :=
  unitsFor nbytes * 16 < 2147483648 ∨
  (unitsFor nbytes * 16 ≤ 4294967296 ∧ ∃ i, i < 12 ∧ ¬((heapOs L p).mapped m (brkOf p m + i) = true ∧
      brkOf p m + i < PGROUNDUP (shrunk (brkOf p m) (unitsFor nbytes * 16)))) ∨
  (unitsFor nbytes * 16 = 4294967312 ∧ (m.Refuses p ∨ ∃ i, i < 12 ∧ brkOf p m + i < PGROUNDUP (brkOf p m) ∧
      (heapOs L p).mapped m (brkOf p m + i) = false))

section Malloc

variable {base nbytes : Nat} {s : Umalloc.Proc Machine} {R B : List Extent}

/-- The first call finds a heap like the others. -/
theorem HeapState.heap (hs : HeapState L p base s) : ∃ s0 R B,
    Umalloc.Heap (heapOs L p) base (brkOf p) s0 R B ∧ s0.os = s.os ∧
    ∀ fuel n, s.malloc (heapOs L p) base fuel n = s0.malloc (heapOs L p) base fuel n := by
  obtain ⟨hsp, hF | ⟨R, B, hH⟩⟩ := hs
  · have hle := hsp.size_le
    obtain ⟨s0, hH, hos, hm⟩ := hF.heap (show (s.os.st.mem p).sz ≤ 4294967296 by omega)
    exact ⟨s0, _, _, hH, hos, hm⟩
  · exact ⟨s, R, B, hH, rfl, fun _ _ => rfl⟩

theorem units_eq (hn : nbytes < 4294967296) : unitsFor nbytes = (nbytes + 15) / 16 + 1 :=
  Nat.mod_eq_of_lt (by omega)

/-- No free block has 2^27 units. -/
theorem no_block (hH : Umalloc.Heap (heapOs L p) base (brkOf p) s R B) (hsp : s.os.st.Space L p)
    (hbig : 2147483648 ≤ unitsFor nbytes * 16) : ∀ b ∈ R, b.2 < 16 * unitsFor nbytes := by
  intro b hb
  have hle := hsp.size_le
  have hb' : b.1 + b.2 ≤ (s.os.st.mem p).sz := hH.block_le (List.mem_append_left B hb)
  omega

/-- A request for less than 2^31 bytes gets them below the break. -/
theorem malloc_within_small (hH : Umalloc.Heap (heapOs L p) base (brkOf p) s R B)
    (hsp : s.os.st.Space L p) (hn : nbytes < 4294967296)
    (hsmall : unitsFor nbytes * 16 < 2147483648)
    (h : s.malloc (heapOs L p) base fuel nbytes = .ok (q, s')) (hq : q ≠ 0) :
    q + nbytes ≤ brkOf p s'.os := by
  have hunits := units_eq hn
  obtain ⟨hmore, hmore'⟩ : morecoreUnits (unitsFor nbytes) * 16 < 2147483648 ∧
      0 < morecoreUnits (unitsFor nbytes) * 16 := by
    unfold morecoreUnits
    split <;> omega
  have hint : toInt (morecoreUnits (unitsFor nbytes) * 16) =
      (morecoreUnits (unitsFor nbytes) * 16 : Nat) := by
    unfold toInt
    rw [Nat.mod_eq_of_lt (by omega), if_pos (by omega)]
  -- when the heap has to grow, it does: otherwise the call would not come back
  have hans : (∀ b ∈ R, b.2 < 16 * unitsFor nbytes) →
      Answers (heapOs L p) (fun m => m.st.Space L p) (brkOf p) s.os
        (morecoreUnits (unitsFor nbytes) * 16) := by
    intro hno
    obtain ⟨a, m', hsbrk, ha, hheader⟩ := hH.malloc_asks hno h hq
    rw [hint] at hsbrk
    obtain ⟨a1, m1, hsbrk1, hsp', hcase⟩ := sbrk_answers hsp
      (show -2147483648 ≤ ((morecoreUnits (unitsFor nbytes) * 16 : Nat) : Int) ∧ _ by omega)
    obtain ⟨rfl, rfl⟩ := Prod.mk.inj (Except.ok.inj (hsbrk1.symm.trans hsbrk))
    have hle' := hsp'.size_le
    rcases hcase with ⟨-, rfl, hR⟩ | ⟨-, rfl, -⟩ | ⟨hneg, -⟩
    · have hsize := hR.size
      have hbrk : brkOf p m1 = brkOf p s.os + morecoreUnits (unitsFor nbytes) * 16 := by
        unfold brkOf
        omega
      refine ⟨_, m1, hsbrk, hsp', by unfold brkOf; omega,
        fun x hx => hR.keeps hsp hsp' (by omega) hx, .inr ⟨le_rfl, hbrk, fun x h1 h2 => ?_⟩⟩
      have hx : x < TRAPFRAME := by
        have hT : TRAPFRAME = 274877898752 := rfl
        unfold brkOf at h1 h2
        omega
      have h0 := hheader (by unfold brkOf; omega) 0 (by omega)
      have hw := (hR.writable hsp hsp' (x := (s.os.st.mem p).sz) (by
        have hT : TRAPFRAME = 274877898752 := rfl
        omega)).1 h0
      refine (hR.writable hsp hsp' hx).2 ⟨?_, fun hold => ?_⟩
      · rw [pgroundup_eq hsp']
        unfold brkOf at h1 h2
        omega
      · grind [pgroundup_eq, brkOf, writable_page]
    · exact absurd rfl ha
    · unfold brkOf at hneg
      omega
  obtain ⟨q1, s1, hs1, -, -, hres⟩ := hH.malloc hsp hn hmore hans (Nat.le_max_right fuel (2 * R.length + 1))
  rw [Umalloc.malloc_mono (Nat.le_max_left ..) h] at hs1
  obtain ⟨rfl, rfl⟩ := Prod.mk.inj (Except.ok.inj hs1)
  rcases hres with ⟨rfl, -⟩ | ⟨k, R', rfl, hH'⟩
  · exact absurd rfl hq
  · have : k + 16 * unitsFor nbytes ≤ brkOf p s'.os := hH'.block_le (b := (k, _)) (by simp)
    omega

/-- From 2^31 to 2^32 the request is taken for one to shrink; it always succeeds. -/
theorem sbrk_shrinks (hsp : m.st.Space L p) {k : Nat} (hk : 2147483648 ≤ k)
    (hk' : k ≤ 4294967296) : ∃ m', (heapOs L p).sbrk m (toInt k) = .ok (brkOf p m, m') ∧
      m'.st.Space L p ∧ ∀ x, x < TRAPFRAME → ((heapOs L p).mapped m' x = true ↔
        (heapOs L p).mapped m x = true ∧ x < PGROUNDUP (shrunk (brkOf p m) k)) := by
  have hint : toInt k = (k : Int) - 4294967296 := by
    unfold toInt
    split <;> omega
  obtain ⟨a, m', hsbrk, hsp', hcase⟩ := sbrk_answers hsp
    (show -2147483648 ≤ toInt k ∧ toInt k < 2147483648 by omega)
  rcases hcase with ⟨hroom, rfl, hR⟩ | ⟨hpos, -, -⟩ | ⟨hneg, rfl, hsame⟩
  · refine ⟨m', hsbrk, hsp', fun x hx => ?_⟩
    have hsize := hR.size
    have hshr : shrunk (brkOf p m) k = (m'.st.mem p).sz := by
      unfold shrunk brkOf
      rw [if_neg (by omega)]
      omega
    rw [hshr]
    refine (hR.writable hsp hsp' hx).trans ⟨fun h => ⟨h.2 ?_, h.1⟩, fun h => ⟨h.2, fun _ => h.1⟩⟩
    have hlt := h.1
    rw [pgroundup_eq hsp'] at hlt
    rw [pgroundup_eq hsp]
    exact lt_of_lt_of_le hlt (Nat.mul_le_mul_right _ (Nat.div_le_div_right (by omega)))
  · omega
  · refine ⟨m', hsbrk, hsp', fun x hx => ?_⟩
    have hshr : shrunk (brkOf p m) k = brkOf p m := by
      unfold shrunk
      rw [if_pos (by omega)]
    rw [hshr]
    show m'.st.Writable (m'.st.mem p).pagetable x = true ↔ _
    rw [hsame]
    exact ⟨fun h => ⟨h, hsp.writable_lt hx h⟩, fun h => h.1⟩

/-- Above 2^32 it is taken for one of 16 bytes. -/
theorem sbrk_sixteen (hsp : m.st.Space L p) :
    (m.Refuses p ∧ ∃ m', (heapOs L p).sbrk m 16 = .ok (FAILED, m')) ∨
    ∃ m', (heapOs L p).sbrk m 16 = .ok (brkOf p m, m') ∧ m'.st.Space L p ∧
      (∀ x, (heapOs L p).mapped m x = true → (heapOs L p).mapped m' x = true) ∧
      ∀ i, i < 12 → ((heapOs L p).mapped m' (brkOf p m + i) = true ↔
        (brkOf p m + i < PGROUNDUP (brkOf p m) → (heapOs L p).mapped m (brkOf p m + i) = true)) := by
  have hle := hsp.size_le
  obtain ⟨a, m', hsbrk, hsp', ⟨-, rfl, hR⟩ | ⟨-, rfl, -⟩ | ⟨hneg, -, -⟩⟩ :=
    sbrk_answers hsp (show -2147483648 ≤ (16 : Int) ∧ (16 : Int) < 2147483648 by decide)
  · refine .inr ⟨m', hsbrk, hsp', fun x hx => hR.keeps hsp hsp' (by decide) hx, fun i hi => ?_⟩
    have hT : TRAPFRAME = 274877898752 := rfl
    have hsize := hR.size
    refine (hR.writable hsp hsp' (x := brkOf p m + i) (by unfold brkOf; omega)).trans
      ⟨fun h => h.2, fun h => ⟨?_, h⟩⟩
    rw [pgroundup_eq hsp']
    unfold brkOf
    omega
  · exact .inl ⟨(sbrk_failed_iff hsp hsbrk).1 rfl, m', hsbrk⟩
  · unfold brkOf at hneg
    omega

/-- A request that is not as it should be is granted, and reaches above the break. -/
theorem malloc_exceeds (hs : HeapState L p base s) (hn : nbytes < 4294967296)
    (hbad : ¬RequestOk L p s.os nbytes) : ∃ fuel q s',
      s.malloc (heapOs L p) base fuel nbytes = .ok (q, s') ∧ q ≠ 0 ∧ brkOf p s'.os < q + nbytes := by
  obtain ⟨s0, R, B, hH, hos, hm⟩ := hs.heap
  have hsp := hs.1
  have hunits := units_eq hn
  have hle := hsp.size_le
  obtain ⟨hbig, hbad⟩ := not_or.1 hbad
  obtain ⟨hmid, htop⟩ := not_or.1 hbad
  have hbig : 2147483648 ≤ unitsFor nbytes * 16 := by omega
  rw [← hos] at hsp hmid htop hle
  -- whatever `sbrk` has done, the header is there
  obtain ⟨m', hsbrk, hsp', hheader, hkeep⟩ : ∃ m',
      (heapOs L p).sbrk s0.os (toInt (unitsFor nbytes * 16)) = .ok (brkOf p s0.os, m') ∧
      m'.st.Space L p ∧ Header (heapOs L p) m' (brkOf p s0.os) ∧
      ∀ x, x < brkOf p s0.os → (heapOs L p).mapped s0.os x = true → (heapOs L p).mapped m' x = true := by
    by_cases hle32 : unitsFor nbytes * 16 ≤ 4294967296
    · obtain ⟨m', hsbrk, hsp', hmap⟩ := sbrk_shrinks hsp hbig hle32
      have hT : TRAPFRAME = 274877898752 := rfl
      have hall : ∀ i, i < 12 → (heapOs L p).mapped s0.os (brkOf p s0.os + i) = true ∧
          brkOf p s0.os + i < PGROUNDUP (shrunk (brkOf p s0.os) (unitsFor nbytes * 16)) := by
        intro i hi
        by_contra hne
        exact hmid ⟨hle32, i, hi, hne⟩
      refine ⟨m', hsbrk, hsp', fun i hi => ?_, fun x hx hxm => ?_⟩
      · exact (hmap _ (by unfold brkOf; omega)).2 (hall i hi)
      · refine (hmap x ?_).2 ⟨hxm, ?_⟩
        · unfold brkOf at hx
          omega
        · have := (hall 0 (by omega)).2
          omega
    · have htop16 : unitsFor nbytes * 16 = 4294967312 := by omega
      have hint : toInt (unitsFor nbytes * 16) = 16 := by
        rw [htop16]
        rfl
      rw [hint]
      rcases sbrk_sixteen hsp with ⟨hfail, -⟩ | ⟨m', hsbrk, hsp', hkeep, hmap⟩
      · exact absurd ⟨htop16, .inl hfail⟩ htop
      · refine ⟨m', hsbrk, hsp', fun i hi => (hmap i hi).2 fun hlt => ?_, fun x _ hx => hkeep x hx⟩
        by_contra hne
        exact htop ⟨htop16, .inr ⟨i, hi, hlt, Bool.eq_false_iff.2 hne⟩⟩
  have hle' := hsp'.size_le
  obtain ⟨fuel, q, s', hcall, hos'⟩ := hH.malloc_believes (no_block hH hsp hbig) (by omega) hsbrk
    le_rfl (by unfold brkOf; omega) hheader hkeep
  refine ⟨fuel, q + 16, s', (hm fuel nbytes).trans hcall, by omega, ?_⟩
  rw [hos']
  unfold brkOf
  omega

/-- A request that is as it should be gets no memory above the break. -/
theorem malloc_within (hs : HeapState L p base s) (hn : nbytes < 4294967296)
    (hok : RequestOk L p s.os nbytes)
    (h : s.malloc (heapOs L p) base fuel nbytes = .ok (q, s')) (hq : q ≠ 0) :
    q + nbytes ≤ brkOf p s'.os := by
  obtain ⟨s0, R, B, hH, hos, hm⟩ := hs.heap
  have hsp := hs.1
  rw [hm] at h
  rw [← hos] at hsp hok
  have hle := hsp.size_le
  by_cases hsmall : unitsFor nbytes * 16 < 2147483648
  · exact malloc_within_small hH hsp hn hsmall h hq
  -- it does not come back with a block at all
  exfalso
  have hmore : morecoreUnits (unitsFor nbytes) = unitsFor nbytes := if_neg (by omega)
  obtain ⟨a, m', hsbrk, ha, hheader⟩ := hH.malloc_asks (no_block hH hsp (by omega)) h hq
  rw [hmore] at hsbrk
  rcases hok with hlt | ⟨hle32, i, hi, hne⟩ | ⟨htop, hcase⟩
  · omega
  · obtain ⟨m1, hsbrk1, -, hmap⟩ := sbrk_shrinks hsp (by omega) hle32
    obtain ⟨rfl, rfl⟩ := Prod.mk.inj (Except.ok.inj (hsbrk1.symm.trans hsbrk))
    have hT : TRAPFRAME = 274877898752 := rfl
    exact hne ((hmap _ (by unfold brkOf; omega)).1 (hheader (by unfold brkOf; omega) i hi))
  · have hint : toInt (unitsFor nbytes * 16) = 16 := by
      rw [htop]
      rfl
    rw [hint] at hsbrk
    rcases hcase with hfail | ⟨i, hi, hlt, hunmapped⟩
    · exact ha ((sbrk_failed_iff hsp hsbrk).2 hfail)
    · rcases sbrk_sixteen hsp with ⟨-, m1, hfail⟩ | ⟨m1, hsbrk1, -, -, hmap⟩
      · exact ha (congrArg Prod.fst (Except.ok.inj (hsbrk.symm.trans hfail)))
      · obtain ⟨rfl, rfl⟩ := Prod.mk.inj (Except.ok.inj (hsbrk1.symm.trans hsbrk))
        have := (hmap i hi).1 (hheader (by unfold brkOf; omega) i hi) hlt
        rw [hunmapped] at this
        exact absurd this (by decide)

end Malloc

/-- **What `malloc` returns lies below the break**, for a request and a heap in whatever state, exactly if
    the request is one that `sbrk` is asked for as it is, or one that does not come back with a block. -/
theorem malloc_below_break_iff (L : Layout) (p base : Nat) (s : Umalloc.Proc Machine)
    (hs : HeapState L p base s) (nbytes : Nat) (hn : nbytes < 4294967296) :
    (∀ fuel q s', s.malloc (heapOs L p) base fuel nbytes = .ok (q, s') → q ≠ 0 →
      q + nbytes ≤ brkOf p s'.os) ↔ RequestOk L p s.os nbytes := by
  constructor
  · grind [malloc_exceeds]
  · intro hok fuel q s' hcall hq
    exact malloc_within hs hn hok hcall hq

/-- A process of 5000 bytes that has not called `malloc` yet; `base` is at 16. -/
theorem smallHeap : ∃ s, HeapState bareLayout 0 16 s ∧ brkOf 0 s.os = 5000 ∧
    ∀ x, x < 8192 → (heapOs bareLayout 0).mapped s.os x = true := by
  obtain ⟨m, own, -, hmem, hH, hU, hz⟩ := exists_space 5000 0x87FE0000 (by decide) (by decide)
    (by decide +kernel)
  have hsp : m.st.Space bareLayout 0 := by
    refine ⟨own, true, hH, ?_⟩
    rw [hmem]
    exact hU
  have hmap : ∀ x, x < 8192 → (heapOs bareLayout 0).mapped m x = true := by
    intro x hx
    show m.st.Writable (m.st.mem 0).pagetable x = true
    rw [hmem]
    exact St.Zeroed.writable hz (Nat.zero_le _) (by omega) (by unfold MAXVA; omega)
  have hbrk : brkOf 0 m = 5000 := by
    unfold brkOf
    rw [hmem]
  exact ⟨⟨fun _ => 0, 0, m, []⟩, ⟨hsp, .inl ⟨rfl, rfl, ⟨fun i hi => hmap _ (by omega), by rw [hbrk]; decide⟩,
    by decide⟩⟩, hbrk, hmap⟩

theorem malloc_hundred : ∃ s, HeapState bareLayout 0 16 s ∧ brkOf 0 s.os = 5000 ∧
    ∀ fuel q s', s.malloc (heapOs bareLayout 0) 16 fuel 100 = .ok (q, s') → q ≠ 0 →
      q + 100 ≤ brkOf 0 s'.os := by
  obtain ⟨s, hs, hbrk, -⟩ := smallHeap
  exact ⟨s, hs, hbrk, (malloc_below_break_iff bareLayout 0 16 s hs 100 (by decide)).2 (.inl (by decide))⟩

/-- A process of 5000 bytes asks for 2^31 bytes and gets them, at its break. -/
theorem malloc_two_gigabytes : ∃ s fuel q s', HeapState bareLayout 0 16 s ∧ brkOf 0 s.os = 5000 ∧
    s.malloc (heapOs bareLayout 0) 16 fuel 2147483648 = .ok (q, s') ∧ q ≠ 0 ∧
    brkOf 0 s'.os < q + 2147483648 := by
  obtain ⟨s, hs, hbrk, hmap⟩ := smallHeap
  have hbad : ¬RequestOk bareLayout 0 s.os 2147483648 := by
    rintro (h | ⟨-, i, hi, hne⟩ | ⟨h, -⟩)
    · exact absurd h (by decide)
    · refine hne ⟨hmap _ (by omega), ?_⟩
      rw [hbrk]
      have hround : PGROUNDUP (shrunk 5000 (unitsFor 2147483648 * 16)) = 8192 := by decide
      omega
    · exact absurd h (by decide)
  obtain ⟨fuel, q, s', hcall, hq, hlt⟩ := malloc_exceeds hs (by decide) hbad
  exact ⟨s, fuel, q, s', hs, hbrk, hcall, hq, hlt⟩

end Xv6.Vm
