/-
  A SMALL MACHINE: the last 32 pages of memory, all free, and on it a process with as much memory as one
  likes.  What is proved about every machine is run on this one.
-/
import Xv6.Fs.Image
import Xv6.Vm.User

namespace Xv6.Vm

open Prog Vcode

/-- The kernel ends 32 pages before memory does. -/
def bareLayout : Layout := ⟨0x87FE0000, KERNBASE, by decide⟩

/-- All pages are free. -/
def bare : St where
  freelist := (List.range 32).map fun j => 0x87FE0000 + 4096 * j
  word := fun _ _ => 0
  mem := fun _ => .zero

def bareOwn (a : Nat) : Place := if bareLayout.Page a then .free else .outside

theorem bare_heap : Heap bareLayout bareOwn bare where
  page a := by grind [bareOwn]
  free a := by
    have hmem : a ∈ bare.freelist ↔ bareLayout.Page a := by
      show a ∈ List.map _ _ ↔ a % PGSIZE = 0 ∧ 0x87FE0000 ≤ a ∧ a + PGSIZE ≤ PHYSTOP
      rw [List.mem_map]
      unfold PGSIZE PHYSTOP
      constructor
      · rintro ⟨j, hj, rfl⟩
        have hj := List.mem_range.mp hj
        omega
      · rintro ⟨h1, h2, h3⟩
        exact ⟨(a - 0x87FE0000) / 4096, List.mem_range.mpr (by omega), by omega⟩
    rw [hmem]
    unfold bareOwn
    split
    · next h => exact iff_of_true h rfl
    · next h => exact iff_of_false h (by decide)
  nodup := by decide

theorem bare_absent (t : Owner) : Absent bareOwn t := by
  intro a ha
  unfold bareOwn at ha ⊢
  split at ha
  · next h => rw [if_pos h]
  · exact absurd ha id

/-- Process 0 gets a page table, and `sz` bytes of memory. -/
def spaceOf (sz : Nat) : Vcode (Nat × Nat) := do
  let r ← procPagetable bareLayout KERNBASE
  if r = 0 then pure (0, 0)
  else do
    let sz1 ← uvmalloc r 0 sz
    setMem 0 ⟨r, sz, KERNBASE, []⟩
    pure (r, sz1)

theorem Mapping.noPages {map : Nat → Nat} {u : Bool} (h : Mapping 0 u map) (u' : Bool) : Mapping 0 u' map :=
  ⟨h.iff, h.super, fun _ v hv => absurd hv (Nat.not_lt_zero v)⟩

theorem User.noPages {own : Nat → Place} {s : St} {t : Owner} {r : Nat} {u : Bool} (h : User own s t r 0 u)
    (u' : Bool) : User own s t r 0 u' := by
  obtain ⟨map, hT, hm, hheld⟩ := h
  exact ⟨map, hT, hm.noPages u', hheld⟩

/-- A machine on which process 0 has `sz` bytes of memory, if there is so much. -/
theorem exists_space (sz r : Nat) (hr : r ≠ 0) (hsz : sz ≠ 0)
    (hrun : ((spaceOf sz).run (Machine.serve bareLayout) ⟨bare, []⟩).toOption.map (·.1) = some (r, sz)) :
    ∃ m own, (spaceOf sz).run (Machine.serve bareLayout) ⟨bare, []⟩ = .ok ((r, sz), m) ∧
      m.st.mem 0 = ⟨r, sz, KERNBASE, []⟩ ∧ Heap bareLayout own m.st ∧
      User own m.st (.proc 0) r ((sz + 4095) / 4096) true ∧ St.Zeroed r 0 ((sz + 4095) / 4096) m.st := by
  have hp : (spaceOf sz).wp (spec bareLayout True fun _ => False) (fun res s' => res.1 ≠ 0 → res.2 = sz →
      s'.mem 0 = ⟨res.1, sz, KERNBASE, []⟩ ∧ ∃ own, Heap bareLayout own s' ∧
        User own s' (.proc 0) res.1 ((sz + 4095) / 4096) true ∧
        St.Zeroed res.1 0 ((sz + 4095) / 4096) s') bare := by
    unfold spaceOf
    refine wp_seq (procPagetable_spec bare_heap (bare_absent (.proc 0)) KERNBASE) ?_
    rintro r s (⟨rfl, -⟩ | ⟨hr, own, -, hH, hU⟩)
    · rw [if_pos rfl]
      exact fun h => absurd rfl h
    · rw [if_neg hr]
      have hU : User own s (.proc 0) r ((0 + 4095) / 4096) true := hU.noPages true
      refine wp_seq (uvmalloc_spec hH hU) ?_
      rintro sz1 s' ⟨⟨rfl, -⟩ | ⟨rfl, ⟨own', -, hH', hU'⟩, hzero⟩, -⟩
      · exact wp_setMem fun _ h0 => absurd h0.symm hsz
      · exact wp_setMem fun _ _ => ⟨St.setMem_self .., own', hH'.same rfl, hU', hzero⟩
  obtain ⟨res, m, hok, hQ⟩ := wp_runs (m := ⟨bare, []⟩) hp
  rw [hok] at hrun
  obtain rfl : res = (r, sz) := Option.some.inj hrun
  obtain ⟨hmem, own, hH, hU, hzero⟩ := hQ hr rfl
  exact ⟨m, own, hok, hmem, hH, hU, hzero⟩

end Xv6.Vm
