/-
  `piperead` INTO USER MEMORY (`kernel/pipe.c`).

  The loop moves one byte in a round: it takes the byte out of the ring, and THEN copies it to the user.  If
  the copy faults the byte is gone, and the count that is returned does not have it.

  `pipereadFrom_takes` says where the loop stops: after `k` bytes, all of them in the user's buffer, it has
  either run out of bytes or of room, or the address of byte `k` faults.  It takes `k` bytes out of the ring in
  the first case and `k + 1` in the second (`Taken`).  The pipe and the count are those of the model without
  user memory (`Pipe.readFrom`).
-/
import Xv6.Fs.Fifo
import Xv6.Vm.Copy
import Xv6.Vm.Sbrk

namespace Xv6.Vm

open Prog Vcode Bytes Fifo

namespace Vcode

/-- The loop of `piperead`, from byte `i` on: the count and the pipe. -/
def pipereadFrom (pagetable addr : Nat) : Nat → Nat → Pipe → Vcode (Nat × Pipe)
  | 0, i, x => pure (i, x)
  | n + 1, i, x =>
    if x.nread = x.nwrite then pure (i, x)
    else do
      let ch := x.data (x.nread % PIPESIZE)
      let x := { x with nread := inc32 x.nread }
      if (← copyout pagetable (wrap (addr + i)) (fun _ => ch) 1) = -1 then pure (i, x)
      else pipereadFrom pagetable addr n (i + 1) x

/-- `piperead` up to its next sleep, if there is one. -/
def piperead (pagetable addr : Nat) (n : Int) (killed : Bool) (x : Pipe) : Vcode (Pass × Pipe) :=
  if x.nread = x.nwrite ∧ x.writeopen = true then
    pure (if killed then .returns (-1) else .sleeps 0, x)
  else do
    let r ← pipereadFrom pagetable addr n.toNat 0 x
    pure (.returns r.1, r.2)

end Vcode

/-! ## Where the loop stops -/

section Loop

variable {L : Layout} {may : Prop} {ok : Err → Prop} {s s1 : St} {r addr : Nat} {q : List UInt8}

/-- `k` bytes of the queue `q` are in the buffer, and `rest` is what the pipe holds then. -/
structure Taken (r addr : Nat) (q : List UInt8) (n : Nat) (s : St) (k : Nat) (rest : List UInt8) (s' : St) : Prop
    where
  stored : Stored r addr (ofList q) k s s'
  there : ∀ j, j < k → s.frame r (addr + j) ≠ none
  stop : (k = min n q.length ∧ rest = q.drop k) ∨
    (k < min n q.length ∧ s.frame r (addr + k) = none ∧ rest = q.drop (k + 1))

/-- The next address does not wrap: the one before it is an address of the user. -/
theorem wrap_next {i : Nat} (haddr : addr < 18446744073709551616)
    (hthere : ∀ j, j < i → s.frame r (addr + j) ≠ none) : wrap (addr + i) = addr + i := by
  unfold wrap
  refine Nat.mod_eq_of_lt ?_
  cases i with
  | zero => exact haddr
  | succ i =>
    obtain ⟨hlt, -⟩ := frame_ne_none.mp (hthere i (Nat.lt_succ_self i))
    unfold MAXVA at hlt
    omega

theorem copyout_one (a : Nat) : (s.userMem r).copyout a 1 = true ↔ s.frame r a ≠ none := by
  rw [← userMem_page_ne]
  unfold UserMem.copyout UserMem.copyoutFrom
  rw [if_neg Nat.one_ne_zero]
  cases (s.userMem r).page (a / PGSIZE) with
  | none => simp
  | some pg => simp [UserMem.copyoutFrom]

theorem pipereadFrom_takes (ht : s.UserTable r) (haddr : addr < 18446744073709551616) {n : Nat} (k : Nat)
    {i : Nat} {x : Pipe} (hk : i + k = n) (hi : i ≤ q.length) (hx : Holds x (q.drop i))
    (hst : Stored r addr (ofList q) i s s1) (hthere : ∀ j, j < i → s.frame r (addr + j) ≠ none) :
    (pipereadFrom r addr k i x).wp (spec L may ok) (fun res s' =>
      res = x.readFrom (s.userMem r) addr k i ∧
      ∃ rest, Holds res.2 rest ∧ Taken r addr q n s res.1 rest s') s1 := by
  -- the bytes before `i` are in the buffer, and those from `i` on in the ring
  induction k generalizing i x s1 with
  | zero => exact ⟨rfl, _, hx, hst, hthere, .inl ⟨by omega, rfl⟩⟩
  | succ k ih =>
    rw [pipereadFrom, Pipe.readFrom]
    by_cases hempty : x.nread = x.nwrite
    · rw [if_pos hempty, if_pos hempty]
      have hnil := (hx.empty_iff size_lt).mp hempty
      have hlen := List.drop_eq_nil_iff.mp hnil
      exact ⟨rfl, _, hx, hst, hthere, .inl ⟨by omega, rfl⟩⟩
    rw [if_neg hempty, if_neg hempty]
    have hlt : i < q.length := by
      refine Nat.lt_of_le_of_ne hi fun h => hempty ((hx.empty_iff size_lt).mpr ?_)
      rw [h]
      exact List.drop_length
    have hdrop : q.drop i = q[i] :: q.drop (i + 1) := List.drop_eq_getElem_cons hlt
    rw [hdrop] at hx
    have hch : x.data (x.nread % PIPESIZE) = q[i] := hx.front
    have hpop : Holds { x with nread := inc32 x.nread } (q.drop (i + 1)) := hx.pop size_dvd
    have hwrap := wrap_next haddr hthere
    rw [show (addr + i) % 18446744073709551616 = wrap (addr + i) from rfl, hwrap]
    dsimp only
    refine wp_seq (copyout_stores _ _ _ (hst.table ht)) ?_
    rintro res s2 (⟨rfl, hall, hst'⟩ | ⟨rfl, m, hm, hnone, hst'⟩)
    · -- delivered
      have hthere' : s.frame r (addr + i) ≠ none := by
        rw [← hst.frame]
        exact hall 0 Nat.one_pos
      rw [if_neg (by decide), if_pos ((copyout_one _).mpr hthere')]
      refine ih (by omega) hlt hpop (hst.append (hst'.congr ?_)) ?_
      · intro j hj
        obtain rfl : j = 0 := by omega
        rw [hch]
        exact (List.getD_eq_getElem q 0 hlt).symm
      · grind
    · -- the address faults, and the byte is lost
      obtain rfl : m = 0 := by omega
      have hnone : s.frame r (addr + i) = none := by
        rw [← hst.frame]
        exact hnone
      rw [if_pos rfl, if_neg (by rw [copyout_one]; exact not_not.mpr hnone)]
      refine ⟨rfl, _, hpop, ?_, hthere, .inr ⟨by omega, hnone, rfl⟩⟩
      exact hst.append (hst'.congr fun j hj => absurd hj (Nat.not_lt_zero j))

theorem readFrom_nwrite (um : UserMem) (addr n : Nat) {i : Nat} {x : Pipe} :
    (x.readFrom um addr n i).2.nwrite = x.nwrite := by
  induction n generalizing i x with
  | zero => rfl
  | succ n ih =>
    rw [Pipe.readFrom]
    split
    · rfl
    · dsimp only
      split
      · exact ih
      · rfl

/-- What has been taken out of the ring is how far `nread` has moved. -/
theorem Holds.nread {x x' : Pipe} {c : Nat} (hx : Holds x q) (hx' : Holds x' (q.drop c)) (hw : x'.nwrite = x.nwrite)
    (hc : c ≤ q.length) : x'.nread = (x.nread + c) % 4294967296 := by
  have heq := hx.eq
  have heq' := hx'.eq
  have hlt := hx.lt
  have hlt' := hx'.lt
  rw [List.length_drop] at heq'
  omega

/-- The call sleeps or gives up on an empty pipe, or it returns what the loop has done. -/
theorem piperead_spec (ht : s.UserTable r) (haddr : addr < 18446744073709551616) {x : Pipe} (hx : Holds x q)
    (n : Int) (killed : Bool) : (piperead r addr n killed x).wp (spec L may ok) (fun res s' =>
      (q = [] ∧ x.writeopen = true ∧ ∀ c : Nat, res.1 ≠ .returns c) ∨
      ∃ (c : Nat) (rest : List UInt8), res.1 = .returns c ∧ res.2.nwrite = x.nwrite ∧ Holds res.2 rest ∧
        Taken r addr q n.toNat s c rest s') s := by
  unfold piperead
  by_cases hsleep : x.nread = x.nwrite ∧ x.writeopen = true
  · rw [if_pos hsleep]
    refine .inl ⟨(hx.empty_iff size_lt).mp hsleep.1, hsleep.2, fun c hc => ?_⟩
    cases killed with
    | false => cases hc
    | true =>
      have : (-1 : Int) = c := Pass.returns.inj hc
      omega
  · rw [if_neg hsleep]
    refine wp_seq (pipereadFrom_takes ht haddr n.toNat (Nat.zero_add _) (Nat.zero_le _) hx
      (.zero r addr _ s) fun j hj => absurd hj (Nat.not_lt_zero j)) ?_
    rintro res s' ⟨hres, rest, hx', htaken⟩
    refine .inr ⟨res.1, rest, rfl, ?_, hx', htaken⟩
    show res.2.nwrite = _
    rw [hres]
    exact readFrom_nwrite ..

end Loop

/-! ## The call -/

/-- **A pipe read consumes what it delivers exactly if nothing faults.**  For every page table whose user pages
    are different frames, every pipe, every `n` and every address: when the call returns a count `c`, then the
    `c` oldest bytes of the queue are in the buffer and the others still in the pipe, if and only if the
    addresses of all the bytes that there are for the call are accessible. -/
theorem piperead_consumes_iff (L : Layout) (m : Machine) (r : Nat) (ht : m.st.UserTable r) (x : Pipe)
    (q : List UInt8) (hx : Holds x q) (addr : UInt64) (n : Int) (killed : Bool) :
    ∃ o x' m', (piperead r addr.toNat n killed x).run (I := Calls) (Machine.serve L) m = .ok ((o, x'), m') ∧
      ∀ c : Nat, o = .returns c → ((c ≤ q.length ∧ x'.nread = (x.nread + c) % 4294967296 ∧
          (∀ j, j < c → (m'.st.userMem r).byteAt (addr.toNat + j) = q.getD j 0) ∧ Holds x' (q.drop c)) ↔
        ∀ j, j < min n.toNat q.length → m.st.Accessible r (addr.toNat + j)) := by
  obtain ⟨⟨o, x'⟩, m', hrun, hpost⟩ := wp_runs (L := L) (piperead_spec ht addr.toNat_lt hx n killed)
  refine ⟨o, x', m', hrun, fun c hc => ?_⟩
  rcases hpost with ⟨-, -, hnot⟩ | ⟨k, rest, ho, hw, hx', hst, hthere, hstop⟩
  · exact absurd hc (hnot c)
  obtain rfl : k = c := Int.ofNat.inj (Pass.returns.inj (ho.symm.trans hc))
  have hbytes : ∀ j, j < k → (m'.st.userMem r).byteAt (addr.toNat + j) = q.getD j 0 := fun j hj =>
    hst.byteAt hj (hthere j hj)
  rcases hstop with ⟨rfl, rfl⟩ | ⟨hlt, hnone, rfl⟩
  · have hle : min n.toNat q.length ≤ q.length := Nat.min_le_right ..
    exact iff_of_true ⟨hle, Holds.nread hx hx' hw hle, hbytes, hx'⟩ fun j hj => frame_ne_none.mp (hthere j hj)
  · refine iff_of_false ?_ fun h => frame_ne_none.mpr (h k hlt) hnone
    rintro ⟨-, hread, -⟩
    -- one byte more is gone
    have hread' : x'.nread = (x.nread + (k + 1)) % 4294967296 :=
      Holds.nread hx hx' hw (show k + 1 ≤ q.length by omega)
    omega

/-- A pipe with `AB` in it. -/
def pipeAB : Pipe := ⟨fun i => if i = 0 then 65 else 66, 0, 2, true, true⟩

theorem pipeAB_holds : Holds pipeAB [65, 66] where
  lt := by decide
  eq := rfl
  le := by decide
  get i hi := by
    have hi : i < 2 := hi
    interval_cases i <;> rfl

/-- A process with one page reads one of two bytes to address 0. -/
theorem piperead_consumes_one : ∃ m r, m.st.UserTable r ∧
    ∃ x' m', (piperead r 0 1 false pipeAB).run (I := Calls) (Machine.serve bareLayout) m =
        .ok ((.returns 1, x'), m') ∧
      x'.nread = 1 ∧ (m'.st.userMem r).byteAt 0 = 65 ∧ Holds x' [66] := by
  obtain ⟨m, own, -, hmem, hH, hU, hz⟩ := exists_space 4096 0x87FE0000 (by decide) (by decide)
    (by decide +kernel)
  have ht := hU.userTable hH
  have hacc : m.st.Accessible 0x87FE0000 0 := St.Zeroed.accessible hz (Nat.zero_le _) (by decide) (by decide)
  obtain ⟨o, x', m', hrun, hiff⟩ := piperead_consumes_iff bareLayout m 0x87FE0000 ht pipeAB [65, 66] pipeAB_holds
    0 1 false
  -- it returns 1: there is a byte, and its address is accessible
  have ho : o = .returns 1 := by
    obtain ⟨x, m'', hrun', hpost⟩ := wp_runs (m := m) (L := bareLayout)
      (piperead_spec ht (show 0 < 18446744073709551616 by decide) pipeAB_holds 1 false)
    obtain ⟨rfl, -⟩ := Prod.mk.inj (Except.ok.inj (hrun.symm.trans hrun'))
    rcases hpost with ⟨hnil, -⟩ | ⟨c, rest, ho, -, -, -, -, ⟨rfl, -⟩ | ⟨hc, hnone, -⟩⟩
    · cases hnil
    · exact ho
    · have hc : c < 1 := hc
      obtain rfl : c = 0 := by omega
      exact absurd hnone (frame_ne_none.mpr hacc)
  subst ho
  refine ⟨m, 0x87FE0000, ht, x', m', hrun, ?_⟩
  obtain ⟨-, hread, hbytes, hx'⟩ := (hiff 1 rfl).mpr fun j hj => by
    have hj : j < 1 := hj
    obtain rfl : j = 0 := by omega
    exact hacc
  exact ⟨hread, hbytes 0 Nat.one_pos, hx'⟩

/-- **A read that loses a byte.**  A process with one page reads one byte to address 4096, which it does not
    have: the call returns 0, and `A` is gone. -/
theorem piperead_loses_byte : ∃ m r, m.st.UserTable r ∧ Holds pipeAB [65, 66] ∧
    ∃ x' m', (piperead r 4096 1 false pipeAB).run (I := Calls) (Machine.serve bareLayout) m =
        .ok ((.returns 0, x'), m') ∧ x'.nread = 1 ∧ Holds x' [66] := by
  obtain ⟨m, own, -, hmem, hH, hU, hz⟩ := exists_space 4096 0x87FE0000 (by decide) (by decide)
    (by decide +kernel)
  have ht := hU.userTable hH
  refine ⟨m, 0x87FE0000, ht, pipeAB_holds, ?_⟩
  have hnone : m.st.frame 0x87FE0000 4096 = none := by
    by_contra h
    obtain ⟨-, w, hw, -⟩ := frame_ne_none.mp h
    have := (User.pte_iff hH hU (show 4096 < TRAPFRAME by decide)).mp (by rw [hw]; simp)
    omega
  obtain ⟨⟨o, x'⟩, m', hrun, hpost⟩ := wp_runs (L := bareLayout)
    (piperead_spec ht (show 4096 < 18446744073709551616 by decide) pipeAB_holds 1 false)
  rcases hpost with ⟨hnil, -⟩ | ⟨c, rest, ho, hw, hx', -, hthere, hstop⟩
  · cases hnil
  obtain rfl : c = 0 := by
    by_contra hc
    exact hthere 0 (by omega) hnone
  rcases hstop with ⟨h, -⟩ | ⟨-, -, rfl⟩
  · cases h
  obtain rfl : o = .returns 0 := ho
  exact ⟨x', m', hrun, Holds.nread pipeAB_holds (c := 1) hx' hw (by decide), hx'⟩

end Xv6.Vm
