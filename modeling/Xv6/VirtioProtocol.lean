/-
  THE VIRTIO QUEUE PROTOCOL: what every interleaving of driver, device and interrupts does.

  The abstract side is `Requests`: each buffer has at most one request, with the head of its chain and a
  stage.  The events move it along `avail → taken → used → cleared` and away, and nothing else is
  allowed: a history that `Requests` accepts clears every request ONCE, and only after the device has
  taken and completed that very request.

  `Inv` relates the two levels.  A head is in the avail ring, with the device, or in the used ring
  EXACTLY when its request has that stage, so no ring can overflow: of three linked descriptors only one
  is a head.  Each party's step is one lemma; the device's steps only move a head from one list to the
  next.
-/
import Xv6.Lib.Ring
import Xv6.Virtio
import Mathlib.Data.Set.Card

namespace Xv6.Virtio

open Function Ring List Idx Step

/-! ## The abstract protocol -/

/-- How far a request has come. -/
inductive Stage
  | avail
  | taken
  | used
  | cleared
deriving DecidableEq

/-- The requests that were submitted and have not returned, by their buffer. -/
abbrev Requests := Nat → Option (Nat × Stage)

variable {d : Disk} {s : Sys} {pc : Pc} {es : List Event} {σ : Requests} {x : Option (Nat × Stage)}
  {st st' : Stage} {q : List Nat} {b b' blockno i : Nat}

namespace Requests

/-- One event of one request. -/
inductive Step (σ : Requests) : Event → Requests → Prop
  | submit {b i : Nat} (h : σ b = none) (hi : ∀ b' st, σ b' ≠ some (i, st)) :
      Step σ (.submit b i) (update σ b (some (i, .avail)))
  | take {b i : Nat} (h : σ b = some (i, .avail)) :
      Step σ (.take i) (update σ b (some (i, .taken)))
  | complete {b i : Nat} (h : σ b = some (i, .taken)) :
      Step σ (.complete i) (update σ b (some (i, .used)))
  | clear {b i : Nat} (h : σ b = some (i, .used)) :
      Step σ (.clear b) (update σ b (some (i, .cleared)))
  | returned {b i : Nat} (h : σ b = some (i, .cleared)) : Step σ (.returned b) (update σ b none)
  | internal : Step σ .internal σ

/-- The protocol accepts the history. -/
inductive Run : List Event → Requests → Prop
  | init : Run [] fun _ => none
  | step {h : List Event} {e : Event} {σ σ' : Requests} (hr : Run h σ) (hs : Step σ e σ') :
      Run (h ++ [e]) σ'

/-- Whether the last request of `b` still waits for `b->disk` to be cleared. -/
def pending (σ : Requests) (b : Nat) : Nat :=
  match σ b with
  | none => 0
  | some (_, st) => if st = .cleared then 0 else 1

def isSubmit (b : Nat) : Event → Bool
  | .submit b' _ => b' = b
  | _ => false

/-- The requests of buffer `b`. -/
def submits (b : Nat) (h : List Event) : Nat := h.countP (isSubmit b)

/-- Every request is cleared once, or is still pending. -/
theorem Run.clears (hr : Run es σ) (b : Nat) : submits b es = es.count (.clear b) + σ.pending b := by
  induction hr with
  | init => rfl
  | @step h e σ σ' hr hs ih =>
    unfold submits at ih ⊢
    rw [countP_append, count_append, ih]
    unfold pending
    cases hs with
    | @submit b' i hb hi =>
      grind [isSubmit]
    | @take b' i hb | @complete b' i hb =>
      grind [isSubmit]
    | @clear b' i hb =>
      grind [isSubmit]
    | @returned b' i hb =>
      grind [isSubmit]
    | internal => simp [isSubmit]

/-- The heads of the requests in one stage. -/
def heads (σ : Requests) (st : Stage) : Set Nat := {i | ∃ b, σ b = some (i, st)}

/-- Different requests have different heads. -/
def Distinct (σ : Requests) : Prop :=
  ∀ b b' i st st', σ b = some (i, st) → σ b' = some (i, st') → b = b'

section Heads

variable {j : Nat} {st'' : Stage}

theorem mem_heads_update :
    j ∈ heads (update σ b x) st ↔ x = some (j, st) ∨ ∃ b', b' ≠ b ∧ σ b' = some (j, st) := by
  constructor
  · rintro ⟨b', hb'⟩
    by_cases he : b' = b
    · subst he
      rw [update_self] at hb'
      exact .inl hb'
    · rw [update_of_ne he] at hb'
      exact .inr ⟨b', he, hb'⟩
  · rintro (hx | ⟨b', he, hb'⟩)
    · exact ⟨b, (update_self ..).trans hx⟩
    · exact ⟨b', (update_of_ne he ..).trans hb'⟩

/-- What `b` comes to does not concern a stage it was not in, as far as the others go. -/
theorem mem_heads_ne (h : ∀ i, σ b ≠ some (i, st)) :
    (∃ b', b' ≠ b ∧ σ b' = some (j, st)) ↔ j ∈ heads σ st := by
  constructor
  · rintro ⟨b', -, hb'⟩
    exact ⟨b', hb'⟩
  · rintro ⟨b', hb'⟩
    exact ⟨b', fun he => h j (he ▸ hb'), hb'⟩

theorem heads_to (h : ∀ i, σ b ≠ some (i, st)) :
    heads (update σ b (some (i, st))) st = insert i (heads σ st) := by
  ext j
  rw [mem_heads_update, mem_heads_ne h, Set.mem_insert_iff, Option.some.injEq, Prod.mk.injEq,
    and_iff_left rfl, eq_comm]

/-- A change at `b` from a stage, or from nothing, to another does not concern a third one. -/
theorem heads_other (h : ∀ i, σ b ≠ some (i, st)) (hx : ∀ i, x ≠ some (i, st)) :
    heads (update σ b x) st = heads σ st := by
  ext j
  rw [mem_heads_update, mem_heads_ne h]
  exact or_iff_right (hx j)

theorem heads_from (hd : Distinct σ) (h : σ b = some (i, st))
    (hx : ∀ i, x ≠ some (i, st)) : heads (update σ b x) st = heads σ st \ {i} := by
  ext j
  rw [mem_heads_update, or_iff_right (hx j)]
  constructor
  · rintro ⟨b', he, hb'⟩
    refine ⟨⟨b', hb'⟩, ?_⟩
    rintro rfl
    exact he (hd b' b _ _ _ hb' h)
  · rintro ⟨⟨b', hb'⟩, hne⟩
    refine ⟨b', ?_, hb'⟩
    rintro rfl
    rw [h] at hb'
    exact hne (congrArg Prod.fst (Option.some.inj hb')).symm

/-- A head has one stage. -/
theorem Distinct.stage (hd : Distinct σ) (h : i ∈ heads σ st) (h' : i ∈ heads σ st') : st = st' := by
  obtain ⟨b, hb⟩ := h
  obtain ⟨b', hb'⟩ := h'
  obtain rfl := hd b b' _ _ _ hb hb'
  rw [hb] at hb'
  exact congrArg Prod.snd (Option.some.inj hb')

end Heads

end Requests

/-- The list `q` has every element of `B` once. -/
structure Listed (q : List Nat) (B : Set Nat) : Prop where
  nodup : q.Nodup
  mem : ∀ i, i ∈ q ↔ i ∈ B

namespace Listed

variable {q' : List Nat} {B : Set Nat}

theorem perm (h : Listed q B) (hp : q.Perm q') : Listed q' B :=
  ⟨hp.nodup_iff.mp h.nodup, fun i => hp.mem_iff.symm.trans (h.mem i)⟩

theorem cons (h : Listed q B) (hi : i ∉ B) : Listed (i :: q) (insert i B) := by
  constructor
  · exact nodup_cons.mpr ⟨fun hm => hi ((h.mem i).mp hm), h.nodup⟩
  · intro j
    rw [mem_cons, h.mem j]
    rfl

theorem append (h : Listed q B) (hi : i ∉ B) : Listed (q ++ [i]) (insert i B) :=
  (h.cons hi).perm (perm_append_singleton i q).symm

theorem tail (h : Listed (i :: q) B) : Listed q (B \ {i}) := by
  have hnd := nodup_cons.mp h.nodup
  refine ⟨hnd.2, fun j => ?_⟩
  rw [Set.mem_sdiff, ← h.mem j, mem_cons, Set.mem_singleton_iff]
  constructor
  · intro hj
    refine ⟨.inr hj, ?_⟩
    rintro rfl
    exact hnd.1 hj
  · rintro ⟨rfl | hj, hne⟩
    · exact absurd rfl hne
    · exact hj

end Listed

/-! ## The invariant -/

/-- The descriptors a call has. -/
def Pc.idx : Pc → Option Idx
  | .idle | .alloc _ _ => none
  | .format _ _ idx | .post idx | .bump idx | .wait idx => some idx

/-- The descriptors it has linked. -/
def Pc.linked : Pc → Option Idx
  | .idle | .alloc _ _ | .format _ _ _ => none
  | .post idx | .bump idx | .wait idx => some idx

/-- Between `alloc3_desc` and the first `sleep` on the buffer. -/
def Pc.critical : Pc → Bool
  | .idle | .alloc _ _ | .wait _ => false
  | .format _ _ _ | .post _ | .bump _ => true

theorem Pc.idx_of_linked {idx : Idx} (h : pc.linked = some idx) : pc.idx = some idx := by
  cases pc <;> first | exact h | cases h

/-- The descriptors that are not free are those of the calls, each of one call. -/
structure Owned (free : Nat → Bool) (call : Nat → Pc) : Prop where
  mine : ∀ b idx, (call b).idx = some idx → idx.toList.Nodup ∧ ∀ i ∈ idx.toList, i < NUM ∧ free i = false
  apart : ∀ b b' idx idx' i, (call b).idx = some idx → (call b').idx = some idx' →
    i ∈ idx.toList → i ∈ idx'.toList → b = b'
  owner : ∀ i, i < NUM → free i = false → ∃ b idx, (call b).idx = some idx ∧ i ∈ idx.toList

/-- What is known of the call on buffer `b`, at `pc`, and of its request `x`. -/
structure CallOk (d : Disk) (lock : Option Holder) (b : Nat) (pc : Pc) (x : Option (Nat × Stage)) :
    Prop where
  chain : ∀ idx, pc.linked = some idx → Chain d b idx
  waits : ∀ i st, x = some (i, st) → ∃ idx, pc = .wait idx ∧ idx.i0 = i
  seen : ∀ idx, pc = .wait idx → ∃ st, x = some (idx.i0, st)
  flag : ∀ i st, x = some (i, st) → (d.bdisk b = false ↔ st = .cleared)
  raised : pc.linked ≠ none → pc.critical = true → d.bdisk b = true
  entry : ∀ idx, pc = .bump idx → d.avail (d.availIdx % NUM) = idx.i0
  locked : pc.critical = true → lock = some (.rw b)

/-- The driver, the device and the abstract requests: `Q` is in the avail ring, `U` in the used ring,
    and `r` is the 16-bit counter that `used_idx` is a remainder of. -/
structure Inv (s : Sys) (σ : Requests) (Q U : List Nat) (r : Nat) : Prop where
  owned : Owned s.disk.free s.call
  calls : ∀ b, CallOk s.disk s.lock b (s.call b) (σ b)
  status : ∀ i, (s.disk.info i).status = 0
  avail : Queue NUM 65536 s.disk.avail s.dev.lastAvail s.disk.availIdx Q
  used : Queue NUM 65536 s.disk.elems r s.disk.usedId U
  usedIdx : s.disk.usedIdx = r % NUM
  inAvail : Listed Q (σ.heads .avail)
  inDevice : Listed (s.dev.posting.toList ++ s.dev.taken) (σ.heads .taken)
  inUsed : Listed U (σ.heads .used)
  elem : ∀ i, s.dev.posting = some i → s.disk.elems (s.disk.usedId % NUM) = i

theorem NUM_dvd : NUM ∣ 65536 := by decide

section Owned

variable {free free' : Nat → Bool} {call call' : Nat → Pc} {idx : Idx}

theorem Owned.congr (h : Owned free call) (hc : ∀ b, (call' b).idx = (call b).idx) : Owned free call' := by
  constructor
  · intro b idx hb
    rw [hc] at hb
    exact h.mine b idx hb
  · intro b b' idx idx' i hb hb'
    rw [hc] at hb hb'
    exact h.apart b b' idx idx' i hb hb'
  · grind [Owned]

theorem update_idx (hb : (call b).idx = pc.idx) (b' : Nat) : (update call b pc b').idx = (call b').idx := by
  by_cases he : b' = b
  · subst he
    rw [update_self, hb]
  · rw [update_of_ne he]

/-- A call gets descriptors that were free. -/
theorem Owned.grab (h : Owned free call) (hb : (call b).idx = none) (hpc : pc.idx = some idx)
    (hnd : idx.toList.Nodup) (hlt : ∀ i ∈ idx.toList, i < NUM) (hwas : ∀ i ∈ idx.toList, free i = true)
    (hnow : ∀ i ∈ idx.toList, free' i = false) (hother : ∀ i, i ∉ idx.toList → free' i = free i) :
    Owned free' (update call b pc) := by
  -- what another call has was not free, so it is not among the new ones
  have hold : ∀ b' idx' i, (call b').idx = some idx' → i ∈ idx'.toList → i ∉ idx.toList := by
    intro b' idx' i hb' hi hm
    have hf := ((h.mine b' idx' hb').2 i hi).2
    rw [hwas i hm] at hf
    cases hf
  have hcase : ∀ b' idx', (update call b pc b').idx = some idx' →
      (b' = b ∧ idx' = idx) ∨ (b' ≠ b ∧ (call b').idx = some idx') := by grind
  constructor
  · grind [Owned]
  · grind [Owned]
  · intro i hi hf
    by_cases hm : i ∈ idx.toList
    · exact ⟨b, idx, by rw [update_self]; exact hpc, hm⟩
    · grind [Owned]

/-- A call gives its descriptors back. -/
theorem Owned.release (h : Owned free call) (hb : (call b).idx = some idx) (hpc : pc.idx = none)
    (hfree : ∀ i, free' i = (free i || decide (i ∈ idx.toList))) :
    Owned free' (update call b pc) := by
  have hcase : ∀ b' idx', (update call b pc b').idx = some idx' →
      b' ≠ b ∧ (call b').idx = some idx' := by grind
  constructor
  · grind [Owned]
  · intro b1 b2 idx1 idx2 i h1 h2
    exact h.apart b1 b2 idx1 idx2 i (hcase b1 idx1 h1).2 (hcase b2 idx2 h2).2
  · grind [Owned]

/-- **The descriptors add up**: the free ones and three for each call that has some are all of them. -/
theorem Owned.count (h : Owned free call) :
    ((Finset.range NUM).filter fun i => free i = true).card + 3 * {b | (call b).idx.isSome}.ncard =
      NUM := by
  classical
  -- the calls with descriptors are finitely many, because their heads are different
  have hfin : {b | (call b).idx.isSome}.Finite := by
    refine Set.Finite.of_finite_image (f := fun b => (((call b).idx.map i0).getD 0)) ?_ ?_
    · refine (Finset.finite_toSet (Finset.range NUM)).subset ?_
      rintro i ⟨b, hb, rfl⟩
      obtain ⟨idx, hidx⟩ := Option.isSome_iff_exists.mp hb
      simp only [hidx, Option.map_some, Option.getD_some, Finset.coe_range, Set.mem_Iio]
      exact ((h.mine b idx hidx).2 _ (by simp [toList])).1
    · intro b hb b' hb' heq
      obtain ⟨idx, hidx⟩ := Option.isSome_iff_exists.mp hb
      obtain ⟨idx', hidx'⟩ := Option.isSome_iff_exists.mp hb'
      simp only [hidx, hidx', Option.map_some, Option.getD_some] at heq
      exact h.apart b b' idx idx' idx.i0 hidx hidx' (by simp [toList]) (by simp [toList, heq])
  have hunion : (Finset.range NUM).filter (fun i => ¬ free i = true) =
      hfin.toFinset.biUnion fun b => (((call b).idx.map toList).getD []).toFinset := by
    ext i
    simp only [Finset.mem_filter, Finset.mem_range, Bool.not_eq_true, Finset.mem_biUnion,
      Set.Finite.mem_toFinset, Set.mem_ofPred_eq, mem_toFinset]
    constructor
    · grind [Owned]
    · rintro ⟨b, hb, hm⟩
      obtain ⟨idx, hidx⟩ := Option.isSome_iff_exists.mp hb
      rw [hidx] at hm
      exact (h.mine b idx hidx).2 i hm
  have hcard : ((Finset.range NUM).filter fun i => ¬ free i = true).card =
      3 * {b | (call b).idx.isSome}.ncard := by
    rw [hunion, Finset.card_biUnion, Finset.sum_const_nat (m := 3), Nat.mul_comm,
      Set.ncard_eq_toFinset_card _ hfin]
    · intro b hb
      obtain ⟨idx, hidx⟩ := Option.isSome_iff_exists.mp ((Set.Finite.mem_toFinset hfin).mp hb)
      rw [hidx, Option.map_some, Option.getD_some, toFinset_card_of_nodup (h.mine b idx hidx).1]
      rfl
    · intro b hb b' hb' hne
      obtain ⟨idx, hidx⟩ := Option.isSome_iff_exists.mp ((Set.Finite.mem_toFinset hfin).mp hb)
      obtain ⟨idx', hidx'⟩ := Option.isSome_iff_exists.mp ((Set.Finite.mem_toFinset hfin).mp hb')
      rw [onFun, Finset.disjoint_left]
      intro i hi hi'
      rw [hidx, mem_toFinset] at hi
      rw [hidx', mem_toFinset] at hi'
      exact hne (h.apart b b' idx idx' i hidx hidx' hi hi')
  rw [← hcard, Finset.card_filter_add_card_filter_not, Finset.card_range]

end Owned

/-! ## Calls -/

section Calls

variable {d' : Disk} {lock lock' : Option Holder} {idx : Idx}

/-- A call before its descriptors are linked. -/
theorem CallOk.unlinked (hpc : pc.linked = none) (hc : pc.critical = true → lock = some (.rw b)) :
    CallOk d lock b pc none := by
  constructor
  · intro idx hl
    rw [hpc] at hl
    cases hl
  · intro i st hx
    cases hx
  · rintro idx rfl
    cases hpc
  · intro i st hx
    cases hx
  · intro hl
    exact absurd hpc hl
  · rintro idx rfl
    cases hpc
  · exact hc

theorem CallOk.wait (hchain : Chain d b idx) (hflag : d.bdisk b = false ↔ st = .cleared) :
    CallOk d lock b (.wait idx) (some (idx.i0, st)) := by
  constructor
  · intro idx' hl
    cases hl
    exact hchain
  · intro i st' hx
    cases hx
    exact ⟨idx, rfl, rfl⟩
  · intro idx' hw
    cases hw
    exact ⟨st, rfl⟩
  · intro i st' hx
    cases hx
    exact hflag
  · intro _ hc
    cases hc
  · intro idx' hw
    cases hw
  · intro hc
    cases hc

/-- A step of another party: the chain and the flag stay, and so does the rest of a critical part. -/
theorem CallOk.frame (h : CallOk d lock b pc x) (hchain : ∀ idx, pc.linked = some idx → Chain d' b idx)
    (hflag : d'.bdisk b = d.bdisk b)
    (hcrit : pc.critical = true →
      lock' = lock ∧ d'.avail (d'.availIdx % NUM) = d.avail (d.availIdx % NUM)) :
    CallOk d' lock' b pc x := by
  refine ⟨hchain, h.waits, h.seen, ?_, ?_, ?_, ?_⟩
  · rw [hflag]
    exact h.flag
  · rw [hflag]
    exact h.raised
  · rintro idx rfl
    rw [(hcrit rfl).2]
    exact h.entry idx rfl
  · intro hc
    rw [(hcrit hc).1]
    exact h.locked hc

/-- A step that touches neither the descriptors nor the buffers nor the avail ring nor the lock. -/
theorem CallOk.same (h : CallOk d lock b pc x) (hdesc : d'.desc = d.desc)
    (hinfo : ∀ i, (d'.info i).b = (d.info i).b) (hflag : d'.bdisk = d.bdisk)
    (havail : d'.avail = d.avail) (hidx : d'.availIdx = d.availIdx) : CallOk d' lock b pc x := by
  refine h.frame (fun idx hl => ?_) (by rw [hflag]) fun _ => ⟨rfl, by rw [havail, hidx]⟩
  exact (h.chain idx hl).congr (fun i _ => by rw [hdesc]) (hinfo _)

/-- Without a request there is no waiting call, and the other way round. -/
theorem CallOk.not_wait (h : CallOk d lock b pc x) (hpc : ∀ idx, pc ≠ .wait idx) : x = none := by
  cases hx : x with
  | none => rfl
  | some y =>
    obtain ⟨idx, hw, -⟩ := h.waits y.1 y.2 hx
    exact absurd hw (hpc idx)

end Calls

/-! ## One step -/

section Inv

variable {s' : Sys} {Q U : List Nat} {r : Nat} {idx : Idx} {e : Event}

section

variable (h : Inv s σ Q U r)
include h

theorem Inv.distinct : σ.Distinct := by
  intro b b' i st st' hb hb'
  obtain ⟨idx, hw, rfl⟩ := (h.calls b).waits i st hb
  obtain ⟨idx', hw', he⟩ := (h.calls b').waits _ st' hb'
  refine h.owned.apart b b' idx idx' idx.i0 (by rw [hw]; rfl) (by rw [hw']; rfl) ?_ ?_
  · simp [toList]
  · simp [toList, he]

/-- A ring of heads is never full: behind a head is a descriptor that is none. -/
theorem Inv.room (hq : Listed q (σ.heads st)) : q.length < NUM := by
  have hhead : ∀ i ∈ q, ∃ b idx, (s.call b).idx = some idx ∧ idx.i0 = i := by
    intro i hi
    obtain ⟨b, hb⟩ := (hq.mem i).mp hi
    obtain ⟨idx, hw, he⟩ := (h.calls b).waits i st hb
    exact ⟨b, idx, by rw [hw]; rfl, he⟩
  have hlt : ∀ i ∈ q, i < NUM := by
    intro i hi
    obtain ⟨b, idx, hb, rfl⟩ := hhead i hi
    exact ((h.owned.mine b idx hb).2 _ (by simp [toList])).1
  cases q with
  | nil => decide
  | cons i q =>
    obtain ⟨b, idx, hb, rfl⟩ := hhead i mem_cons_self
    have hmine := h.owned.mine b idx hb
    -- the second descriptor is of the same call, whose head is another one
    have hnot : idx.i1 ∉ idx.i0 :: q := by
      intro hm
      obtain ⟨b', idx', hb', he⟩ := hhead _ hm
      obtain rfl := h.owned.apart b b' idx idx' idx.i1 hb hb' (by simp [toList]) (by simp [toList, he])
      rw [hb] at hb'
      obtain rfl := Option.some.inj hb'
      have hnd := hmine.1
      simp [toList, he] at hnd
    have hsub : idx.i1 :: idx.i0 :: q ⊆ range NUM := by grind [toList]
    have hnd : (idx.i1 :: idx.i0 :: q).Nodup := nodup_cons.mpr ⟨hnot, hq.nodup⟩
    have hle := (hnd.subperm hsub).length_le
    rw [length_range] at hle
    exact hle

/-- Only one call is in the critical part. -/
theorem Inv.exclusive (hb : (s.call b).critical = true) (hb' : (s.call b').critical = true) : b' = b := by
  have hl := ((h.calls b').locked hb').symm.trans ((h.calls b).locked hb)
  injection hl with hl
  injection hl

/-- Nobody is in it while the lock is free, or with a call that sleeps. -/
theorem Inv.nobody (hl : s.lock = none ∨ s.lock = some (.rw b))
    (hb : (s.call b).critical = false) (b' : Nat) : (s.call b').critical ≠ true := by
  intro hc
  have hlock := (h.calls b').locked hc
  rcases hl with hl | hl
  · rw [hl] at hlock
    cases hlock
  · rw [hl] at hlock
    cases hlock
    rw [hb] at hc
    cases hc

/-- The descriptors of another call are other descriptors. -/
theorem Inv.apart {idx' : Idx} (hb : (s.call b).idx = some idx)
    (hb' : (s.call b').idx = some idx') (hne : b' ≠ b) : ∀ i ∈ idx'.toList, i ∉ idx.toList :=
  fun i hi hm => hne (h.owned.apart b' b idx' idx i hb' hb hi hm)

/-- The chain of another call is not touched by a change of one's own descriptors. -/
theorem Inv.chain_apart (hb : (s.call b).idx = some idx)
    (hne : b' ≠ b) (hdesc : ∀ i, i ∉ idx.toList → d.desc i = s.disk.desc i)
    (hinfo : ∀ i, i ≠ idx.i0 → d.info i = s.disk.info i) :
    ∀ idx', (s.call b').linked = some idx' → Chain d b' idx' := by
  intro idx' hl
  have hapart := h.apart hb (Pc.idx_of_linked hl) hne
  refine ((h.calls b').chain idx' hl).congr (fun i hi => hdesc i (hapart i hi)) ?_
  rw [hinfo]
  intro he
  exact hapart idx'.i0 (by simp [toList]) (by simp [toList, he])

/-- What a failed `alloc3_desc` has changed is in no use. -/
theorem Inv.chain_grabbed {grabbed : List Nat} (hg : Grabbed s.disk grabbed d) (b : Nat) :
    ∀ idx, (s.call b).linked = some idx → Chain d b idx := by
  intro idx hl
  have hmine := h.owned.mine b idx (Pc.idx_of_linked hl)
  exact ((h.calls b).chain idx hl).congr (fun i hi => hg.desc i (hmine.2 i hi).2) (by rw [hg.same.info])

/-- `alloc3_desc`: the rings and the buffers are the same. -/
theorem Inv.grabbed {grabbed : List Nat} {call : Nat → Pc}
    {lock : Option Holder} (hg : Grabbed s.disk grabbed d) (hown : Owned d.free call)
    (hcalls : ∀ b, CallOk d lock b (call b) (σ b)) :
    Inv { s with disk := d, call := call, lock := lock } σ Q U r := by
  refine ⟨hown, hcalls, ?_, ?_, ?_, ?_, h.inAvail, h.inDevice, h.inUsed, ?_⟩
  · rw [hg.same.info]
    exact h.status
  · rw [hg.same.avail, hg.same.availIdx]
    exact h.avail
  · rw [hg.same.elems, hg.same.usedId]
    exact h.used
  · rw [hg.same.usedIdx]
    exact h.usedIdx
  · rw [hg.same.elems, hg.same.usedId]
    exact h.elem

theorem Inv.alloc {i0 i1 i2 : Nat} {write : Bool}
    (hb : s.call b = .alloc blockno write) (hl : s.lock = none) (hg : Grabbed s.disk [i0, i1, i2] d) :
    Inv { s with
      disk := d, lock := some (.rw b)
      call := update s.call b (.format blockno write ⟨i0, i1, i2⟩) } σ Q U r := by
  have hnobody := h.nobody (b := b) (.inl hl) (by rw [hb]; rfl)
  have hσ : σ b = none := (h.calls b).not_wait (by simp [hb])
  refine h.grabbed hg ?_ fun b' => ?_
  · have hpc : (Pc.format blockno write ⟨i0, i1, i2⟩).idx = some ⟨i0, i1, i2⟩ := rfl
    exact h.owned.grab (by rw [hb]; rfl) hpc hg.nodup hg.lt hg.was hg.now hg.other
  · by_cases he : b' = b
    · subst he
      rw [update_self, hσ]
      exact .unlinked rfl fun _ => rfl
    · rw [update_of_ne he]
      exact (h.calls b').frame (h.chain_grabbed hg b') (by rw [hg.same.bdisk])
        fun hc => absurd hc (hnobody b')

/-- Not enough descriptors: those that were got are given back. -/
theorem Inv.allocSleeps (hg : Grabbed s.disk [] d) : Inv { s with disk := d } σ Q U r := by
  have hfree : d.free = s.disk.free := funext fun i => hg.other i not_mem_nil
  refine h.grabbed hg ?_ fun b => ?_
  · rw [hfree]
    exact h.owned
  · refine (h.calls b).frame (h.chain_grabbed hg b) (by rw [hg.same.bdisk]) fun _ => ⟨rfl, ?_⟩
    rw [hg.same.avail, hg.same.availIdx]

/-- The three descriptors are linked. -/
theorem Inv.format {write : Bool} (hb : s.call b = .format blockno write idx) : Inv { s with
      disk := s.disk.format b blockno write idx
      call := update s.call b (.post idx) } σ Q U r := by
  have hidx : (s.call b).idx = some idx := by rw [hb]; rfl
  have hcrit : (s.call b).critical = true := by rw [hb]; rfl
  have hσ : σ b = none := (h.calls b).not_wait (by simp [hb])
  have hdesc : ∀ i, i ∉ idx.toList → (s.disk.format b blockno write idx).desc i = s.disk.desc i := by
    intro i hi
    simp only [toList, mem_cons, not_mem_nil, or_false, not_or] at hi
    unfold Disk.format
    dsimp only
    rw [update_of_ne hi.2.2, update_of_ne hi.2.1, update_of_ne hi.1]
  refine { h with owned := h.owned.congr (update_idx hidx), calls := fun b' => ?_, status := fun i => ?_ }
  · dsimp only
    by_cases he : b' = b
    · subst he
      rw [update_self, hσ]
      constructor
      · intro idx' hl
        cases hl
        exact Chain.format s.disk b' blockno write (h.owned.mine b' idx hidx).1
      · intro i st hx
        cases hx
      · intro idx' hw
        cases hw
      · intro i st hx
        cases hx
      · intro _ _
        exact update_self ..
      · intro idx' hw
        cases hw
      · intro _
        exact (h.calls b').locked hcrit
    · rw [update_of_ne he]
      refine (h.calls b').frame (h.chain_apart hidx he hdesc fun i hi => update_of_ne hi ..) ?_ ?_
      · exact update_of_ne he ..
      · exact fun hc => absurd (h.exclusive hcrit hc) he
  · show (update s.disk.info idx.i0 ⟨some b, 0⟩ i).status = 0
    by_cases hi : i = idx.i0
    · rw [hi, update_self]
    · rw [update_of_ne hi]
      exact h.status i

/-- The entry of the avail ring is written, behind the last one. -/
theorem Inv.post (hb : s.call b = .post idx) :
    Inv { s with disk := s.disk.post idx, call := update s.call b (.bump idx) } σ Q U r := by
  have hidx : (s.call b).idx = some idx := by rw [hb]; rfl
  have hcrit : (s.call b).critical = true := by rw [hb]; rfl
  have hlink : (s.call b).linked = some idx := by rw [hb]; rfl
  have hσ : σ b = none := (h.calls b).not_wait (by simp [hb])
  have hchain : ∀ b' idx', (s.call b').linked = some idx' → Chain (s.disk.post idx) b' idx' :=
    fun b' idx' hl => ((h.calls b').chain idx' hl).congr (fun _ _ => rfl) rfl
  refine { h with
    owned := h.owned.congr (update_idx hidx), calls := fun b' => ?_
    avail := h.avail.store NUM_dvd (h.room h.inAvail) idx.i0 }
  dsimp only
  by_cases he : b' = b
  · subst he
    rw [update_self, hσ]
    constructor
    · intro idx' hl
      cases hl
      exact hchain b' idx hlink
    · intro i st hx
      cases hx
    · intro idx' hw
      cases hw
    · intro i st hx
      cases hx
    · intro _ _
      exact (h.calls b').raised (by rw [hlink]; exact fun hn => by cases hn) hcrit
    · intro idx' hw
      cases hw
      exact update_self ..
    · intro _
      exact (h.calls b').locked hcrit
  · rw [update_of_ne he]
    exact (h.calls b').frame (hchain b') rfl fun hc => absurd (h.exclusive hcrit hc) he

/-- `avail[1]` counts the new entry: the request is submitted. -/
theorem Inv.bump (hb : s.call b = .bump idx) :
    σ.Step (.submit b idx.i0) (update σ b (some (idx.i0, .avail))) ∧
    Inv { s with disk := s.disk.bump, call := update s.call b (.wait idx) }
      (update σ b (some (idx.i0, .avail))) (Q ++ [idx.i0]) U r := by
  have hidx : (s.call b).idx = some idx := by rw [hb]; rfl
  have hcrit : (s.call b).critical = true := by rw [hb]; rfl
  have hlink : (s.call b).linked = some idx := by rw [hb]; rfl
  have hσ : σ b = none := (h.calls b).not_wait (by simp [hb])
  have hchain : ∀ b' idx', (s.call b').linked = some idx' → Chain s.disk.bump b' idx' :=
    fun b' idx' hl => ((h.calls b').chain idx' hl).congr (fun _ _ => rfl) rfl
  -- the head of a chain that was not submitted is nobody's
  have hfresh : ∀ b' st, σ b' ≠ some (idx.i0, st) := by
    intro b' st hx
    obtain ⟨idx', hw, he⟩ := (h.calls b').waits _ st hx
    obtain rfl := h.owned.apart b' b idx' idx idx.i0 (by rw [hw]; rfl) hidx (by simp [toList, he])
      (by simp [toList])
    rw [hb] at hw
    cases hw
  have hnone : ∀ st i, σ b ≠ some (i, st) := fun st i he => by rw [hσ] at he; cases he
  refine ⟨.submit hσ hfresh, { h with
    owned := h.owned.congr (update_idx hidx), calls := fun b' => ?_
    avail := h.avail.advance NUM_dvd (h.room h.inAvail) ((h.calls b).entry idx hb)
    inAvail := ?_, inDevice := ?_, inUsed := ?_ }⟩
  · dsimp only
    by_cases he : b' = b
    · subst he
      rw [update_self, update_self]
      refine .wait (hchain b' idx hlink) (iff_of_false ?_ (by decide))
      rw [show s.disk.bump.bdisk b' = true from
        (h.calls b').raised (by rw [hlink]; exact fun hn => by cases hn) hcrit]
      decide
    · rw [update_of_ne he, update_of_ne he]
      exact (h.calls b').frame (hchain b') rfl fun hc => absurd (h.exclusive hcrit hc) he
  · rw [Requests.heads_to (hnone _)]
    exact h.inAvail.append fun hm => hm.elim fun b' hb' => hfresh b' _ hb'
  · rw [Requests.heads_other (hnone _) fun i he => by cases he]
    exact h.inDevice
  · rw [Requests.heads_other (hnone _) fun i he => by cases he]
    exact h.inUsed

end

theorem stage_ne (hx : x = some (i, st)) (hne : st ≠ st') (j : Nat) : x ≠ some (j, st') := by
  intro he
  rw [hx] at he
  exact hne (congrArg Prod.snd (Option.some.inj he))

section

variable (h : Inv s σ Q U r)
include h

/-- `b->disk` is 0: the call frees its chain and returns. -/
theorem Inv.finish (hb : s.call b = .wait idx)
    (hl : s.lock = none ∨ s.lock = some (.rw b)) (hf : s.disk.bdisk b = false) :
    ∃ d, s.disk.finish idx = .ok d ∧ σ.Step (.returned b) (update σ b none) ∧
      Inv { s with disk := d, lock := none, call := update s.call b .idle } (update σ b none) Q U r := by
  have hidx : (s.call b).idx = some idx := by rw [hb]; rfl
  obtain ⟨st, hσ⟩ := (h.calls b).seen idx hb
  obtain rfl := ((h.calls b).flag _ st hσ).mp hf
  obtain ⟨hnd, hmine⟩ := h.owned.mine b idx hidx
  obtain ⟨d, hok, hrel⟩ := finish_ok ((h.calls b).chain idx (by rw [hb]; rfl)) hnd
    (fun i hi => (hmine i hi).1) fun i hi => (hmine i hi).2
  have hnobody := h.nobody hl (by rw [hb]; rfl)
  have hnone : ∀ (st : Stage) (i : Nat), none ≠ some (i, st) := fun st i he => by cases he
  refine ⟨d, hok, .returned hσ, ⟨h.owned.release hidx rfl hrel.free, fun b' => ?_, fun i => ?_, ?_, ?_, ?_,
    ?_, ?_, ?_, ?_⟩⟩
  · dsimp only
    by_cases he : b' = b
    · subst he
      rw [update_self, update_self]
      exact .unlinked rfl fun hc => by cases hc
    · rw [update_of_ne he, update_of_ne he]
      exact (h.calls b').frame (h.chain_apart hidx he hrel.desc hrel.info) (by rw [hrel.bdisk])
        fun hc => absurd hc (hnobody b')
  · dsimp only
    rw [hrel.status]
    exact h.status i
  · dsimp only
    rw [hrel.avail, hrel.availIdx]
    exact h.avail
  · dsimp only
    rw [hrel.elems, hrel.usedId]
    exact h.used
  · dsimp only
    rw [hrel.usedIdx]
    exact h.usedIdx
  · rw [Requests.heads_other (stage_ne hσ (by decide)) (hnone _)]
    exact h.inAvail
  · rw [Requests.heads_other (stage_ne hσ (by decide)) (hnone _)]
    exact h.inDevice
  · rw [Requests.heads_other (stage_ne hσ (by decide)) (hnone _)]
    exact h.inUsed
  · dsimp only
    rw [hrel.elems, hrel.usedId]
    exact h.elem

/-- The request of `b` moves to another stage, and `b->disk` with it. -/
theorem Inv.restage (hσ : σ b = some (i, st))
    (hdesc : d.desc = s.disk.desc) (hinfo : ∀ i, (d.info i).b = (s.disk.info i).b)
    (havail : d.avail = s.disk.avail) (hidx : d.availIdx = s.disk.availIdx)
    (hflag : d.bdisk b = false ↔ st' = .cleared) (hothers : ∀ b', b' ≠ b → d.bdisk b' = s.disk.bdisk b')
    (b' : Nat) : CallOk d s.lock b' (s.call b') (update σ b (some (i, st')) b') := by
  have hchain : ∀ b' idx, (s.call b').linked = some idx → Chain d b' idx := fun b' idx hl =>
    ((h.calls b').chain idx hl).congr (fun i _ => by rw [hdesc]) (hinfo _)
  by_cases he : b' = b
  · subst he
    obtain ⟨idx, hw, rfl⟩ := (h.calls b').waits i st hσ
    rw [update_self, hw]
    exact .wait (hchain b' idx (by rw [hw]; rfl)) hflag
  · rw [update_of_ne he]
    exact (h.calls b').frame (hchain b') (hothers b' he) fun _ => ⟨rfl, by rw [havail, hidx]⟩

/-- The flag is up until the last stage. -/
theorem Inv.flag_up (hσ : σ b = some (i, st))
    (hst : st ≠ .cleared) (hst' : st' ≠ .cleared) : s.disk.bdisk b = false ↔ st' = .cleared :=
  ((h.calls b).flag i st hσ).trans (iff_of_false hst hst')

/-- The interrupt handler finds the buffer of the oldest used element. -/
theorem Inv.intr (hu : s.disk.usedIdx % NUM ≠ s.disk.usedId % NUM) :
    ∃ b i U' d, s.disk.intrStep = .ok (b, d) ∧ σ.Step (.clear b) (update σ b (some (i, .cleared))) ∧
      Inv { s with disk := d } (update σ b (some (i, .cleared))) Q U' ((r + 1) % 65536) := by
  have hne : U ≠ [] := by
    intro hnil
    rw [h.usedIdx, Nat.mod_mod] at hu
    exact hu ((h.used.mod_eq_iff NUM_dvd (h.room h.inUsed)).mpr hnil)
  obtain ⟨i, U', rfl⟩ := exists_cons_of_ne_nil hne
  obtain ⟨b, hσ⟩ := (h.inUsed.mem i).mp mem_cons_self
  obtain ⟨idx, hw, rfl⟩ := (h.calls b).waits i _ hσ
  have helem : s.disk.elems s.disk.usedIdx = idx.i0 := by
    rw [h.usedIdx]
    exact h.used.front
  have hchain := (h.calls b).chain idx (by rw [hw]; rfl)
  have hstep : s.disk.intrStep = .ok (b, { s.disk with
      bdisk := update s.disk.bdisk b false, usedIdx := (s.disk.usedIdx + 1) % NUM }) := by
    unfold Disk.intrStep
    rw [helem, if_neg (not_not_intro (h.status _)), hchain.info]
  refine ⟨b, idx.i0, U', _, hstep, .clear hσ, { h with
    calls := ?_, used := h.used.pop NUM_dvd, usedIdx := ?_, inAvail := ?_, inDevice := ?_, inUsed := ?_ }⟩
  · exact h.restage hσ rfl (fun _ => rfl) rfl rfl (iff_of_true (update_self ..) rfl)
      fun b' he => update_of_ne he ..
  · dsimp only
    rw [h.usedIdx, Nat.mod_mod_of_dvd _ NUM_dvd, Nat.mod_add_mod]
  · rw [Requests.heads_other (stage_ne hσ (by decide)) (stage_ne rfl (by decide))]
    exact h.inAvail
  · rw [Requests.heads_other (stage_ne hσ (by decide)) (stage_ne rfl (by decide))]
    exact h.inDevice
  · rw [Requests.heads_from h.distinct hσ (stage_ne rfl (by decide))]
    exact h.inUsed.tail

/-- The device takes the oldest avail entry. -/
theorem Inv.take (hne : s.dev.lastAvail ≠ s.disk.availIdx) :
    ∃ σ' Q', σ.Step (.take (s.disk.avail (s.dev.lastAvail % NUM))) σ' ∧ Inv { s with
        dev := { s.dev with
          lastAvail := inc16 s.dev.lastAvail
          taken := s.disk.avail (s.dev.lastAvail % NUM) :: s.dev.taken } } σ' Q' U r := by
  have hQ : Q ≠ [] := fun hnil => hne ((h.avail.empty_iff (by decide)).mpr hnil)
  obtain ⟨i, Q', rfl⟩ := exists_cons_of_ne_nil hQ
  obtain ⟨b, hσ⟩ := (h.inAvail.mem i).mp mem_cons_self
  rw [h.avail.front]
  refine ⟨_, Q', .take hσ, { h with
    calls := ?_, avail := h.avail.pop NUM_dvd, inAvail := ?_, inDevice := ?_, inUsed := ?_ }⟩
  · exact h.restage hσ rfl (fun _ => rfl) rfl rfl (h.flag_up hσ (by decide) (by decide)) fun _ _ => rfl
  · rw [Requests.heads_from h.distinct hσ (stage_ne rfl (by decide))]
    exact h.inAvail.tail
  · rw [Requests.heads_to (stage_ne hσ (by decide))]
    have hnot : i ∉ σ.heads .taken := fun hm => by
      have := h.distinct.stage ⟨b, hσ⟩ hm
      cases this
    exact (h.inDevice.cons hnot).perm perm_middle.symm
  · rw [Requests.heads_other (stage_ne hσ (by decide)) (stage_ne rfl (by decide))]
    exact h.inUsed

/-- The device writes a used element behind the last one, and the status of the chain. -/
theorem Inv.devPost (hi : i ∈ s.dev.taken) (hp : s.dev.posting = none) : Inv { s with
      disk := { s.disk.writeStatus i with
        elems := update s.disk.elems (s.disk.usedId % NUM) i }
      dev := { s.dev with taken := s.dev.taken.erase i, posting := some i } } σ Q U r := by
  obtain ⟨b, hσ⟩ := (h.inDevice.mem i).mp (mem_append_right _ hi)
  obtain ⟨idx, hw, rfl⟩ := (h.calls b).waits i _ hσ
  have hchain := (h.calls b).chain idx (by rw [hw]; rfl)
  have hwrite : s.disk.writeStatus idx.i0 = { s.disk with
      info := update s.disk.info idx.i0 { s.disk.info idx.i0 with status := 0 } } := by
    unfold Disk.writeStatus
    rw [hchain.first.2, hchain.second.2, hchain.status]
  rw [hwrite]
  refine { h with
    calls := fun b' => (h.calls b').same rfl (fun j => ?_) rfl rfl rfl, status := fun j => ?_
    used := h.used.store NUM_dvd (h.room h.inUsed) idx.i0, inDevice := ?_, elem := ?_ }
  · dsimp only
    by_cases he : j = idx.i0
    · rw [he, update_self]
    · rw [update_of_ne he]
  · grind [Inv]
  · have hdev := h.inDevice
    rw [hp, Option.toList_none, nil_append] at hdev
    exact hdev.perm (perm_cons_erase hi)
  · intro j hj
    cases hj
    exact update_self ..

/-- `used->id` counts it: the request is completed. -/
theorem Inv.publish (hp : s.dev.posting = some i) : ∃ σ', σ.Step (.complete i) σ' ∧ Inv { s with
        disk := { s.disk with usedId := inc16 s.disk.usedId }
        dev := { s.dev with posting := none } } σ' Q (U ++ [i]) r := by
  have hdev := h.inDevice
  rw [hp, Option.toList_some, singleton_append] at hdev
  obtain ⟨b, hσ⟩ := (hdev.mem i).mp mem_cons_self
  refine ⟨_, .complete hσ, { h with
    calls := ?_, used := h.used.advance NUM_dvd (h.room h.inUsed) (h.elem i hp), inAvail := ?_
    inDevice := ?_, inUsed := ?_, elem := ?_ }⟩
  · exact h.restage hσ rfl (fun _ => rfl) rfl rfl (h.flag_up hσ (by decide) (by decide)) fun _ _ => rfl
  · rw [Requests.heads_other (stage_ne hσ (by decide)) (stage_ne rfl (by decide))]
    exact h.inAvail
  · rw [Requests.heads_from h.distinct hσ (stage_ne rfl (by decide))]
    exact hdev.tail
  · rw [Requests.heads_to (stage_ne hσ (by decide))]
    refine h.inUsed.append fun hm => ?_
    have := h.distinct.stage ⟨b, hσ⟩ hm
    cases this
  · intro j hj
    cases hj

/-- The lock changes hands while nobody is in the critical part. -/
theorem Inv.relock {lock : Option Holder}
    (hn : ∀ b, (s.call b).critical ≠ true) : Inv { s with lock := lock } σ Q U r := by
  refine { h with calls := fun b => ?_ }
  exact (h.calls b).frame (h.calls b).chain rfl fun hc => absurd hc (hn b)

theorem Inv.call (blockno : Nat) (write : Bool) (hb : s.call b = .idle) :
    Inv { s with call := update s.call b (.alloc blockno write) } σ Q U r := by
  have hσ : σ b = none := (h.calls b).not_wait (by simp [hb])
  refine { h with owned := h.owned.congr (update_idx (by rw [hb]; rfl)), calls := fun b' => ?_ }
  dsimp only
  by_cases he : b' = b
  · subst he
    rw [update_self, hσ]
    exact .unlinked rfl fun hc => by cases hc
  · rw [update_of_ne he]
    exact h.calls b'

/-- **One step** of any party: it does not panic, and the abstract requests can follow it. -/
theorem Inv.step {x : Except Panic Sys} (hs : Step s e x) :
    ∃ s' σ' Q' U' r', x = .ok s' ∧ σ.Step e σ' ∧ Inv s' σ' Q' U' r' := by
  cases hs with
  | call blockno write hb => exact ⟨_, σ, Q, U, r, rfl, .internal, h.call blockno write hb⟩
  | @alloc b blockno write i0 i1 i2 d hb hl ha =>
    rcases alloc3Desc_ok s.disk with ⟨j0, j1, j2, d', hok, hg⟩ | ⟨d', hok, hg⟩
    · rw [ha] at hok
      cases hok
      exact ⟨_, σ, Q, U, r, rfl, .internal, h.alloc hb hl hg⟩
    · rw [ha] at hok
      cases hok
  | allocSleeps hb hl ha =>
    rcases alloc3Desc_ok s.disk with ⟨j0, j1, j2, d', hok, hg⟩ | ⟨d', hok, hg⟩
    · rw [ha] at hok
      cases hok
    · rw [ha] at hok
      cases hok
      exact ⟨_, σ, Q, U, r, rfl, .internal, h.allocSleeps hg⟩
  | allocPanics hb hl ha =>
    rcases alloc3Desc_ok s.disk with ⟨j0, j1, j2, d', hok, hg⟩ | ⟨d', hok, hg⟩
    · rw [ha] at hok
      cases hok
    · rw [ha] at hok
      cases hok
  | format hb => exact ⟨_, σ, Q, U, r, rfl, .internal, h.format hb⟩
  | post hb => exact ⟨_, σ, Q, U, r, rfl, .internal, h.post hb⟩
  | bump hb => exact ⟨_, _, _, U, r, rfl, (h.bump hb).1, (h.bump hb).2⟩
  | sleeps hb hl hf =>
    exact ⟨_, σ, Q, U, r, rfl, .internal, h.relock (h.nobody hl (by rw [hb]; rfl))⟩
  | finish hb hl hf hok =>
    obtain ⟨d, hok', hstep, hI⟩ := h.finish hb hl hf
    rw [hok] at hok'
    cases hok'
    exact ⟨_, _, Q, U, r, rfl, hstep, hI⟩
  | finishPanics hb hl hf hpanic =>
    obtain ⟨d, hok', -, -⟩ := h.finish hb hl hf
    rw [hpanic] at hok'
    cases hok'
  | intrEnter hl =>
    refine ⟨_, σ, Q, U, r, rfl, .internal, h.relock fun b hc => ?_⟩
    rw [(h.calls b).locked hc] at hl
    cases hl
  | intrStep hl hu hi =>
    obtain ⟨b', i, U', d', hok, hstep, hI⟩ := h.intr hu
    rw [hi] at hok
    cases hok
    exact ⟨_, _, Q, U', _, rfl, hstep, hI⟩
  | intrPanics hl hu hi =>
    obtain ⟨b', i, U', d', hok, -, -⟩ := h.intr hu
    rw [hi] at hok
    cases hok
  | intrLeave hl hu =>
    refine ⟨_, σ, Q, U, r, rfl, .internal, h.relock fun b hc => ?_⟩
    rw [(h.calls b).locked hc] at hl
    cases hl
  | devTake hne =>
    obtain ⟨σ', Q', hstep, hI⟩ := h.take hne
    exact ⟨_, σ', Q', U, r, rfl, hstep, hI⟩
  | devPost hi hp => exact ⟨_, σ, Q, U, r, rfl, .internal, h.devPost hi hp⟩
  | devPublish hp =>
    obtain ⟨σ', hstep, hI⟩ := h.publish hp
    exact ⟨_, σ', Q, _, r, rfl, hstep, hI⟩

end

end Inv

/-! ## Every run -/

theorem init_inv : Inv Sys.init (fun _ => none) [] [] 0 := by
  have hempty : ∀ st, Listed [] (Requests.heads (fun _ => none) st) := by
    intro st
    refine ⟨nodup_nil, fun i => iff_of_false not_mem_nil ?_⟩
    rintro ⟨b, hb⟩
    cases hb
  refine ⟨⟨?_, ?_, ?_⟩, fun b => ?_, fun _ => rfl, .nil _ (by decide), .nil _ (by decide), rfl, hempty _,
    hempty _, hempty _, fun i hi => ?_⟩
  · intro b idx hb
    cases hb
  · intro b b' idx idx' i hb
    cases hb
  · intro i _ hf
    cases hf
  · exact .unlinked rfl fun hc => by cases hc
  · cases hi

theorem Run.inv (hr : Run es s) : ∃ σ Q U r, Requests.Run es σ ∧ Inv s σ Q U r := by
  induction hr with
  | init => exact ⟨_, [], [], 0, .init, init_inv⟩
  | step _ hs ih =>
    obtain ⟨σ, Q, U, r, hacc, hI⟩ := ih
    obtain ⟨s', σ', Q', U', r', hok, hstep, hI'⟩ := hI.step hs
    cases hok
    exact ⟨σ', Q', U', r', .step hacc hstep, hI'⟩

/-- **The virtio queue protocol.**  After every run, whatever the interleaving and however often the
    indices have wrapped:
    the calls that have descriptors have three each, all different and not free, and once linked they
    are a chain of that call's buffer; with the free ones they are NUM;
    the history is one of the abstract protocol, in which a request is cleared only after the device
    has taken and completed it, and which a call leaves only cleared; so the clearings of a buffer are
    its requests, less the one that is pending;
    and no next step of anybody panics. -/
theorem virtio_queue_protocol {h : List Event} {s : Sys} (hr : Run h s) :
    (∀ b idx, (s.call b).idx = some idx →
      idx.toList.Nodup ∧ ∀ i ∈ idx.toList, i < NUM ∧ s.disk.free i = false) ∧
    (∀ b b' idx idx', b ≠ b' → (s.call b).idx = some idx → (s.call b').idx = some idx' →
      idx.toList.Disjoint idx'.toList) ∧
    (∀ b idx, (s.call b).linked = some idx → Chain s.disk b idx) ∧
    ((Finset.range NUM).filter fun i => s.disk.free i = true).card +
      3 * {b | (s.call b).idx.isSome}.ncard = NUM ∧
    (∃ σ, Requests.Run h σ ∧ (∀ b idx, s.call b = .wait idx → ∃ st, σ b = some (idx.i0, st) ∧
        (s.disk.bdisk b = false ↔ st = .cleared)) ∧
      ∀ b, Requests.submits b h = h.count (.clear b) + σ.pending b) ∧
    ∀ e m, ¬ Step s e (.error m) := by
  obtain ⟨σ, Q, U, r, hacc, hI⟩ := hr.inv
  refine ⟨hI.owned.mine, ?_, fun b => (hI.calls b).chain, hI.owned.count,
    ⟨σ, hacc, fun b idx hw => ?_, hacc.clears⟩, ?_⟩
  · intro b b' idx idx' hne hb hb' i hi hi'
    exact hne (hI.owned.apart b b' idx idx' i hb hb' hi hi')
  · obtain ⟨st, hσ⟩ := (hI.calls b).seen idx hw
    exact ⟨st, hσ, (hI.calls b).flag _ st hσ⟩
  · intro e m hs
    obtain ⟨s', -, -, -, -, hok, -⟩ := hI.step hs
    cases hok

/-- A read of block 5 into buffer 3, from the call to the interrupt. -/
theorem virtio_queue_protocol_read : ∃ h s, Run h s ∧ h.count (.clear 3) = 1 ∧
    Requests.submits 3 h = 1 ∧ s.disk.bdisk 3 = false ∧ Chain s.disk 3 ⟨0, 1, 2⟩ := by
  have h1 := Run.init.step (call (b := 3) 5 false rfl)
  have h2 := h1.step (alloc (b := 3) rfl rfl rfl)
  have h3 := h2.step (format (b := 3) rfl)
  have h4 := h3.step (post (b := 3) rfl)
  have h5 := h4.step (bump (b := 3) rfl)
  have h6 := h5.step (sleeps (b := 3) rfl (.inr rfl) rfl)
  have h7 := h6.step (devTake (by decide))
  have h8 := h7.step (devPost (i := 0) (by decide) rfl)
  have h9 := h8.step (devPublish rfl)
  have h10 := h9.step (intrEnter rfl)
  have h11 := h10.step (intrStep rfl (by decide) rfl)
  obtain ⟨-, -, hchain, -⟩ := virtio_queue_protocol h11
  exact ⟨_, _, h11, by decide, by decide, rfl, hchain 3 ⟨0, 1, 2⟩ rfl⟩

end Xv6.Virtio
