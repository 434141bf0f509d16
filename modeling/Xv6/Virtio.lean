/-
  THE VIRTIO DISK DRIVER (`kernel/virtio_disk.c`): three parties around two rings.

  `virtio_disk_rw` takes three descriptors, links them, puts the first one into the avail ring and waits;
  the DEVICE takes entries from the avail ring, works on them in any order and puts them into the used
  ring; `virtio_disk_intr` walks the used ring and clears `b->disk`.  The rings have NUM = 8 cells.
  `avail[1]` and `used->id` are 16-bit counters, `used_idx` is kept below NUM.

  A caller of `virtio_disk_rw` holds the sleep-lock of its buffer, so a call is NAMED by its buffer.  The
  driver's code runs under `vdisk_lock` from one `sleep` to the next; the device does not know that lock,
  so the driver's writes that it can see are steps of their own.  A process asleep may look again at any
  time, which covers every `wakeup`.

  An address is what it points to: `buf0` with its contents, `b->data`, or the status byte of `info[i]`.
-/
import Xv6.Params
import Mathlib.Data.List.Nodup
import Mathlib.Logic.Function.Basic

namespace Xv6.Virtio

open Function List

/-- This many virtio descriptors. -/
def NUM : Nat := 8

/-- Chained with another descriptor. -/
def VRING_DESC_F_NEXT : Nat := 1
/-- The device writes (vs reads). -/
def VRING_DESC_F_WRITE : Nat := 2

def VIRTIO_BLK_T_IN : Nat := 0
def VIRTIO_BLK_T_OUT : Nat := 1

/-- `x + 1` on a `uint16`. -/
def inc16 (x : Nat) : Nat := (x + 1) % 65536

inductive Addr
  | null
  | outhdr (type sector : Nat)
  | data (b : Nat)
  | status (i : Nat)
deriving DecidableEq

/-- `struct VRingDesc`. -/
structure Desc where
  addr : Addr
  len : Nat
  flags : Nat
  next : Nat

/-- `disk.info[i]`. -/
structure Info where
  b : Option Nat
  status : Nat

/-- `struct disk` and the `disk` fields of the buffers.  `avail` is the ring, `availIdx` is `avail[1]`;
    `elems` has the ids of `used->elems`. -/
structure Disk where
  desc : Nat → Desc
  avail : Nat → Nat
  availIdx : Nat
  elems : Nat → Nat
  usedId : Nat
  free : Nat → Bool
  usedIdx : Nat
  info : Nat → Info
  bdisk : Nat → Bool

/-- The panics; `null` is a null pointer that is followed, `loops` a chain without an end. -/
inductive Panic
  | intr1
  | intr2
  | intrStatus
  | null
  | loops
deriving DecidableEq

/-- The three descriptors of a request. -/
structure Idx where
  i0 : Nat
  i1 : Nat
  i2 : Nat
deriving DecidableEq

namespace Disk

/-- `alloc_desc`. -/
def allocDesc (d : Disk) : Option Nat × Disk :=
  match (List.range NUM).find? fun i => d.free i with
  | some i => (some i, { d with free := update d.free i false })
  | none => (none, d)

/-- `free_desc`. -/
def freeDesc (i : Nat) (d : Disk) : Except Panic Disk :=
  if NUM ≤ i then .error .intr1
  else if d.free i then .error .intr2
  else .ok { d with
    desc := update d.desc i { d.desc i with addr := .null }
    free := update d.free i true }

/-- `free_chain`: the first number is how many descriptors there can be. -/
def freeChain : Nat → Nat → Disk → Except Panic Disk
  | 0, _, _ => .error .loops
  | fuel + 1, i, d =>
    match d.freeDesc i with
    | .error m => .error m
    | .ok d =>
      if (d.desc i).flags &&& VRING_DESC_F_NEXT ≠ 0 then d.freeChain fuel (d.desc i).next else .ok d

/-- `free_desc` of what a failed `alloc3_desc` has got so far. -/
def giveBack : List Nat → Disk → Except Panic Disk
  | [], d => .ok d
  | i :: idx, d =>
    match d.freeDesc i with
    | .error m => .error m
    | .ok d => d.giveBack idx

/-- The loop of `alloc3_desc`, with `idx[0..3-n)` allocated. -/
def allocFrom : Nat → List Nat → Disk → Except Panic (Option (List Nat) × Disk)
  | 0, idx, d => .ok (some idx, d)
  | n + 1, idx, d =>
    match d.allocDesc with
    | (some i, d) => d.allocFrom n (idx ++ [i])
    | (none, d) =>
      match d.giveBack idx with
      | .error m => .error m
      | .ok d => .ok (none, d)

/-- `alloc3_desc`. -/
def alloc3Desc (d : Disk) : Except Panic (Option (List Nat) × Disk) := d.allocFrom 3 []

/-- `virtio_disk_rw` formats the three descriptors and records the buffer. -/
def format (b blockno : Nat) (write : Bool) (idx : Idx) (d : Disk) : Disk :=
  let type := if write then VIRTIO_BLK_T_OUT else VIRTIO_BLK_T_IN
  let flags := (if write then 0 else VRING_DESC_F_WRITE) ||| VRING_DESC_F_NEXT
  -- the product is an `unsigned int`, though `sector` is a `uint64`
  let sector := blockno * (BSIZE / 512) % 2 ^ 32
  let desc := update d.desc idx.i0 ⟨.outhdr type sector, 16, VRING_DESC_F_NEXT, idx.i1⟩
  let desc := update desc idx.i1 ⟨.data b, BSIZE, flags, idx.i2⟩
  let desc := update desc idx.i2 ⟨.status idx.i0, 1, VRING_DESC_F_WRITE, 0⟩
  { d with
    desc := desc
    info := update d.info idx.i0 ⟨some b, 0⟩
    bdisk := update d.bdisk b true }

/-- `disk.avail[2 + (disk.avail[1] % NUM)] = idx[0]`. -/
def post (idx : Idx) (d : Disk) : Disk :=
  { d with avail := update d.avail (d.availIdx % NUM) idx.i0 }

/-- `disk.avail[1] = disk.avail[1] + 1`. -/
def bump (d : Disk) : Disk := { d with availIdx := inc16 d.availIdx }

/-- `virtio_disk_rw` after its request has finished. -/
def finish (idx : Idx) (d : Disk) : Except Panic Disk :=
  freeChain (NUM + 1) idx.i0 { d with info := update d.info idx.i0 { d.info idx.i0 with b := none } }

/-- One iteration of `virtio_disk_intr`, and the buffer it is about. -/
def intrStep (d : Disk) : Except Panic (Nat × Disk) :=
  let id := d.elems d.usedIdx
  if (d.info id).status ≠ 0 then .error .intrStatus
  else
    match (d.info id).b with
    | none => .error .null
    | some b =>
      .ok (b, { d with bdisk := update d.bdisk b false, usedIdx := (d.usedIdx + 1) % NUM })

end Disk

/-! ## Runs -/

/-- Where a call of `virtio_disk_rw` is. -/
inductive Pc
  | idle
  | alloc (blockno : Nat) (write : Bool)
  | format (blockno : Nat) (write : Bool) (idx : Idx)
  | post (idx : Idx)
  | bump (idx : Idx)
  | wait (idx : Idx)

/-- Who holds `vdisk_lock`. -/
inductive Holder
  | rw (b : Nat)
  | intr
deriving DecidableEq

/-- The device: how far it has come in the avail ring, what it works on, and the used element that it
    has written but not yet counted in `used->id`. -/
structure Device where
  lastAvail : Nat
  taken : List Nat
  posting : Option Nat

/-- The driver, the device, and the calls of `virtio_disk_rw` by buffer. -/
structure Sys where
  disk : Disk
  dev : Device
  call : Nat → Pc
  lock : Option Holder

/-- Nothing is in flight, and every descriptor is free. -/
def Sys.init : Sys where
  disk :=
    { desc := fun _ => ⟨.null, 0, 0, 0⟩, avail := fun _ => 0, availIdx := 0, elems := fun _ => 0,
      usedId := 0, free := fun _ => true, usedIdx := 0, info := fun _ => ⟨none, 0⟩,
      bdisk := fun _ => false }
  dev := ⟨0, [], none⟩
  call := fun _ => .idle
  lock := none

/-- What driver and device do to a request. -/
inductive Event
  /-- the request of buffer `b`, with head `i`, is visible to the device -/
  | submit (b i : Nat)
  /-- the device takes the avail entry with head `i` -/
  | take (i : Nat)
  /-- the device has posted the used element with head `i` -/
  | complete (i : Nat)
  /-- `virtio_disk_intr` does `b->disk = 0` -/
  | clear (b : Nat)
  /-- `virtio_disk_rw` of `b` returns -/
  | returned (b : Nat)
  | internal
deriving DecidableEq

/-- The device's view of a chain: the status byte is where the third descriptor says. -/
def Disk.writeStatus (i : Nat) (d : Disk) : Disk :=
  match (d.desc (d.desc (d.desc i).next).next).addr with
  | .status j => { d with info := update d.info j { d.info j with status := 0 } }
  | _ => d

/-- One step of one party, and what it leads to: a state or a panic. -/
inductive Step (s : Sys) : Event → Except Panic Sys → Prop
  | call {b : Nat} (blockno : Nat) (write : Bool) (h : s.call b = .idle) :
      Step s .internal (.ok { s with call := update s.call b (.alloc blockno write) })
  | alloc {b blockno : Nat} {write : Bool} {i0 i1 i2 : Nat} {d : Disk}
      (h : s.call b = .alloc blockno write) (hl : s.lock = none)
      (ha : s.disk.alloc3Desc = .ok (some [i0, i1, i2], d)) :
      Step s .internal (.ok { s with
        disk := d, lock := some (.rw b)
        call := update s.call b (.format blockno write ⟨i0, i1, i2⟩) })
  | allocSleeps {b blockno : Nat} {write : Bool} {d : Disk} (h : s.call b = .alloc blockno write)
      (hl : s.lock = none) (ha : s.disk.alloc3Desc = .ok (none, d)) :
      Step s .internal (.ok { s with disk := d })
  | allocPanics {b blockno : Nat} {write : Bool} {m : Panic} (h : s.call b = .alloc blockno write)
      (hl : s.lock = none) (ha : s.disk.alloc3Desc = .error m) : Step s .internal (.error m)
  | format {b blockno : Nat} {write : Bool} {idx : Idx} (h : s.call b = .format blockno write idx) :
      Step s .internal (.ok { s with
        disk := s.disk.format b blockno write idx, call := update s.call b (.post idx) })
  | post {b : Nat} {idx : Idx} (h : s.call b = .post idx) :
      Step s .internal (.ok { s with
        disk := s.disk.post idx, call := update s.call b (.bump idx) })
  | bump {b : Nat} {idx : Idx} (h : s.call b = .bump idx) :
      Step s (.submit b idx.i0) (.ok { s with
        disk := s.disk.bump, call := update s.call b (.wait idx) })
  | sleeps {b : Nat} {idx : Idx} (h : s.call b = .wait idx)
      (hl : s.lock = none ∨ s.lock = some (.rw b)) (hb : s.disk.bdisk b = true) :
      Step s .internal (.ok { s with lock := none })
  | finish {b : Nat} {idx : Idx} {d : Disk} (h : s.call b = .wait idx)
      (hl : s.lock = none ∨ s.lock = some (.rw b)) (hb : s.disk.bdisk b = false)
      (hf : s.disk.finish idx = .ok d) :
      Step s (.returned b) (.ok { s with
        disk := d, lock := none, call := update s.call b .idle })
  | finishPanics {b : Nat} {idx : Idx} {m : Panic} (h : s.call b = .wait idx)
      (hl : s.lock = none ∨ s.lock = some (.rw b)) (hb : s.disk.bdisk b = false)
      (hf : s.disk.finish idx = .error m) : Step s .internal (.error m)
  | intrEnter (hl : s.lock = none) : Step s .internal (.ok { s with lock := some .intr })
  | intrStep {b : Nat} {d : Disk} (hl : s.lock = some .intr)
      (hu : s.disk.usedIdx % NUM ≠ s.disk.usedId % NUM) (hi : s.disk.intrStep = .ok (b, d)) :
      Step s (.clear b) (.ok { s with disk := d })
  | intrPanics {m : Panic} (hl : s.lock = some .intr)
      (hu : s.disk.usedIdx % NUM ≠ s.disk.usedId % NUM) (hi : s.disk.intrStep = .error m) :
      Step s .internal (.error m)
  | intrLeave (hl : s.lock = some .intr) (hu : s.disk.usedIdx % NUM = s.disk.usedId % NUM) :
      Step s .internal (.ok { s with lock := none })
  | devTake (h : s.dev.lastAvail ≠ s.disk.availIdx) :
      Step s (.take (s.disk.avail (s.dev.lastAvail % NUM))) (.ok { s with
        dev := { s.dev with
          lastAvail := inc16 s.dev.lastAvail
          taken := s.disk.avail (s.dev.lastAvail % NUM) :: s.dev.taken } })
  | devPost {i : Nat} (h : i ∈ s.dev.taken) (hp : s.dev.posting = none) :
      Step s .internal (.ok { s with
        disk := { s.disk.writeStatus i with
          elems := update s.disk.elems (s.disk.usedId % NUM) i }
        dev := { s.dev with taken := s.dev.taken.erase i, posting := some i } })
  | devPublish {i : Nat} (hp : s.dev.posting = some i) :
      Step s (.complete i) (.ok { s with
        disk := { s.disk with usedId := inc16 s.disk.usedId }, dev := { s.dev with posting := none } })

/-- A run from the start, and its history. -/
inductive Run : List Event → Sys → Prop
  | init : Run [] Sys.init
  | step {h : List Event} {e : Event} {s s' : Sys} (hr : Run h s) (hs : Step s e (.ok s')) :
      Run (h ++ [e]) s'

/-! ## Descriptors -/

section Descriptors

variable {d d' : Disk} {i : Nat} {idx : List Nat}

theorem allocDesc_some (h : d.allocDesc = (some i, d')) :
    i < NUM ∧ d.free i = true ∧ d' = { d with free := update d.free i false } := by
  unfold Disk.allocDesc at h
  split at h
  · grind
  · cases h

theorem allocDesc_none (h : d.allocDesc = (none, d')) : d' = d := by
  unfold Disk.allocDesc at h
  split at h
  · cases h
  · exact (Prod.mk.inj h).2.symm

/-- Two disks that differ in the descriptors only. -/
structure SameRings (d d' : Disk) : Prop where
  avail : d'.avail = d.avail
  availIdx : d'.availIdx = d.availIdx
  elems : d'.elems = d.elems
  usedId : d'.usedId = d.usedId
  usedIdx : d'.usedIdx = d.usedIdx
  info : d'.info = d.info
  bdisk : d'.bdisk = d.bdisk

theorem SameRings.refl (d : Disk) : SameRings d d := ⟨rfl, rfl, rfl, rfl, rfl, rfl, rfl⟩

theorem SameRings.trans {d1 d2 d3 : Disk} (h : SameRings d1 d2) (h' : SameRings d2 d3) : SameRings d1 d3 :=
  ⟨h'.avail.trans h.avail, h'.availIdx.trans h.availIdx, h'.elems.trans h.elems,
    h'.usedId.trans h.usedId, h'.usedIdx.trans h.usedIdx, h'.info.trans h.info, h'.bdisk.trans h.bdisk⟩

/-- Descriptor `i` was given back. -/
structure Freed (d : Disk) (i : Nat) (d' : Disk) : Prop where
  free : d'.free = update d.free i true
  flags : ∀ j, (d'.desc j).flags = (d.desc j).flags
  next : ∀ j, (d'.desc j).next = (d.desc j).next
  desc : ∀ j, j ≠ i → d'.desc j = d.desc j
  same : SameRings d d'

/-- A descriptor in use can be freed. -/
theorem freeDesc_ok (hi : i < NUM) (hf : d.free i = false) :
    ∃ d', d.freeDesc i = .ok d' ∧ Freed d i d' := by
  rw [Disk.freeDesc, if_neg (Nat.not_le_of_lt hi), if_neg (by rw [hf]; decide)]
  refine ⟨_, rfl, rfl, fun j => ?_, fun j => ?_, fun j hj => update_of_ne hj .., ?_⟩
  · dsimp only
    by_cases hj : j = i
    · rw [hj, update_self]
    · rw [update_of_ne hj]
  · dsimp only
    by_cases hj : j = i
    · rw [hj, update_self]
    · rw [update_of_ne hj]
  · exact ⟨rfl, rfl, rfl, rfl, rfl, rfl, rfl⟩

/-- The descriptors `idx` are taken out of `d`; nothing else changes. -/
structure Grabbed (d : Disk) (idx : List Nat) (d' : Disk) : Prop where
  nodup : idx.Nodup
  lt : ∀ i ∈ idx, i < NUM
  was : ∀ i ∈ idx, d.free i = true
  now : ∀ i ∈ idx, d'.free i = false
  other : ∀ i, i ∉ idx → d'.free i = d.free i
  desc : ∀ i, d.free i = false → d'.desc i = d.desc i
  same : SameRings d d'

/-- The rollback: the descriptors are free again, and only free ones have changed. -/
theorem giveBack_ok (h : Grabbed d idx d') : ∃ d'', d'.giveBack idx = .ok d'' ∧ Grabbed d [] d'' := by
  induction idx generalizing d' with
  | nil => exact ⟨d', rfl, h⟩
  | cons i idx ih =>
    have hi : i ∈ i :: idx := mem_cons_self
    have hnot : i ∉ idx := (nodup_cons.mp h.nodup).1
    obtain ⟨d1, hok, hfreed⟩ := freeDesc_ok (h.lt i hi) (h.now i hi)
    rw [Disk.giveBack, hok]
    apply ih
    constructor
    · exact (nodup_cons.mp h.nodup).2
    · exact fun j hj => h.lt j (mem_cons_of_mem _ hj)
    · exact fun j hj => h.was j (mem_cons_of_mem _ hj)
    · intro j hj
      have hne : j ≠ i := by
        rintro rfl
        exact hnot hj
      rw [hfreed.free, update_of_ne hne]
      exact h.now j (mem_cons_of_mem _ hj)
    · intro j hj
      rw [hfreed.free]
      by_cases hji : j = i
      · subst hji
        rw [update_self, h.was j hi]
      · rw [update_of_ne hji]
        exact h.other j fun hm => (mem_cons.mp hm).elim hji hj
    · grind [Grabbed, Freed]
    · exact h.same.trans hfreed.same

/-- `alloc3_desc` does not panic: it gets `n` more descriptors, or gives all of them back. -/
theorem allocFrom_ok (n : Nat) (h : Grabbed d idx d') :
    (∃ idx' d'', d'.allocFrom n idx = .ok (some idx', d'') ∧ idx'.length = idx.length + n ∧
      Grabbed d idx' d'') ∨
    ∃ d'', d'.allocFrom n idx = .ok (none, d'') ∧ Grabbed d [] d'' := by
  induction n generalizing idx d' with
  | zero => exact .inl ⟨idx, d', rfl, rfl, h⟩
  | succ n ih =>
    rw [Disk.allocFrom]
    rcases ha : d'.allocDesc with ⟨o, d''⟩
    cases o with
    | none =>
      grind [allocDesc_none, giveBack_ok]
    | some i =>
      obtain ⟨hi, hfree, rfl⟩ := allocDesc_some ha
      have hnot : i ∉ idx := by
        intro hm
        rw [h.now i hm] at hfree
        cases hfree
      have hgrab : Grabbed d (idx ++ [i]) { d' with free := update d'.free i false } := by
        constructor
        · grind [Grabbed]
        · grind [Grabbed]
        · grind [Grabbed]
        · grind [Grabbed]
        · grind [Grabbed]
        · exact h.desc
        · exact h.same.trans ⟨rfl, rfl, rfl, rfl, rfl, rfl, rfl⟩
      rcases ih hgrab with ⟨idx', d'', hok, hlen, hg⟩ | hfail
      · grind
      · exact .inr hfail

theorem Grabbed.nil (d : Disk) : Grabbed d [] d :=
  ⟨nodup_nil, fun _ h => absurd h not_mem_nil, fun _ h => absurd h not_mem_nil,
    fun _ h => absurd h not_mem_nil, fun _ _ => rfl, fun _ _ => rfl, .refl d⟩

/-- Three descriptors, or none and all given back. -/
theorem alloc3Desc_ok (d : Disk) :
    (∃ i0 i1 i2 d', d.alloc3Desc = .ok (some [i0, i1, i2], d') ∧ Grabbed d [i0, i1, i2] d') ∨
    ∃ d', d.alloc3Desc = .ok (none, d') ∧ Grabbed d [] d' := by
  rcases allocFrom_ok 3 (Grabbed.nil d) with ⟨idx, d', hok, hlen, hg⟩ | hfail
  · obtain ⟨i0, i1, i2, rfl⟩ := length_eq_three.mp hlen
    exact .inl ⟨i0, i1, i2, d', hok, hg⟩
  · exact .inr hfail

/-- The descriptors of a request. -/
def Idx.toList (idx : Idx) : List Nat := [idx.i0, idx.i1, idx.i2]

/-- The chain of a request, as the device reads it: header, data, status. -/
structure Chain (d : Disk) (b : Nat) (idx : Idx) : Prop where
  first : (d.desc idx.i0).flags &&& VRING_DESC_F_NEXT ≠ 0 ∧ (d.desc idx.i0).next = idx.i1
  second : (d.desc idx.i1).flags &&& VRING_DESC_F_NEXT ≠ 0 ∧ (d.desc idx.i1).next = idx.i2
  third : (d.desc idx.i2).flags &&& VRING_DESC_F_NEXT = 0
  data : (d.desc idx.i1).addr = .data b
  status : (d.desc idx.i2).addr = .status idx.i0
  info : (d.info idx.i0).b = some b

/-- `format` links the three descriptors. -/
theorem Chain.format (d : Disk) (b blockno : Nat) (write : Bool) {idx : Idx} (hnd : idx.toList.Nodup) :
    Chain (d.format b blockno write idx) b idx := by
  simp only [Idx.toList, nodup_cons, mem_cons, not_mem_nil, or_false, not_or] at hnd
  obtain ⟨⟨h01, h02⟩, h12, -⟩ := hnd
  have hflags : ((if write then 0 else VRING_DESC_F_WRITE) ||| VRING_DESC_F_NEXT) &&&
      VRING_DESC_F_NEXT ≠ 0 := by
    cases write <;> decide
  unfold Disk.format
  constructor
  · grind
  · dsimp only
    rw [update_of_ne h12, update_self]
    exact ⟨hflags, rfl⟩
  · dsimp only
    rw [update_self]
    show VRING_DESC_F_WRITE &&& VRING_DESC_F_NEXT = 0
    decide
  · dsimp only
    rw [update_of_ne h12, update_self]
  · dsimp only
    rw [update_self]
  · dsimp only
    rw [update_self]

/-- A chain depends on its own descriptors only. -/
theorem Chain.congr {b : Nat} {idx : Idx} (h : Chain d b idx) (hd : ∀ i ∈ idx.toList, d'.desc i = d.desc i)
    (hi : (d'.info idx.i0).b = (d.info idx.i0).b) : Chain d' b idx := by
  have h0 := hd idx.i0 (by simp [Idx.toList])
  have h1 := hd idx.i1 (by simp [Idx.toList])
  have h2 := hd idx.i2 (by simp [Idx.toList])
  constructor
  · rw [h0]
    exact h.first
  · rw [h1]
    exact h.second
  · rw [h2]
    exact h.third
  · rw [h1]
    exact h.data
  · rw [h2]
    exact h.status
  · rw [hi]
    exact h.info

/-- What `virtio_disk_rw` has released when it returns. -/
structure Released (d : Disk) (idx : Idx) (d' : Disk) : Prop where
  free : ∀ i, d'.free i = (d.free i || decide (i ∈ idx.toList))
  desc : ∀ i, i ∉ idx.toList → d'.desc i = d.desc i
  info : ∀ i, i ≠ idx.i0 → d'.info i = d.info i
  status : ∀ i, (d'.info i).status = (d.info i).status
  avail : d'.avail = d.avail
  availIdx : d'.availIdx = d.availIdx
  elems : d'.elems = d.elems
  usedId : d'.usedId = d.usedId
  usedIdx : d'.usedIdx = d.usedIdx
  bdisk : d'.bdisk = d.bdisk

/-- A chain is freed without a panic: its three descriptors are all different and not free. -/
theorem finish_ok {b : Nat} {idx : Idx} (h : Chain d b idx) (hnd : idx.toList.Nodup)
    (hlt : ∀ i ∈ idx.toList, i < NUM) (hfree : ∀ i ∈ idx.toList, d.free i = false) :
    ∃ d', d.finish idx = .ok d' ∧ Released d idx d' := by
  have hnd' := hnd
  simp only [Idx.toList, nodup_cons, mem_cons, not_mem_nil, or_false, not_or] at hnd'
  obtain ⟨⟨h01, h02⟩, h12, -⟩ := hnd'
  have m0 : idx.i0 ∈ idx.toList := by simp [Idx.toList]
  have m1 : idx.i1 ∈ idx.toList := by simp [Idx.toList]
  have m2 : idx.i2 ∈ idx.toList := by simp [Idx.toList]
  unfold Disk.finish
  generalize hd0 : { d with
    info := update d.info idx.i0 { d.info idx.i0 with b := none } } = d0
  have hdesc : d0.desc = d.desc := by rw [← hd0]
  have hfree0 : d0.free = d.free := by rw [← hd0]
  -- the loop runs three times; each descriptor still has its flags and its link when it is freed
  obtain ⟨d1, ok1, f1⟩ := freeDesc_ok (d := d0) (hlt _ m0) (by rw [hfree0]; exact hfree _ m0)
  obtain ⟨d2, ok2, f2⟩ := freeDesc_ok (d := d1) (hlt _ m1)
    (by rw [f1.free, update_of_ne (Ne.symm h01), hfree0]; exact hfree _ m1)
  obtain ⟨d3, ok3, f3⟩ := freeDesc_ok (d := d2) (hlt _ m2) (by
      rw [f2.free, update_of_ne (Ne.symm h12), f1.free, update_of_ne (Ne.symm h02), hfree0]
      exact hfree _ m2)
  show ∃ d', d0.freeChain (6 + 1 + 1 + 1) idx.i0 = .ok d' ∧ Released d idx d'
  rw [Disk.freeChain, ok1]
  dsimp only
  rw [f1.flags, f1.next, hdesc, if_pos h.first.1, h.first.2, Disk.freeChain, ok2]
  dsimp only
  rw [f2.flags, f2.next, f1.flags, f1.next, hdesc, if_pos h.second.1, h.second.2, Disk.freeChain, ok3]
  dsimp only
  rw [f3.flags, f2.flags, f1.flags, hdesc, if_neg (by rw [h.third]; decide)]
  have hsame : SameRings d0 d3 := (f1.same.trans f2.same).trans f3.same
  refine ⟨d3, rfl, ?_⟩
  constructor
  · intro i
    rw [f3.free, f2.free, f1.free, hfree0]
    simp only [update_apply, Idx.toList, mem_cons, not_mem_nil, or_false]
    by_cases e0 : i = idx.i0 <;> by_cases e1 : i = idx.i1 <;> by_cases e2 : i = idx.i2 <;> simp [e0, e1, e2]
  · grind [Freed]
  · intro i hi
    rw [hsame.info, ← hd0]
    exact update_of_ne hi ..
  · intro i
    rw [hsame.info, ← hd0]
    dsimp only
    by_cases e0 : i = idx.i0
    · subst e0
      rw [update_self]
    · rw [update_of_ne e0]
  · rw [hsame.avail, ← hd0]
  · rw [hsame.availIdx, ← hd0]
  · rw [hsame.elems, ← hd0]
  · rw [hsame.usedId, ← hd0]
  · rw [hsame.usedIdx, ← hd0]
  · rw [hsame.bdisk, ← hd0]

end Descriptors

end Xv6.Virtio
