/-
  PIPES UNDER ANY INTERLEAVING (`kernel/pipe.c`).

  `pipewrite` and `piperead` hold the pipe's lock except while they sleep, so what other processes can
  see of them is a sequence of PASSES: from the call, or from a wake-up, to the next sleep or to the
  return.  A state of the system is the pipe and what every process has asked for and sleeps in; a step
  is one pass, a `pipeclose`, or a `kill`.  Wake-ups may be spurious: any sleeper may run at any time.

  The ring is the library's (`Xv6.Lib.Ring`), 512 cells under counters that wrap at `2 ^ 32`.
  `pipe_fifo` says of every run what the pipe is for: what was stored is what was delivered followed by
  what is in the ring, and of every write call a PREFIX of its buffer was stored.
-/
import Xv6.Fs.Image
import Xv6.Fs.VolIo
import Xv6.Lib.Ring

namespace Xv6

open Function Ring List Src

variable {x : Pipe} {q : List UInt8} {um : UserMem} {addr i n : Nat}

/-! ## One pass -/

/-- How a pass ends: asleep before byte `i`, or with a result. -/
inductive Pass
  | sleeps (i : Nat)
  | returns (v : Int)

namespace Pipe

/-- `pi->data[pi->nwrite++ % PIPESIZE] = ch`. -/
def put (x : Pipe) (ch : UInt8) : Pipe :=
  { x with
    data := update x.data (x.nwrite % PIPESIZE) ch
    nwrite := inc32 x.nwrite }

/-- `pipewrite` from byte `i` on, with `n` bytes left; and the bytes it stored. -/
def writePass (um : UserMem) (addr : Nat) (killed : Bool) : Nat → Nat → Pipe → Pass × Pipe × List UInt8
  | 0, i, x => (.returns i, x, [])
  | n + 1, i, x =>
    if x.nwrite = (x.nread + PIPESIZE) % 4294967296 then
      (if x.readopen = false ∨ killed = true then .returns (-1) else .sleeps i, x, [])
    else
      let r := um.copyin (fun _ => 0) 0 ((addr + i) % 18446744073709551616) 1
      if r.2 then
        let s := writePass um addr killed n (i + 1) (x.put (r.1 0))
        (s.1, s.2.1, r.1 0 :: s.2.2)
      else (.returns i, x, [])

/-- `piperead`'s loop: how many bytes it counted, and the bytes it copied out. -/
def takeFrom (um : UserMem) (addr : Nat) : Nat → Nat → Pipe → Nat × Pipe × List UInt8
  | 0, i, x => (i, x, [])
  | n + 1, i, x =>
    if x.nread = x.nwrite then (i, x, [])
    else
      let ch := x.data (x.nread % PIPESIZE)
      let x' := { x with nread := inc32 x.nread }
      if um.copyout ((addr + i) % 18446744073709551616) 1 then
        let s := takeFrom um addr n (i + 1) x'
        (s.1, s.2.1, ch :: s.2.2)
      else (i, x', [])

/-- `piperead`. -/
def readPass (um : UserMem) (addr : Nat) (killed : Bool) (n : Nat) (x : Pipe) : Pass × Pipe × List UInt8 :=
  if x.nread = x.nwrite ∧ x.writeopen = true then
    (if killed then .returns (-1) else .sleeps 0, x, [])
  else
    let r := x.takeFrom um addr n 0
    (.returns r.1, r.2.1, r.2.2)

end Pipe

/-! ## A pass is a system call

  The system calls know of one process at a time: to sleep is to be blocked.  They are the passes of a
  process that is not killed, without the list of the bytes that have moved. -/

/-- What the call returns, unless it has gone to sleep. -/
def Pass.result : Pass → Option Int
  | .sleeps _ => none
  | .returns v => some v

/-- The loops of `piperead` agree. -/
theorem Pipe.takeFrom_readFrom (um : UserMem) (addr n i : Nat) (x : Pipe) :
    x.readFrom um addr n i = ((x.takeFrom um addr n i).1, (x.takeFrom um addr n i).2.1) := by
  induction n generalizing i x with
  | zero => rfl
  | succ n ih =>
    rw [readFrom, takeFrom]
    split
    · rfl
    · split
      · exact ih ..
      · rfl

/-- The loops of `pipewrite` agree. -/
theorem Pipe.writePass_writeFrom (um : UserMem) (addr n i : Nat) (x : Pipe) : x.writeFrom um addr n i =
      ((x.writePass um addr false n i).1.result, (x.writePass um addr false n i).2.1) := by
  induction n generalizing i x with
  | zero => rfl
  | succ n ih =>
    rw [writeFrom, writePass]
    split
    · cases x.readopen <;> rfl
    · dsimp only
      split
      · exact ih ..
      · rfl

/-- `piperead` as a system call is a pass of a reader. -/
theorem Up.piperead_pass (pi : Nat) (um : UserMem) (addr : Nat) (n : Int) :
    Up.piperead pi um addr n = Up.tabs >>= fun t =>
      ((t.pipe pi).readPass um addr false n.toNat).1.result.elim Up.block fun v =>
        Up.setTabs (t.updPipe pi fun _ => ((t.pipe pi).readPass um addr false n.toNat).2.1) >>= fun _ =>
          pure v := by
  refine congrArg (Up.tabs >>= ·) (funext fun t => ?_)
  rw [Pipe.readPass]
  dsimp only
  rw [Pipe.takeFrom_readFrom]
  split <;> rfl

/-- `pipewrite` as a system call is a pass of a writer. -/
theorem Up.pipewrite_pass (pi : Nat) (um : UserMem) (addr : Nat) (n : Int) :
    Up.pipewrite pi um addr n = Up.tabs >>= fun t =>
      ((t.pipe pi).writePass um addr false n.toNat 0).1.result.elim Up.block fun v =>
        Up.setTabs (t.updPipe pi fun _ => ((t.pipe pi).writePass um addr false n.toNat 0).2.1) >>= fun _ =>
          pure v := by
  refine congrArg (Up.tabs >>= ·) (funext fun t => ?_)
  dsimp only
  rw [Pipe.writePass_writeFrom]
  cases ((t.pipe pi).writePass um addr false n.toNat 0).1 <;> rfl

/-! ## The system -/

namespace Fifo

/-- A call in progress; a writer has stored the first `i` bytes of its buffer. -/
inductive Call
  | write (um : UserMem) (addr : Nat) (n : Int) (i : Nat)
  | read (um : UserMem) (addr : Nat) (n : Int)

/-- What happens at the pipe. -/
inductive Event
  | called (p : Nat) (c : Call)
  | stored (p : Nat) (b : UInt8)
  | delivered (p : Nat) (b : UInt8)
  | returned (p : Nat) (c : Call) (v : Int)

/-- The pipe, the calls that sleep in it, and `p->killed`. -/
structure Sys where
  pipe : Pipe
  call : Nat → Option Call
  killed : Nat → Bool

/-- The user buffer of the call is mapped. -/
def Call.Mapped : Call → Prop
  | .write um addr n _ => (Src.user um addr).Readable n.toNat
  | .read um addr n => (Dst.user um addr).Writable n.toNat

/-- The end of a pass of `p` through the call `c`, as an event. -/
def ending (p : Nat) (c : Call) : Pass → List Event
  | .sleeps _ => []
  | .returns v => [.returned p c v]

/-- The call that a pass leaves asleep. -/
def asleep (c : Nat → Call) : Pass → Option Call
  | .sleeps i => some (c i)
  | .returns _ => none

/-- One pass of process `p` through its call. -/
def Sys.go (s : Sys) (p : Nat) (c : Call) : List Event × Sys :=
  match c with
  | .write um addr n i =>
    let r := s.pipe.writePass um addr (s.killed p) (n.toNat - i) i
    (r.2.2.map (Event.stored p) ++ ending p c r.1, { s with
        pipe := r.2.1
        call := update s.call p (asleep (.write um addr n) r.1) })
  | .read um addr n =>
    let r := s.pipe.readPass um addr (s.killed p) n.toNat
    (r.2.2.map (Event.delivered p) ++ ending p c r.1, { s with
        pipe := r.2.1
        call := update s.call p (asleep (fun _ => c) r.1) })

/-- One step, and what happens in it.  An end of the pipe is closed with its last descriptor, and a
    process in a call has one: nobody closes an end that is in use. -/
inductive Step : Sys → List Event → Sys → Prop
  | write {s : Sys} {p : Nat} {um : UserMem} {addr : Nat} {n : Int} (hidle : s.call p = none)
      (hopen : s.pipe.writeopen = true) (hmap : (Call.write um addr n 0).Mapped) :
      Step s (.called p (.write um addr n 0) :: (s.go p (.write um addr n 0)).1)
        (s.go p (.write um addr n 0)).2
  | read {s : Sys} {p : Nat} {um : UserMem} {addr : Nat} {n : Int} (hidle : s.call p = none)
      (hopen : s.pipe.readopen = true) (hmap : (Call.read um addr n).Mapped) :
      Step s (.called p (.read um addr n) :: (s.go p (.read um addr n)).1) (s.go p (.read um addr n)).2
  | wake {s : Sys} {p : Nat} {c : Call} (hcall : s.call p = some c) :
      Step s (s.go p c).1 (s.go p c).2
  | kill {s : Sys} (p : Nat) : Step s [] { s with killed := update s.killed p true }
  | closeWrite {s : Sys} (hopen : s.pipe.writeopen = true)
      (hout : ∀ p um addr n i, s.call p ≠ some (.write um addr n i)) :
      Step s [] { s with pipe := { s.pipe with writeopen := false } }
  | closeRead {s : Sys} (hopen : s.pipe.readopen = true)
      (hout : ∀ p um addr n, s.call p ≠ some (.read um addr n)) :
      Step s [] { s with pipe := { s.pipe with readopen := false } }

/-- A run, and all that happened in it. -/
inductive Run (s0 : Sys) : List Event → Sys → Prop
  | nil : Run s0 [] s0
  | step {h e : List Event} {s s' : Sys} (hr : Run s0 h s) (hs : Step s e s') : Run s0 (h ++ e) s'

/-- What `pipealloc` makes, whatever the page contained. -/
structure Sys.Fresh (s : Sys) : Prop where
  nread : s.pipe.nread = 0
  nwrite : s.pipe.nwrite = 0
  readopen : s.pipe.readopen = true
  writeopen : s.pipe.writeopen = true
  idle : ∀ p, s.call p = none

/-! ## What happened -/

/-- All bytes stored, in order. -/
def stored (h : List Event) : List UInt8 := h.filterMap fun
  | .stored _ b => some b
  | _ => none

/-- All bytes delivered, in order. -/
def delivered (h : List Event) : List UInt8 := h.filterMap fun
  | .delivered _ b => some b
  | _ => none

/-- The bytes process `p` stored, in order. -/
def storedBy (p : Nat) (h : List Event) : List UInt8 := h.filterMap fun
  | .stored q b => if q = p then some b else none
  | _ => none

/-- The bytes of a user buffer. -/
def bytes (um : UserMem) (addr : Nat) (n : Int) : List UInt8 :=
  (List.range n.toNat).map (Src.user um addr).byte

/-- The buffers process `p` asked to write, in order. -/
def buffers (p : Nat) (h : List Event) : List (List UInt8) := h.filterMap fun
  | .called q (.write um addr n _) => if q = p then some (bytes um addr n) else none
  | _ => none

/-- Of each list a prefix, one after the other. -/
inductive Prefixes {α : Type} : List (List α) → List α → Prop
  | nil : Prefixes [] []
  | snoc {bs : List (List α)} {out b pre : List α} (h : Prefixes bs out) (hpre : pre <+: b) :
      Prefixes (bs ++ [b]) (out ++ pre)

/-- What the ring holds. -/
abbrev ring (x : Pipe) : List UInt8 := contents PIPESIZE 4294967296 x.data x.nread x.nwrite

section Lists

variable {p q : Nat} {h e : List Event} {bs : List UInt8}

@[simp] theorem stored_append : stored (h ++ e) = stored h ++ stored e := filterMap_append

@[simp] theorem delivered_append : delivered (h ++ e) = delivered h ++ delivered e :=
  filterMap_append

@[simp] theorem storedBy_append : storedBy p (h ++ e) = storedBy p h ++ storedBy p e :=
  filterMap_append

@[simp] theorem buffers_append : buffers p (h ++ e) = buffers p h ++ buffers p e :=
  filterMap_append

@[simp] theorem stored_map : stored (bs.map (Event.stored p)) = bs := by
  simp [stored, filterMap_map]

@[simp] theorem delivered_map : delivered (bs.map (Event.delivered p)) = bs := by
  simp [delivered, filterMap_map]

@[simp] theorem stored_delivered : stored (bs.map (Event.delivered p)) = [] := by
  simp [stored, filterMap_map]

@[simp] theorem delivered_stored : delivered (bs.map (Event.stored p)) = [] := by
  simp [delivered, filterMap_map]

@[simp] theorem storedBy_map : storedBy p (bs.map (Event.stored q)) = if q = p then bs else [] := by
  by_cases hq : q = p
  · simp [storedBy, filterMap_map, hq]
  · simp [storedBy, filterMap_map, hq]

@[simp] theorem storedBy_delivered : storedBy p (bs.map (Event.delivered q)) = [] := by
  simp [storedBy, filterMap_map]

@[simp] theorem buffers_stored : buffers p (bs.map (Event.stored q)) = [] := by
  simp [buffers, filterMap_map]

@[simp] theorem buffers_delivered : buffers p (bs.map (Event.delivered q)) = [] := by
  simp [buffers, filterMap_map]

-- the end of a pass moves no byte
@[simp] theorem stored_ending (c : Call) (o : Pass) : stored (ending q c o) = [] := by cases o <;> rfl

@[simp] theorem delivered_ending (c : Call) (o : Pass) : delivered (ending q c o) = [] := by
  cases o <;> rfl

@[simp] theorem storedBy_ending (c : Call) (o : Pass) : storedBy p (ending q c o) = [] := by
  cases o <;> rfl

@[simp] theorem buffers_ending (c : Call) (o : Pass) : buffers p (ending q c o) = [] := by
  cases o <;> rfl

end Lists

/-! ## What a pass does -/

/-- The pipe holds the queue `q`. -/
abbrev Holds (x : Pipe) (q : List UInt8) : Prop :=
  Queue PIPESIZE 4294967296 x.data x.nread x.nwrite q

theorem size_dvd : PIPESIZE ∣ 4294967296 := by decide

theorem size_lt : PIPESIZE < 4294967296 := by decide

theorem Holds.put (h : Holds x q) (hroom : x.nwrite ≠ (x.nread + PIPESIZE) % 4294967296) (ch : UInt8) :
    Holds (x.put ch) (q ++ [ch]) := by
  have hne : q.length ≠ PIPESIZE := fun he => hroom ((h.full_iff size_lt).mpr he)
  have hle := h.le
  exact h.push size_dvd (by omega) ch

/-- The copy of one byte out of a mapped buffer. -/
theorem copyin_byte (hmap : (user um addr).Readable n) (hi : i < n) :
    let r := um.copyin (fun _ => 0) 0 ((addr + i) % 18446744073709551616) 1
    r.2 = true ∧ r.1 0 = (user um addr).byte i := by
  have hok : ((user um addr).copy i (fun _ => 0) 0 1).2 = true := copy_ok hmap hi
  constructor
  · exact hok
  · show ((user um addr).copy i (fun _ => 0) 0 1).1 0 = _
    rw [copy_eq hok]
    rfl

/-- A pass of a writer stores the next bytes of its buffer at the end of the queue. -/
theorem writePass_spec (killed : Bool) (hmap : (user um addr).Readable n) {k i : Nat} (hn : i + k = n)
    (hx : Holds x q) :
    let r := x.writePass um addr killed k i
    Holds r.2.1 (q ++ r.2.2) ∧ r.2.2 <+: ((range n).map (user um addr).byte).drop i ∧
      ∀ j, r.1 = .sleeps j → j = i + r.2.2.length := by
  induction k generalizing i x q with
  | zero =>
    rw [Pipe.writePass]
    dsimp only
    rw [append_nil]
    exact ⟨hx, nil_prefix, fun j h => by cases h⟩
  | succ k ih =>
    rw [Pipe.writePass]
    split
    · grind
    · next hroom =>
      obtain ⟨hok, hbyte⟩ := copyin_byte (i := i) hmap (by omega)
      rw [if_pos hok, hbyte]
      obtain ⟨hq, hpre, hj⟩ := ih (show i + 1 + k = n by omega) (hx.put hroom ((user um addr).byte i))
      have hdrop : ((range n).map (user um addr).byte).drop i =
          (user um addr).byte i :: ((range n).map (user um addr).byte).drop (i + 1) := by
        rw [drop_eq_getElem_cons (by simp; omega)]
        simp
      refine ⟨?_, ?_, ?_⟩
      · rw [append_cons]
        exact hq
      · rw [hdrop]
        exact (cons_prefix_cons ..).mpr ⟨rfl, hpre⟩
      · intro j h
        rw [hj j h, length_cons]
        omega

/-- `piperead`'s loop takes the oldest bytes, and stops early only when there are no more. -/
theorem takeFrom_spec (hmap : (Dst.user um addr).Writable n) {k i : Nat} (hn : i + k = n) (hx : Holds x q) :
    let r := x.takeFrom um addr k i
    ∃ q', q = r.2.2 ++ q' ∧ Holds r.2.1 q' ∧ r.1 = i + r.2.2.length ∧ (0 < k → r.2.2 = [] → q = []) := by
  induction k generalizing i x q with
  | zero => exact ⟨q, rfl, hx, rfl, fun h => absurd h (lt_irrefl 0)⟩
  | succ k ih =>
    rw [Pipe.takeFrom]
    split
    · next hempty =>
      have hq := (hx.empty_iff size_lt).mp hempty
      exact ⟨q, rfl, hx, rfl, fun _ _ => hq⟩
    · next hsome =>
      have hok : um.copyout ((addr + i) % 18446744073709551616) 1 = true :=
        Dst.copy_ok hmap (show i + 1 ≤ n by omega)
      rw [if_pos hok]
      cases q with
      | nil => exact absurd ((hx.empty_iff size_lt).mpr rfl) hsome
      | cons b q =>
        obtain ⟨q', hq, hx', hi, -⟩ := ih (x := { x with nread := inc32 x.nread })
          (show i + 1 + k = n by omega) (hx.pop size_dvd)
        have hb : x.data (x.nread % PIPESIZE) = b := hx.front
        refine ⟨q', ?_, hx', ?_, fun _ h => by cases h⟩
        · rw [hb, cons_append]
          exact congrArg _ hq
        · rw [length_cons]
          exact hi.trans (by omega)

/-- A pass of a reader. -/
theorem readPass_spec (killed : Bool) (hmap : (Dst.user um addr).Writable n) (hx : Holds x q) :
    let r := x.readPass um addr killed n
    ∃ q', q = r.2.2 ++ q' ∧ Holds r.2.1 q' ∧ (0 < n → r.1 = .returns 0 → q = [] ∧ x.writeopen = false) := by
  rw [Pipe.readPass]
  split
  · refine ⟨q, rfl, hx, fun _ h => ?_⟩
    split at h
    · cases h
    · cases h
  · next hgo =>
    obtain ⟨q', hq, hx', hi, hnil⟩ := takeFrom_spec hmap (Nat.zero_add n) hx
    refine ⟨q', hq, hx', fun hpos h => ?_⟩
    have hzero : ((x.takeFrom um addr n 0).1 : Int) = 0 := Pass.returns.inj h
    have hlen : (x.takeFrom um addr n 0).2.2.length = 0 := by omega
    have hempty := hnil hpos (length_eq_zero_iff.mp hlen)
    refine ⟨hempty, ?_⟩
    cases hw : x.writeopen with
    | false => rfl
    | true => exact absurd ⟨(hx.empty_iff size_lt).mpr hempty, hw⟩ hgo

/-! ## Whole runs -/

/-- The calls in progress: a writer has stored the first `i` bytes of its buffer. -/
def Inside (h : List Event) (p : Nat) : Option Call → Prop
  | some (.write um addr n i) => (Call.write um addr n i).Mapped ∧ i ≤ n.toNat ∧
      ∃ bs out, buffers p h = bs ++ [bytes um addr n] ∧ Prefixes bs out ∧
        storedBy p h = out ++ (bytes um addr n).take i
  | some (.read um addr n) => (Call.read um addr n).Mapped ∧ Prefixes (buffers p h) (storedBy p h)
  | none => Prefixes (buffers p h) (storedBy p h)

/-- What was stored is what was delivered and what is in the pipe. -/
structure Inv (s : Sys) (h : List Event) : Prop where
  queue : ∃ q, Holds s.pipe q ∧ stored h = delivered h ++ q
  inside : ∀ p, Inside h p (s.call p)

section Steps

variable {s s' : Sys} {h e : List Event} {p : Nat} {c : Call}

/-- The list of stored bytes grows by a piece of the buffer. -/
theorem take_append_prefix {α : Type} {b bs : List α} (hi : i ≤ b.length)
    (hpre : bs <+: b.drop i) : b.take i ++ bs = b.take (i + bs.length) ∧ i + bs.length ≤ b.length := by
  have hlen := hpre.length_le
  rw [length_drop] at hlen
  constructor
  · rw [take_add, ← prefix_iff_eq_take.mp hpre]
  · omega

/-- What happens to one process is nothing to another. -/
theorem Inside.other {o : Option Call} (hI : Inside h p o) (hb : buffers p e = [])
    (hs : storedBy p e = []) : Inside (h ++ e) p o := by
  have hb' : buffers p (h ++ e) = buffers p h := by rw [buffers_append, hb, append_nil]
  have hs' : storedBy p (h ++ e) = storedBy p h := by rw [storedBy_append, hs, append_nil]
  rcases o with _ | ⟨um, addr, n, i⟩ | ⟨um, addr, n⟩
  · show Prefixes _ _
    rw [hb', hs']
    exact hI
  · obtain ⟨hmap, hle, bs, out, h1, h2, h3⟩ := hI
    exact ⟨hmap, hle, bs, out, hb'.trans h1, h2, hs'.trans h3⟩
  · refine ⟨hI.1, ?_⟩
    rw [hb', hs']
    exact hI.2

/-- **One pass** of a call in progress. -/
theorem Inv.go (hI : Inv s h) (hc : s.call p = some c) : Inv (s.go p c).2 (h ++ (s.go p c).1) := by
  obtain ⟨q, hq, hst⟩ := hI.queue
  have hin := hI.inside p
  rw [hc] at hin
  cases c with
  | write um addr n i =>
    obtain ⟨hmap, hle, bs, out, hbufs, hpre, hby⟩ := hin
    obtain ⟨hq', hnext, hj⟩ := writePass_spec (s.killed p) hmap
      (show i + (n.toNat - i) = n.toNat by omega) hq
    have hblen : (bytes um addr n).length = n.toNat := by simp [bytes]
    obtain ⟨htake, hle'⟩ := take_append_prefix (b := bytes um addr n) (by omega) hnext
    constructor
    · refine ⟨_, hq', ?_⟩
      simp [Sys.go, hst]
    · intro p'
      by_cases hp : p' = p
      · subst hp
        have hbufs' : buffers p' (h ++ (s.go p' (.write um addr n i)).1) = bs ++ [bytes um addr n] := by
          simp [Sys.go, hbufs]
        have hby' : storedBy p' (h ++ (s.go p' (.write um addr n i)).1) = out ++ (bytes um addr n).take
              (i + (s.pipe.writePass um addr (s.killed p') (n.toNat - i) i).2.2.length) := by
          simp [Sys.go, hby, htake]
        show Inside _ p' (update s.call p' _ p')
        rw [update_self]
        cases hend : (s.pipe.writePass um addr (s.killed p') (n.toNat - i) i).1 with
        | sleeps j =>
          obtain rfl := hj j hend
          exact ⟨hmap, by omega, bs, out, hbufs', hpre, hby'⟩
        | returns v =>
          show Prefixes _ _
          rw [hbufs', hby']
          exact hpre.snoc (List.take_prefix ..)
      · show Inside _ p' (update s.call p _ p')
        rw [update_of_ne hp]
        have hne : p ≠ p' := fun he => hp he.symm
        refine (hI.inside p').other ?_ ?_
        · simp [Sys.go]
        · simp [Sys.go, hne]
  | read um addr n =>
    obtain ⟨hmap, hpre⟩ := hin
    obtain ⟨q', hsplit, hq', -⟩ := readPass_spec (s.killed p) hmap hq
    constructor
    · refine ⟨q', hq', ?_⟩
      have hmoved : stored (s.go p (.read um addr n)).1 = [] ∧ delivered (s.go p (.read um addr n)).1 =
          (s.pipe.readPass um addr (s.killed p) n.toNat).2.2 := by simp [Sys.go]
      rw [stored_append, delivered_append, hmoved.1, hmoved.2, append_nil, append_assoc, ← hsplit]
      exact hst
    · intro p'
      have hsame : buffers p' (s.go p (.read um addr n)).1 = [] ∧
          storedBy p' (s.go p (.read um addr n)).1 = [] := by simp [Sys.go]
      by_cases hp : p' = p
      · subst hp
        show Inside _ p' (update s.call p' _ p')
        rw [update_self]
        cases hend : (s.pipe.readPass um addr (s.killed p') n.toNat).1 with
        | sleeps j =>
          exact Inside.other (o := some (.read um addr n)) ⟨hmap, hpre⟩ hsame.1 hsame.2
        | returns v => exact Inside.other (o := none) hpre hsame.1 hsame.2
      · show Inside _ p' (update s.call p _ p')
        rw [update_of_ne hp]
        exact (hI.inside p').other hsame.1 hsame.2

/-- A call is made. -/
theorem Inv.called (hI : Inv s h) (hidle : s.call p = none) (hmap : c.Mapped)
    (hfirst : ∀ um addr n i, c = .write um addr n i → i = 0) :
    Inv { s with call := update s.call p (some c) } (h ++ [.called p c]) := by
  obtain ⟨q, hq, hst⟩ := hI.queue
  have hnone : stored [.called p c] = [] ∧ delivered [.called p c] = [] ∧
      ∀ p', storedBy p' [.called p c] = [] := ⟨rfl, rfl, fun _ => rfl⟩
  constructor
  · refine ⟨q, hq, ?_⟩
    rw [stored_append, delivered_append, hnone.1, hnone.2.1, append_nil, append_nil]
    exact hst
  · intro p'
    by_cases hp : p' = p
    · subst hp
      have hin := hI.inside p'
      rw [hidle] at hin
      show Inside _ p' (update s.call p' _ p')
      rw [update_self]
      cases c with
      | write um addr n i =>
        obtain rfl := hfirst um addr n i rfl
        refine ⟨hmap, Nat.zero_le _, buffers p' h, storedBy p' h, ?_, hin, ?_⟩
        · simp [buffers]
        · rw [storedBy_append, hnone.2.2, take_zero]
      | read um addr n =>
        exact Inside.other (o := some (.read um addr n)) ⟨hmap, hin⟩ rfl rfl
    · show Inside _ p' (update s.call p _ p')
      rw [update_of_ne hp]
      have hne : p ≠ p' := fun he => hp he.symm
      refine (hI.inside p').other ?_ (hnone.2.2 p')
      cases c <;> simp [buffers, hne]

/-- The pass right after the call. -/
theorem go_called (s : Sys) (p : Nat) (c : Call) :
    Sys.go { s with call := update s.call p (some c) } p c = s.go p c := by
  cases c <;> simp [Sys.go]

theorem Inv.step (hI : Inv s h) (hs : Step s e s') : Inv s' (h ++ e) := by
  cases hs with
  | @write p um addr n hidle hopen hmap =>
    have h1 := (hI.called hidle hmap fun _ _ _ _ he => (Call.write.inj he).2.2.2.symm).go (update_self ..)
    rwa [go_called, append_assoc] at h1
  | @read p um addr n hidle hopen hmap =>
    have h1 := (hI.called hidle hmap fun _ _ _ _ he => by cases he).go (update_self ..)
    rwa [go_called, append_assoc] at h1
  | wake hcall => exact hI.go hcall
  | kill p =>
    rw [append_nil]
    exact ⟨hI.queue, hI.inside⟩
  | closeWrite hopen hout =>
    rw [append_nil]
    exact ⟨hI.queue, hI.inside⟩
  | closeRead hopen hout =>
    rw [append_nil]
    exact ⟨hI.queue, hI.inside⟩

theorem Sys.Fresh.inv (hs : s.Fresh) : Inv s [] := by
  constructor
  · refine ⟨[], ?_, rfl⟩
    show Queue PIPESIZE 4294967296 s.pipe.data s.pipe.nread s.pipe.nwrite []
    rw [hs.nread, hs.nwrite]
    exact Queue.nil _ (by decide)
  · intro p
    rw [hs.idle p]
    exact .nil

theorem Run.inv {s0 : Sys} (h0 : s0.Fresh) (hr : Run s0 h s) : Inv s h := by
  induction hr with
  | nil => exact h0.inv
  | step _ hs ih => exact ih.step hs

/-- Every write call has contributed a prefix of its buffer. -/
theorem Inside.prefixes {o : Option Call} (hI : Inside h p o) : Prefixes (buffers p h) (storedBy p h) := by
  rcases o with _ | ⟨um, addr, n, i⟩ | ⟨um, addr, n⟩
  · exact hI
  · obtain ⟨-, -, bs, out, h1, h2, h3⟩ := hI
    rw [h1, h3]
    exact h2.snoc (List.take_prefix ..)
  · exact hI.2

/-- A read that returned in this pass was this pass. -/
theorem returned_read {q : Nat} {n v : Int} (hmem : Event.returned q (.read um addr n) v ∈ (s.go p c).1) :
    c = .read um addr n ∧ (s.pipe.readPass um addr (s.killed p) n.toNat).1 = .returns v := by
  have hend : ∀ {c : Call} {o : Pass}, Event.returned q (.read um addr n) v ∈ ending p c o →
      c = .read um addr n ∧ o = .returns v := by
    intro c o hm
    cases o with
    | sleeps i => cases hm
    | returns w =>
      rcases mem_singleton.mp hm with ⟨⟩
      exact ⟨rfl, rfl⟩
  cases c with
  | write um' addr' n' i =>
    rcases mem_append.mp hmem with hm | hm
    · obtain ⟨b, -, hb⟩ := mem_map.mp hm
      cases hb
    · cases (hend hm).1
  | read um' addr' n' =>
    rcases mem_append.mp hmem with hm | hm
    · obtain ⟨b, -, hb⟩ := mem_map.mp hm
      cases hb
    · obtain ⟨hc, ho⟩ := hend hm
      cases hc
      exact ⟨rfl, ho⟩

/-- **End of file.** -/
theorem Inv.end_of_file (hI : Inv s h) (hs : Step s e s') {n : Int}
    (hn : 0 < n) (hmem : Event.returned p (.read um addr n) 0 ∈ e) :
    ring s.pipe = [] ∧ s.pipe.writeopen = false := by
  obtain ⟨q, hq, -⟩ := hI.queue
  have hpass : ∀ {p' : Nat} {c : Call}, c.Mapped → Event.returned p (.read um addr n) 0 ∈ (s.go p' c).1 →
      ring s.pipe = [] ∧ s.pipe.writeopen = false := by
    intro p' c hmap hm
    obtain ⟨rfl, hret⟩ := returned_read hm
    obtain ⟨q', -, -, hzero⟩ := readPass_spec (s.killed p') hmap hq
    obtain ⟨rfl, hw⟩ := hzero (by omega) hret
    exact ⟨hq.contents_eq size_lt, hw⟩
  cases hs with
  | @write p' um' addr' n' hidle hopen hmap =>
    rcases mem_cons.mp hmem with he | hm
    · cases he
    · exact hpass hmap hm
  | @read p' um' addr' n' hidle hopen hmap =>
    rcases mem_cons.mp hmem with he | hm
    · cases he
    · exact hpass hmap hm
  | @wake p' c hcall =>
    have hin := hI.inside p'
    rw [hcall] at hin
    cases c with
    | write um' addr' n' i => exact hpass hin.1 hmem
    | read um' addr' n' => exact hpass hin.1 hmem
  | kill p' => cases hmem
  | closeWrite hopen hout => cases hmem
  | closeRead hopen hout => cases hmem

end Steps

/-- **Pipes are FIFO.**  In every state of every run the counters are at most `PIPESIZE` apart, what was
    stored is what was delivered followed by what is in the ring, and each process has stored a prefix
    of each of its buffers, in the order of its calls.  A read for `n > 0` bytes that returns 0 found
    the ring empty and the write end closed. -/
theorem pipe_fifo {s0 s : Sys} {h : List Event} (h0 : s0.Fresh) (hr : Run s0 h s) :
    (s.pipe.nwrite + 4294967296 - s.pipe.nread) % 4294967296 ≤ PIPESIZE ∧
    stored h = delivered h ++ ring s.pipe ∧
    (∀ p, Prefixes (buffers p h) (storedBy p h)) ∧
    ∀ e s' p um addr n, Step s e s' → 0 < n → Event.returned p (.read um addr n) 0 ∈ e →
      ring s.pipe = [] ∧ s.pipe.writeopen = false := by
  have hI := hr.inv h0
  obtain ⟨q, hq, hst⟩ := hI.queue
  refine ⟨?_, ?_, fun p => (hI.inside p).prefixes, fun e s' p um addr n hs hn hm =>
    hI.end_of_file hs hn hm⟩
  · rw [hq.length_eq size_lt]
    exact hq.le
  · rw [ring, hq.contents_eq size_lt]
    exact hst

/-- A new pipe. -/
def newPipe : Sys := ⟨⟨fun _ => 0, 0, 0, true, true⟩, fun _ => none, fun _ => false⟩

/-- Process 0 writes two bytes, and process 1 reads one. -/
def oneRead : Sys := ((newPipe.go 0 (.write onePage 0 2 0)).2.go 1 (.read onePage 0 1)).2

theorem pipe_fifo_one_read : ∃ h, Run newPipe h oneRead ∧ delivered h = [66] ∧
    ring oneRead.pipe = [66] ∧ stored h = [66, 66] := by
  have hpage : ∀ i, i < 2 → onePage.page ((0 + i) % 18446744073709551616 / PGSIZE) ≠ none := by decide
  have hw : Step newPipe _ (newPipe.go 0 (.write onePage 0 2 0)).2 := .write rfl rfl hpage
  have hr : Step _ _ oneRead := .read rfl rfl fun i hi => hpage i (lt_of_lt_of_le hi (by decide))
  have hrun := (Run.nil.step hw).step hr
  obtain ⟨-, hst, -⟩ := pipe_fifo ⟨rfl, rfl, rfl, rfl, fun _ => rfl⟩ hrun
  have hring : ring oneRead.pipe = [66] := by decide
  exact ⟨_, hrun, rfl, hring, hst.trans (by rw [hring]; rfl)⟩

end Fifo

end Xv6
