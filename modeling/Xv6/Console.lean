/-
  THE CONSOLE (`kernel/console.c`): a line discipline on a ring.

  `cons` is one ring of 128 bytes under THREE free-running 32-bit indices.  `consoleintr` moves the edit
  index `e` and, when a line is complete, the write index `w`; `consoleread` moves the read index `r`.

  What it is for is said by `Line`: a queue of committed bytes and the line being edited, with
  `Line.input` for a character typed and `Line.read` for a reader.  `Denotes` relates the two, and
  `consoleintr_refines` and `readPass_refines` say that the code computes what the abstract machine
  does.  Readers run in passes, from their call or a wake-up to the next sleep or the return, in any
  order between the interrupts; `console_discipline` is about all such runs.  The echo of a character
  to the UART is left out.
-/
import Xv6.Fs.VolIo
import Xv6.Lib.Ring

namespace Xv6

open Function Ring List

variable {eof : Bool} {v : Int} {edit got q rest : List UInt8}
  {i k n p : Nat} {res : Option Int} {b c : UInt8}

/-! ## The code -/

def INPUT_BUF : Nat := 128

/-- `C(x)`: Control-x. -/
def ctrl (x : UInt8) : UInt8 := x - 64

/-- `'\n'` and `'\r'`. -/
def newline : UInt8 := 10
def carriage : UInt8 := 13

/-- `C('D')`, end of file. -/
def endOfFile : UInt8 := ctrl 68

/-- `struct cons`, without its lock. -/
structure Cons where
  buf : Bytes
  r : Nat
  w : Nat
  e : Nat

namespace Cons

/-- `C('U')`: `cons.e--` while the last byte is one of the line. -/
def killLine : Nat → Cons → Cons
  | 0, x => x
  | fuel + 1, x =>
    if x.e ≠ x.w ∧ x.buf (dec32 x.e % INPUT_BUF) ≠ newline then killLine fuel { x with e := dec32 x.e }
    else x

/-- `default:` append `c`, unless the buffer is full. -/
def append (c : UInt8) (x : Cons) : Cons :=
  if c ≠ 0 ∧ (x.e + 4294967296 - x.r) % 4294967296 < INPUT_BUF then
    let c := if c = carriage then newline else c
    let x := { x with buf := update x.buf (x.e % INPUT_BUF) c, e := inc32 x.e }
    if c = newline ∨ c = endOfFile ∨ x.e = (x.r + INPUT_BUF) % 4294967296 then { x with w := x.e } else x
  else x

/-- `consoleintr`.  The loop of `C('U')` ends when `e` has come back to `w`. -/
def consoleintr (c : UInt8) (x : Cons) : Cons :=
  if c = ctrl 80 then x
  else if c = ctrl 85 then x.killLine ((x.e + 4294967296 - x.w) % 4294967296)
  else if c = ctrl 72 ∨ c = 127 then
    if x.e ≠ x.w then { x with e := dec32 x.e } else x
  else x.append c

/-- `consoleread` with `i` bytes copied and `n` to go: its result, or `none` when it goes to sleep; the
    bytes it copied, and whether it took an end of file. -/
def readPass (dst : Dst) (killed : Bool) : Nat → Nat → Cons → Option Int × Cons × List UInt8 × Bool
  | 0, i, x => (some i, x, [], false)
  | n + 1, i, x =>
    if x.r = x.w then (if killed then some (-1) else none, x, [], false)
    else
      let c := x.buf (x.r % INPUT_BUF)
      let x := { x with r := inc32 x.r }
      if c = endOfFile then
        -- save ^D for next time if the caller gets something now
        if 0 < i then (some i, { x with r := dec32 x.r }, [], false) else (some i, x, [], true)
      else if dst.copy i 1 = false then (some i, x, [], false)
      else if c = newline then (some (i + 1), x, [c], false)
      else
        let s := x.readPass dst killed n (i + 1)
        (s.1, s.2.1, c :: s.2.2.1, s.2.2.2)

end Cons

/-! ## The edited-line queue -/

/-- What has been committed and not been read, and the line being edited. -/
structure Line where
  committed : List UInt8
  edit : List UInt8

variable {l : Line}

namespace Line

/-- A character is typed. -/
def input (c : UInt8) (l : Line) : Line :=
  if c = ctrl 80 then l
  else if c = ctrl 85 then { l with edit := [] }
  else if c = ctrl 72 ∨ c = 127 then { l with edit := l.edit.dropLast }
  else if c = 0 ∨ l.committed.length + l.edit.length = INPUT_BUF then l
  else
    let c := if c = carriage then newline else c
    if c = newline ∨ c = endOfFile ∨ l.committed.length + l.edit.length + 1 = INPUT_BUF then
      ⟨l.committed ++ l.edit ++ [c], []⟩
    else { l with edit := l.edit ++ [c] }

/-- A reader that has `i` bytes and wants `n` more: its result, or `none` if it has to wait; what is
    left of the queue, what it was given, and whether it was told of an end of file. -/
def read (killed : Bool) : Nat → Nat → List UInt8 → Option Int × List UInt8 × List UInt8 × Bool
  | 0, i, q => (some i, q, [], false)
  | _ + 1, _, [] => (if killed then some (-1) else none, [], [], false)
  | n + 1, i, c :: q =>
    if c = endOfFile then
      if 0 < i then (some i, c :: q, [], false) else (some i, q, [], true)
    else if c = newline then (some (i + 1), q, [c], false)
    else
      let s := read killed n (i + 1) q
      (s.1, s.2.1, c :: s.2.2.1, s.2.2.2)

end Line

/-- The ring denotes the line. -/
structure Cons.Denotes (x : Cons) (l : Line) : Prop where
  queue : Queue INPUT_BUF 4294967296 x.buf x.r x.e (l.committed ++ l.edit)
  w : x.w = (x.r + l.committed.length) % 4294967296
  plain : ∀ b ∈ l.edit, b ≠ newline ∧ b ≠ endOfFile

/-- The line between the indices. -/
def Cons.line (x : Cons) : Line :=
  ⟨contents INPUT_BUF 4294967296 x.buf x.r x.w, contents INPUT_BUF 4294967296 x.buf x.w x.e⟩

namespace Cons

variable {x : Cons}

theorem buf_dvd : INPUT_BUF ∣ 4294967296 := by decide

theorem buf_lt : INPUT_BUF < 4294967296 := by decide

/-! ## Typing -/

namespace Denotes

/-- The edit line seen from `w`. -/
theorem edit_queue (h : x.Denotes l) : Queue INPUT_BUF 4294967296 x.buf x.w x.e l.edit := by
  rw [h.w]
  exact h.queue.drop buf_dvd

theorem committed_queue (h : x.Denotes l) : Queue INPUT_BUF 4294967296 x.buf x.r x.w l.committed := by
  rw [h.w]
  exact h.queue.take

theorem line_eq (h : x.Denotes l) : x.line = l := by
  rw [line, h.edit_queue.contents_eq buf_lt, h.committed_queue.contents_eq buf_lt]

theorem edit_nil (h : x.Denotes l) : x.e = x.w ↔ l.edit = [] := by
  rw [← h.edit_queue.empty_iff buf_lt]
  exact eq_comm

/-- The last byte of the edit line is taken back. -/
theorem erase (h : x.Denotes l) (hb : l.edit = edit ++ [b]) :
    x.e ≠ x.w ∧ x.buf (dec32 x.e % INPUT_BUF) = b ∧
      Denotes { x with e := dec32 x.e } ⟨l.committed, edit⟩ := by
  have hq : Queue INPUT_BUF 4294967296 x.buf x.r x.e (l.committed ++ edit ++ [b]) := by
    rw [append_assoc, ← hb]
    exact h.queue
  refine ⟨fun he => ?_, hq.back buf_dvd, hq.unpush, h.w, fun b' hb' => h.plain b' ?_⟩
  · have := h.edit_nil.mp he
    rw [hb] at this
    simp at this
  · rw [hb]
    exact mem_append_left _ hb'

end Denotes

theorem killLine_refines {fuel : Nat} (h : x.Denotes l) (hfuel : l.edit.length ≤ fuel) :
    (x.killLine fuel).Denotes ⟨l.committed, []⟩ := by
  induction fuel generalizing x l with
  | zero =>
    have hnil : l.edit = [] := length_eq_zero_iff.mp (by omega)
    rw [← hnil]
    exact h
  | succ fuel ih =>
    rw [killLine]
    rcases eq_nil_or_concat l.edit with hnil | ⟨edit, b, hb⟩
    · rw [if_neg fun hh => hh.1 (h.edit_nil.mpr hnil), ← hnil]
      exact h
    · rw [concat_eq_append] at hb
      have hplain := (h.plain b (by rw [hb]; simp)).1
      obtain ⟨hne, hlast, h'⟩ := h.erase hb
      rw [if_pos ⟨hne, by rw [hlast]; exact hplain⟩]
      rw [hb, length_append, length_singleton] at hfuel
      exact ih (l := ⟨l.committed, edit⟩) h' (show edit.length ≤ fuel by omega)

/-- **The interrupt handler edits the line.** -/
theorem consoleintr_refines (h : x.Denotes l) (c : UInt8) : (x.consoleintr c).Denotes (l.input c) := by
  have hlen : (x.e + 4294967296 - x.r) % 4294967296 = l.committed.length + l.edit.length := by
    rw [h.queue.length_eq buf_lt, length_append]
  have hle : l.committed.length + l.edit.length ≤ INPUT_BUF := by
    have := h.queue.le
    rwa [length_append] at this
  unfold consoleintr Line.input
  split
  · exact h
  split
  · exact killLine_refines h (Nat.le_of_eq (h.edit_queue.length_eq buf_lt).symm)
  split
  · -- ^H or DEL
    rcases eq_nil_or_concat l.edit with hnil | ⟨edit, b, hb⟩
    · rw [if_neg fun hne => hne (h.edit_nil.mpr hnil), hnil, dropLast_nil, ← hnil]
      exact h
    · rw [concat_eq_append] at hb
      obtain ⟨hne, -, h'⟩ := h.erase hb
      rw [if_pos hne, hb, dropLast_concat]
      exact h'
  · -- a byte of the line
    unfold append
    rw [hlen]
    by_cases hfull : c = 0 ∨ l.committed.length + l.edit.length = INPUT_BUF
    · grind
    · rw [if_neg hfull, if_pos ⟨fun h0 => hfull (.inl h0), by omega⟩]
      generalize (if c = carriage then newline else c) = c'
      have hpush := h.queue.push buf_dvd (by rw [length_append]; omega) c'
      have hw := h.w
      have hend : inc32 x.e = (x.r + INPUT_BUF) % 4294967296 ↔
          l.committed.length + l.edit.length + 1 = INPUT_BUF := by grind [Queue, inc32, buf_lt]
      by_cases hcommit : c' = newline ∨ c' = endOfFile ∨ l.committed.length + l.edit.length + 1 = INPUT_BUF
      · rw [if_pos hcommit, if_pos (by rw [hend]; exact hcommit)]
        refine ⟨?_, ?_, fun b hb => by cases hb⟩
        · rw [append_nil]
          exact hpush
        · exact hpush.eq
      · rw [if_neg hcommit, if_neg (by rw [hend]; exact hcommit)]
        refine ⟨?_, hw, fun b hb => ?_⟩
        · rw [← append_assoc]
          exact hpush
        · grind [Denotes]

/-! ## Reading -/

/-- The oldest committed byte is taken. -/
theorem Denotes.take (h : x.Denotes ⟨b :: q, edit⟩) :
    x.buf (x.r % INPUT_BUF) = b ∧ Denotes { x with r := inc32 x.r } ⟨q, edit⟩ := by
  constructor
  · exact h.committed_queue.front
  · exact ⟨h.queue.pop buf_dvd, (h.committed_queue.pop buf_dvd).eq, h.plain⟩

/-- **The reader reads the queue.** -/
theorem readPass_refines {dst : Dst} (killed : Bool) (hmap : dst.Writable n)
    (hn : i + k = n) (h : x.Denotes ⟨q, edit⟩) :
    (x.readPass dst killed k i).1 = (Line.read killed k i q).1 ∧
      (x.readPass dst killed k i).2.1.Denotes ⟨(Line.read killed k i q).2.1, edit⟩ ∧
      (x.readPass dst killed k i).2.2 = (Line.read killed k i q).2.2 := by
  induction k generalizing i x q with
  | zero => exact ⟨rfl, h, rfl⟩
  | succ k ih =>
    cases q with
    | nil =>
      rw [readPass, if_pos ((h.committed_queue.empty_iff buf_lt).mpr rfl)]
      exact ⟨rfl, h, rfl⟩
    | cons b q =>
      have hne : x.r ≠ x.w := fun he => by
        have := (h.committed_queue.empty_iff buf_lt).mp he
        cases this
      obtain ⟨hb, h'⟩ := h.take
      rw [readPass, if_neg hne, Line.read]
      dsimp only
      rw [hb]
      split
      · split
        · -- `cons.r--`
          refine ⟨rfl, ?_, rfl⟩
          have hback : dec32 (inc32 x.r) = x.r := step_back h.queue.lt
          rw [hback]
          exact h
        · exact ⟨rfl, h', rfl⟩
      · grind [Dst.copy_ok]

end Cons

/-- The handler never moves the read index. -/
theorem Cons.consoleintr_r (x : Cons) (c : UInt8) : (x.consoleintr c).r = x.r := by
  have hkill : ∀ fuel (x : Cons), (x.killLine fuel).r = x.r := by
    intro fuel
    induction fuel with
    | zero => exact fun _ => rfl
    | succ fuel ih =>
      intro x
      rw [killLine]
      split
      · rw [ih]
      · rfl
  unfold consoleintr
  split
  · rfl
  split
  · exact hkill _ _
  split
  · split <;> rfl
  · grind [append]

/-! ## What a reader is given -/

namespace Line

/-- A character only adds to what has been committed. -/
theorem input_committed (c : UInt8) (l : Line) : ∃ bs, (l.input c).committed = l.committed ++ bs := by
  unfold input
  split
  · exact ⟨[], (append_nil _).symm⟩
  split
  · exact ⟨[], (append_nil _).symm⟩
  split
  · exact ⟨[], (append_nil _).symm⟩
  split
  · exact ⟨[], (append_nil _).symm⟩
  · generalize (if c = carriage then newline else c) = c'
    dsimp only
    split
    · exact ⟨l.edit ++ [c'], append_assoc ..⟩
    · exact ⟨[], (append_nil _).symm⟩

variable {killed : Bool}

/-- Why a read for `n` bytes returned with `got`; `q` is left in the queue. -/
inductive Ends (n : Nat) (got q : List UInt8) (eof : Bool) : Prop
  | newline (h : got.getLast? = some newline) (heof : eof = false)
  | full (h : got.length = n) (heof : eof = false)
  | before (h : got ≠ []) (hq : q.head? = some endOfFile) (heof : eof = false)
  | endOfFile (h : got = []) (heof : eof = true)

/-- What became of a reader who had `got` and wanted `k` more: it was given `taken` out of `q`, and
    `rest` is left. -/
structure Served (killed : Bool) (k : Nat) (got q : List UInt8) (res : Option Int)
    (rest taken : List UInt8) (eof : Bool) : Prop where
  split : q = taken ++ (if eof then [Xv6.endOfFile] else []) ++ rest
  plain : ∀ b ∈ taken, b ≠ Xv6.endOfFile
  inner : ∀ b ∈ taken.dropLast, b ≠ Xv6.newline
  waits : res = none → eof = false ∧ (got ++ taken).length < got.length + k ∧ ∀ b ∈ taken, b ≠ Xv6.newline
  returns : ∀ v, res = some v → (v = -1 ∧ killed = true ∧ eof = false) ∨
    v = (got ++ taken).length ∧ Ends (got.length + k) (got ++ taken) rest eof

/-- One byte more, after which the reader goes on. -/
theorem Served.cons {taken : List UInt8}
    (h : Served killed k (got ++ [c]) q res rest taken eof) (heof : c ≠ Xv6.endOfFile)
    (hline : c ≠ Xv6.newline) : Served killed (k + 1) got (c :: q) res rest (c :: taken) eof := by
  have hgot : got ++ [c] ++ taken = got ++ c :: taken := by rw [append_assoc]; rfl
  have hlen : (got ++ [c]).length + k = got.length + (k + 1) := by
    rw [length_append, length_singleton]
    omega
  constructor
  · rw [h.split]
    simp
  · intro b hb
    rcases mem_cons.mp hb with rfl | hb
    · exact heof
    · exact h.plain b hb
  · grind [Served]
  · grind [Served]
  · intro v hv
    have hret := h.returns v hv
    rw [hgot, hlen] at hret
    exact hret

/-- A reader that is given nothing. -/
theorem Served.nothing (hsplit : q = (if eof then [Xv6.endOfFile] else []) ++ rest)
    (hwaits : res = none → eof = false ∧ 0 < k)
    (hret : ∀ v, res = some v → (v = -1 ∧ killed = true ∧ eof = false) ∨
      v = got.length ∧ Ends (got.length + k) got rest eof) :
    Served killed k got q res rest [] eof := by
  constructor
  · exact hsplit
  · intro b hb
    cases hb
  · intro b hb
    cases hb
  · grind
  · intro v hv
    rw [append_nil]
    exact hret v hv

theorem read_served (killed : Bool) (k : Nat) (got q : List UInt8) :
    Served killed k got q (read killed k got.length q).1 (read killed k got.length q).2.1
      (read killed k got.length q).2.2.1 (read killed k got.length q).2.2.2 := by
  induction k generalizing got q with
  | zero =>
    refine Served.nothing rfl (fun h => ?_) fun v hv => .inr ?_
    · cases h
    · cases hv
      exact ⟨rfl, .full rfl rfl⟩
  | succ k ih =>
    cases q with
    | nil =>
      refine Served.nothing rfl (fun _ => ⟨rfl, Nat.succ_pos k⟩) fun v hv => .inl ?_
      cases killed with
      | false => cases hv
      | true =>
        cases hv
        exact ⟨rfl, rfl, rfl⟩
    | cons c q =>
      rw [read]
      split
      · next heof =>
        split
        · -- the end of file is left for the next reader
          next hpos =>
          refine Served.nothing rfl (fun h => ?_) fun v hv => .inr ?_
          · cases h
          · cases hv
            exact ⟨rfl, .before (ne_nil_of_length_pos hpos) (by rw [heof]; rfl) rfl⟩
        · next hzero =>
          refine Served.nothing (by rw [heof]; rfl) (fun h => ?_) fun v hv => .inr ?_
          · cases h
          · cases hv
            exact ⟨rfl, .endOfFile (length_eq_zero_iff.mp (by omega)) rfl⟩
      · next heof =>
        split
        · next hline =>
          constructor
          · rfl
          · intro b hb
            rw [mem_singleton.mp hb]
            exact heof
          · intro b hb
            cases hb
          · intro h
            cases h
          · rintro v ⟨⟩
            refine .inr ⟨?_, .newline ?_ rfl⟩
            · simp
            · simp [hline]
        · next hline =>
          have h := ih (got ++ [c]) q
          rw [length_append, length_singleton] at h
          exact h.cons heof hline

end Line

/-! ## Interrupts and readers -/

namespace Console

/-- A read in progress, and what it has copied out so far. -/
structure Call where
  dst : Dst
  n : Int
  got : List UInt8

/-- What happens at the console. -/
inductive Event
  | committed (b : UInt8)
  | took (p : Nat) (b : UInt8)
  | eof (p : Nat)
  | returned (p : Nat) (n : Int) (got : List UInt8) (v : Int)

variable {e h : List Event}

/-- The console, the readers that sleep in it, and `p->killed`. -/
structure Sys where
  cons : Cons
  call : Nat → Option Call
  killed : Nat → Bool

/-- What the reader has copied out when it returns or goes to sleep. -/
def Sys.pass (s : Sys) (p : Nat) (c : Call) : Option Int × Cons × List UInt8 × Bool :=
  s.cons.readPass c.dst (s.killed p) (c.n.toNat - c.got.length) c.got.length

/-- One pass of process `p` through `consoleread`. -/
def Sys.go (s : Sys) (p : Nat) (c : Call) : List Event × Sys :=
  let r := s.pass p c
  let got := c.got ++ r.2.2.1
  (r.2.2.1.map (Event.took p) ++ (if r.2.2.2 then [.eof p] else []) ++
      (match r.1 with
      | none => []
      | some v => [.returned p c.n got v]),
    { s with
      cons := r.2.1
      call := update s.call p (match r.1 with
        | none => some { c with got := got }
        | some _ => none) })

/-- `consoleintr(c)`; the bytes that become readable. -/
def Sys.intr (s : Sys) (c : UInt8) : List Event × Sys :=
  let x := s.cons.consoleintr c
  ((contents INPUT_BUF 4294967296 x.buf s.cons.w x.w).map Event.committed, { s with cons := x })

/-- A key, a call of `consoleread`, a reader that is woken, a kill. -/
inductive Step : Sys → List Event → Sys → Prop
  | typed {s : Sys} (c : UInt8) : Step s (s.intr c).1 (s.intr c).2
  | read {s : Sys} {p : Nat} {dst : Dst} {n : Int} (hidle : s.call p = none)
      (hmap : dst.Writable n.toNat) : Step s (s.go p ⟨dst, n, []⟩).1 (s.go p ⟨dst, n, []⟩).2
  | wake {s : Sys} {p : Nat} {c : Call} (hcall : s.call p = some c) : Step s (s.go p c).1 (s.go p c).2
  | kill {s : Sys} (p : Nat) : Step s [] { s with killed := update s.killed p true }

/-- The events of a run, in order. -/
inductive Run (s0 : Sys) : List Event → Sys → Prop
  | nil : Run s0 [] s0
  | step {h e : List Event} {s s' : Sys} (hr : Run s0 h s) (hs : Step s e s') : Run s0 (h ++ e) s'

/-- The console at boot: nothing in it, nobody reads. -/
structure Sys.Fresh (s : Sys) : Prop where
  r : s.cons.r = 0
  w : s.cons.w = 0
  e : s.cons.e = 0
  idle : ∀ p, s.call p = none

/-- All bytes that became readable, in order. -/
def committed (h : List Event) : List UInt8 := h.filterMap fun
  | .committed b => some b
  | _ => none

/-- All bytes that readers took, in order; an end of file is one of them. -/
def consumed (h : List Event) : List UInt8 := h.filterMap fun
  | .took _ b => some b
  | .eof _ => some endOfFile
  | _ => none

/-- The bytes process `p` copied out, in order. -/
def tookBy (p : Nat) (h : List Event) : List UInt8 := h.filterMap fun
  | .took q b => if q = p then some b else none
  | _ => none

/-- What the reads of process `p` had copied out when they returned, in order. -/
def gots (p : Nat) (h : List Event) : List (List UInt8) := h.filterMap fun
  | .returned q _ got _ => if q = p then some got else none
  | _ => none

/-- What the read in progress has copied out. -/
def pending (s : Sys) (p : Nat) : List UInt8 := (s.call p).elim [] Call.got

section Lists

theorem committed_append : committed (h ++ e) = committed h ++ committed e := filterMap_append

theorem consumed_append : consumed (h ++ e) = consumed h ++ consumed e := filterMap_append

theorem tookBy_append : tookBy p (h ++ e) = tookBy p h ++ tookBy p e := filterMap_append

theorem gots_append : gots p (h ++ e) = gots p h ++ gots p e := filterMap_append

/-- What a pass leaves in the history. -/
theorem go_lists (s : Sys) (p : Nat) (c : Call) : committed (s.go p c).1 = [] ∧
    consumed (s.go p c).1 = (s.pass p c).2.2.1 ++ (if (s.pass p c).2.2.2 then [endOfFile] else []) ∧
    (∀ q, tookBy q (s.go p c).1 = if p = q then (s.pass p c).2.2.1 else []) ∧
    ∀ q, gots q (s.go p c).1 = if p = q ∧ (s.pass p c).1 ≠ none then [c.got ++ (s.pass p c).2.2.1]
      else [] := by
  unfold Sys.go
  generalize s.pass p c = r
  obtain ⟨res, x, taken, eof⟩ := r
  have hend : ∀ q, tookBy q (match res with
      | none => []
      | some v => [Event.returned p c.n (c.got ++ taken) v]) = [] := fun q => by cases res <;> rfl
  refine ⟨?_, ?_, fun q => ?_, fun q => ?_⟩
  · cases res <;> cases eof <;> simp [committed]
  · cases res <;> cases eof <;> simp [consumed]
  · dsimp only
    rw [tookBy_append, tookBy_append, hend, append_nil]
    by_cases hq : p = q
    · cases eof <;> simp [tookBy, hq]
    · cases eof <;> simp [tookBy, hq]
  · by_cases hq : p = q
    · cases res <;> cases eof <;> simp [gots, hq]
    · cases res <;> cases eof <;> simp [gots, hq]

end Lists

/-! ## Whole runs -/

/-- What was committed is what the readers consumed and what waits in the buffer. -/
structure Inv (s : Sys) (h : List Event) : Prop where
  line : ∃ l, s.cons.Denotes l ∧ committed h = consumed h ++ l.committed
  calls : ∀ p c, s.call p = some c → c.dst.Writable c.n.toNat ∧ c.got.length < c.n.toNat ∧
    ∀ b ∈ c.got, b ≠ newline ∧ b ≠ endOfFile
  took : ∀ p, tookBy p h = (gots p h).flatten ++ pending s p

/-- A reader may run: it sleeps in `consoleread`, or calls it now. -/
structure Ready (s : Sys) (p : Nat) (c : Call) : Prop where
  map : c.dst.Writable c.n.toNat
  len : c.got.length ≤ c.n.toNat
  plain : ∀ b ∈ c.got, b ≠ newline ∧ b ≠ endOfFile
  pending : pending s p = c.got

section Steps

variable {s s' : Sys} {c : Call}

/-- The pass of a reader is the abstract machine's. -/
theorem Ready.served (hc : Ready s p c) (hl : s.cons.Denotes l) :
    ∃ l', (s.go p c).2.cons.Denotes l' ∧ l'.edit = l.edit ∧
      Line.Served (s.killed p) (c.n.toNat - c.got.length) c.got l.committed (s.pass p c).1
        l'.committed (s.pass p c).2.2.1 (s.pass p c).2.2.2 := by
  have hlen := hc.len
  obtain ⟨h1, h2, h3⟩ := Cons.readPass_refines (s.killed p) hc.map
    (show c.got.length + (c.n.toNat - c.got.length) = c.n.toNat by omega)
    (show s.cons.Denotes ⟨l.committed, l.edit⟩ from hl)
  have hserved := Line.read_served (s.killed p) (c.n.toNat - c.got.length) c.got l.committed
  rw [← h1, ← h3] at hserved
  exact ⟨_, h2, rfl, hserved⟩

theorem Inv.ready (hI : Inv s h) (hc : s.call p = some c) : Ready s p c := by
  obtain ⟨hmap, hlen, hplain⟩ := hI.calls p c hc
  refine ⟨hmap, le_of_lt hlen, hplain, ?_⟩
  rw [Console.pending, hc]
  rfl

/-- **One pass** of a reader. -/
theorem Inv.go (hI : Inv s h) (hc : Ready s p c) : Inv (s.go p c).2 (h ++ (s.go p c).1) := by
  obtain ⟨l, hl, hst⟩ := hI.line
  obtain ⟨l', hl', -, hserved⟩ := hc.served hl
  obtain ⟨hcom, hcons, htook, hgots⟩ := go_lists s p c
  have hlen := hc.len
  refine ⟨⟨l', hl', ?_⟩, fun q d hd => ?_, fun q => ?_⟩
  · rw [committed_append, hcom, consumed_append, hcons, append_nil, hst, append_assoc, ← hserved.split]
  · by_cases hq : q = p
    · subst hq
      have hd : update s.call q _ q = some d := hd
      rw [update_self] at hd
      cases hres : (s.pass q c).1 with
      | some v =>
        rw [hres] at hd
        cases hd
      | none =>
        rw [hres] at hd
        obtain rfl := Option.some.inj hd
        obtain ⟨-, hlt, hline⟩ := hserved.waits hres
        refine ⟨hc.map, ?_, fun b hb => ?_⟩
        · show (c.got ++ _).length < c.n.toNat
          omega
        · rcases mem_append.mp hb with hb | hb
          · exact hc.plain b hb
          · exact ⟨hline b hb, hserved.plain b hb⟩
    · have hd : update s.call p _ q = some d := hd
      rw [update_of_ne hq] at hd
      exact hI.calls q d hd
  · rw [tookBy_append, gots_append, htook, hgots, hI.took q]
    by_cases hq : p = q
    · subst hq
      have hpend : pending (s.go p c).2 p = if (s.pass p c).1 = none then c.got ++ (s.pass p c).2.2.1
          else [] := by
        show (update s.call p _ p).elim [] Call.got = _
        rw [update_self]
        cases (s.pass p c).1 <;> rfl
      rw [hc.pending, if_pos rfl, hpend]
      by_cases hres : (s.pass p c).1 = none
      · rw [if_neg fun hh => hh.2 hres, if_pos hres, append_nil, append_assoc]
      · rw [if_pos ⟨rfl, hres⟩, if_neg hres, flatten_append]
        simp
    · have hpend : pending (s.go p c).2 q = pending s q := by
        show (update s.call p _ q).elim [] Call.got = _
        rw [update_of_ne fun he => hq he.symm]
        rfl
      rw [if_neg hq, if_neg fun hh => hq hh.1, hpend, append_nil, append_nil]

/-- **One character.** -/
theorem Inv.intr (hI : Inv s h) (c : UInt8) : Inv (s.intr c).2 (h ++ (s.intr c).1) := by
  obtain ⟨l, hl, hst⟩ := hI.line
  have hl' := Cons.consoleintr_refines hl c
  obtain ⟨bs, hbs⟩ := Line.input_committed c l
  have hnew : contents INPUT_BUF 4294967296 (s.cons.consoleintr c).buf s.cons.w
      (s.cons.consoleintr c).w = bs := by
    have hq := hl'.committed_queue
    rw [hbs, Cons.consoleintr_r] at hq
    rw [hl.w]
    exact (hq.drop Cons.buf_dvd).contents_eq Cons.buf_lt
  have hlists : committed (s.intr c).1 = bs ∧ consumed (s.intr c).1 = [] ∧
      (∀ p, tookBy p (s.intr c).1 = []) ∧ ∀ p, gots p (s.intr c).1 = [] := by
    unfold Sys.intr
    dsimp only
    rw [hnew]
    refine ⟨?_, ?_, fun p => ?_, fun p => ?_⟩
    · simp [committed]
    · simp [consumed]
    · simp [tookBy]
    · simp [gots]
  obtain ⟨h1, h2, h3, h4⟩ := hlists
  refine ⟨⟨_, hl', ?_⟩, hI.calls, fun p => ?_⟩
  · rw [committed_append, consumed_append, h1, h2, hbs, append_nil, hst, append_assoc]
  · rw [tookBy_append, gots_append, h3, h4, append_nil, append_nil]
    exact hI.took p

theorem Inv.step (hI : Inv s h) (hs : Step s e s') : Inv s' (h ++ e) := by
  cases hs with
  | typed c => exact hI.intr c
  | read hidle hmap =>
    refine hI.go ⟨hmap, Nat.zero_le _, fun b hb => (by cases hb), ?_⟩
    rw [pending, hidle]
    rfl
  | wake hcall => exact hI.go (hI.ready hcall)
  | kill p =>
    rw [append_nil]
    exact ⟨hI.line, hI.calls, hI.took⟩

theorem Sys.Fresh.inv (hs : s.Fresh) : Inv s [] := by
  refine ⟨⟨⟨[], []⟩, ⟨?_, ?_, fun b hb => (by cases hb)⟩, rfl⟩, fun p c hc => ?_, fun p => ?_⟩
  · rw [hs.r, hs.e]
    exact Queue.nil _ (by decide)
  · rw [hs.w, hs.r]
    rfl
  · rw [hs.idle p] at hc
    cases hc
  · rw [pending, hs.idle p]
    rfl

theorem Run.inv {s0 : Sys} (h0 : s0.Fresh) (hr : Run s0 h s) : Inv s h := by
  induction hr with
  | nil => exact h0.inv
  | step _ hs ih => exact ih.step hs

/-- What a read for `n` bytes that returned `v` was given: `got` is plain up to a newline at its end,
    `v` counts it, and the read ended for one of the four reasons; `q` is what is left. -/
structure Completed (n : Int) (got q : List UInt8) (eof : Bool) (v : Int) : Prop where
  count : v = got.length
  plain : ∀ b ∈ got, b ≠ endOfFile
  inner : ∀ b ∈ got.dropLast, b ≠ newline
  ends : Line.Ends n.toNat got q eof

theorem eof_mem {q : Nat} : Event.eof q ∈ (s.go p c).1 ↔ q = p ∧ (s.pass p c).2.2.2 = true := by
  unfold Sys.go
  generalize s.pass p c = r
  obtain ⟨res, x, taken, eof⟩ := r
  cases res <;> cases eof <;> simp

theorem returned_mem {q : Nat} {n : Int} : Event.returned q n got v ∈ (s.go p c).1 ↔
      q = p ∧ n = c.n ∧ got = c.got ++ (s.pass p c).2.2.1 ∧ (s.pass p c).1 = some v := by
  unfold Sys.go
  generalize s.pass p c = r
  obtain ⟨res, x, taken, eof⟩ := r
  cases res <;> cases eof <;> simp [eq_comm]

/-- The read that returns in a pass. -/
theorem Ready.returned (hc : Ready s p c) (hl : s.cons.Denotes l) {q : Nat} {n : Int}
    (hmem : Event.returned q n got v ∈ (s.go p c).1) :
    (v = -1 ∧ s.killed q = true) ∨ ∃ eof, (eof = true ↔ Event.eof q ∈ (s.go p c).1) ∧
      Completed n got (s.go p c).2.cons.line.committed eof v := by
  obtain ⟨l', hl', -, hserved⟩ := hc.served hl
  have hlen := hc.len
  obtain ⟨rfl, rfl, rfl, hres⟩ := returned_mem.mp hmem
  rcases hserved.returns v hres with ⟨hv, hk, -⟩ | ⟨hv, hends⟩
  · exact .inl ⟨hv, hk⟩
  · refine .inr ⟨(s.pass q c).2.2.2, ?_, hv, fun b hb => ?_, fun b hb => ?_, ?_⟩
    · rw [eof_mem]
      exact ⟨fun he => ⟨rfl, he⟩, fun he => he.2⟩
    · rcases mem_append.mp hb with hb | hb
      · exact (hc.plain b hb).2
      · exact hserved.plain b hb
    · by_cases hnil : (s.pass q c).2.2.1 = []
      · rw [hnil, append_nil] at hb
        exact (hc.plain b (mem_of_mem_dropLast hb)).1
      · rw [dropLast_append_of_ne_nil hnil] at hb
        rcases mem_append.mp hb with hb | hb
        · exact (hc.plain b hb).1
        · exact hserved.inner b hb
    · rw [hl'.line_eq, show c.n.toNat = c.got.length + (c.n.toNat - c.got.length) by omega]
      exact hends

/-- An end of file that is taken is a read of no bytes. -/
theorem Ready.eof_returns (hc : Ready s p c) (hl : s.cons.Denotes l) {q : Nat}
    (hmem : Event.eof q ∈ (s.go p c).1) : ∃ n, Event.returned q n [] 0 ∈ (s.go p c).1 := by
  obtain ⟨l', -, -, hserved⟩ := hc.served hl
  obtain ⟨rfl, heof⟩ := eof_mem.mp hmem
  cases hres : (s.pass q c).1 with
  | none =>
    have := (hserved.waits hres).1
    rw [heof] at this
    cases this
  | some v =>
    rcases hserved.returns v hres with ⟨-, -, hno⟩ | ⟨hv, hends⟩
    · rw [heof] at hno
      cases hno
    · -- the other three ways to end take no end of file
      have hnil : c.got ++ (s.pass q c).2.2.1 = [] := by
        cases hends with
        | newline h hno | full h hno | before h hq hno =>
          rw [heof] at hno
          cases hno
        | endOfFile h => exact h
      rw [hnil] at hv
      exact ⟨c.n, returned_mem.mpr ⟨rfl, rfl, hnil.symm, by rw [hres, hv]; rfl⟩⟩

/-- What a step of the system can return. -/
theorem Inv.reads (hI : Inv s h) (hs : Step s e s') :
    (∀ n got v, Event.returned p n got v ∈ e → (v = -1 ∧ s.killed p = true) ∨
      ∃ eof, (eof = true ↔ Event.eof p ∈ e) ∧ Completed n got s'.cons.line.committed eof v) ∧
    (Event.eof p ∈ e → ∃ n, Event.returned p n [] 0 ∈ e) := by
  obtain ⟨l, hl, -⟩ := hI.line
  cases hs with
  | typed c =>
    constructor
    · intro n got v hm
      obtain ⟨b, -, hb⟩ := mem_map.mp hm
      cases hb
    · intro hm
      obtain ⟨b, -, hb⟩ := mem_map.mp hm
      cases hb
  | @read q dst n hidle hmap =>
    have hc : Ready s q ⟨dst, n, []⟩ := by
      refine ⟨hmap, Nat.zero_le _, fun b hb => (by cases hb), ?_⟩
      rw [pending, hidle]
      rfl
    exact ⟨fun _ _ _ hm => hc.returned hl hm, hc.eof_returns hl⟩
  | wake hcall =>
    have hc := hI.ready hcall
    exact ⟨fun _ _ _ hm => hc.returned hl hm, hc.eof_returns hl⟩
  | kill q =>
    constructor
    · intro n got v hm
      cases hm
    · intro hm
      cases hm

end Steps

/-- **The console's line discipline.**  In every state of every run the ring denotes a committed queue
    and an edit line without a newline or ^D, together at most `INPUT_BUF` bytes; a character does to
    them what `Line.input` says; what has been committed is what readers took followed by the queue; each
    process's bytes are those of its reads, in order.  A read that returns was given plain bytes up to a
    newline, `n` bytes, or an end of file: it stops before a ^D, or takes it and returns 0, and nothing
    else takes a ^D. -/
theorem console_discipline {s0 s : Sys} {h : List Event} (h0 : s0.Fresh) (hr : Run s0 h s) :
    s.cons.Denotes s.cons.line ∧
    s.cons.line.committed.length + s.cons.line.edit.length ≤ INPUT_BUF ∧
    (∀ c, (s.cons.consoleintr c).line = s.cons.line.input c) ∧
    committed h = consumed h ++ s.cons.line.committed ∧
    (∀ p, tookBy p h = (gots p h).flatten ++ pending s p) ∧
    ∀ e s' p, Step s e s' → (∀ n got v, Event.returned p n got v ∈ e → (v = -1 ∧ s.killed p = true) ∨
        ∃ eof, (eof = true ↔ Event.eof p ∈ e) ∧ Completed n got s'.cons.line.committed eof v) ∧
      (Event.eof p ∈ e → ∃ n, Event.returned p n [] 0 ∈ e) := by
  have hI := hr.inv h0
  obtain ⟨l, hl, hst⟩ := hI.line
  rw [hl.line_eq]
  refine ⟨hl, ?_, fun c => ?_, hst, hI.took, fun e s' p hs => hI.reads hs⟩
  · have := hl.queue.le
    rwa [length_append] at this
  · exact (Cons.consoleintr_refines hl c).line_eq

/-- A console nobody has typed at. -/
def newConsole : Sys := ⟨⟨fun _ => 0, 0, 0, 0⟩, fun _ => none, fun _ => false⟩

/-- `a`, a backspace, `b` and ^D are typed, then two reads. -/
def typedLine : Sys := ((((newConsole.intr 97).2.intr 8).2.intr 98).2.intr 4).2

def readTwice : Sys := ((typedLine.go 0 ⟨.kernel, 10, []⟩).2.go 0 ⟨.kernel, 10, []⟩).2

/-- The first read gets `b`, the second is the end of file. -/
theorem console_discipline_read_twice : ∃ h, Run newConsole h readTwice ∧ gots 0 h = [[98], []] ∧
    committed h = [98, 4] ∧ consumed h = [98, 4] ∧ readTwice.cons.line.committed = [] := by
  have h1 : Run newConsole _ typedLine :=
    (((Run.nil.step (.typed 97)).step (.typed 8)).step (.typed 98)).step (.typed 4)
  have hr1 : Step typedLine _ (typedLine.go 0 ⟨.kernel, 10, []⟩).2 := .read rfl trivial
  have hr2 : Step (typedLine.go 0 ⟨.kernel, 10, []⟩).2 _ readTwice := .read rfl trivial
  have h2 := (h1.step hr1).step hr2
  obtain ⟨-, -, -, hst, -⟩ := console_discipline ⟨rfl, rfl, rfl, fun _ => rfl⟩ h2
  have hline : readTwice.cons.line.committed = [] := by decide
  rw [hline, append_nil] at hst
  exact ⟨_, h2, by decide, by decide, hst ▸ by decide, hline⟩

end Console

end Xv6
