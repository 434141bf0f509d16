/-
  `grep` (`user/grep.c`): LINES THROUGH A BUFFER.

  `grep` reads into a buffer of 1024 bytes, after what is left there of a line that has not ended yet.  It looks
  for newlines, puts a NUL in the place of each one while it matches the line before it, and at last moves the
  beginning of the next line to the front.

  How the input comes in pieces is an argument (`split`): it says for each call of `read` how many bytes the
  call would deliver.

  The loop keeps one invariant (`Holding`): the input so far is lines that are done with and the beginning of
  one that stands in the buffer.  It ends when nothing is left to read, OR when nothing more fits into the
  buffer, since a `read` of 0 bytes returns 0.  So `grep` works on the lines up to the first one that is too long,
  whatever the pieces (`grep_prints`).
-/
import Mathlib.Data.List.GetD
import Xv6.Lib.Cstr
import Xv6.User.Match

namespace Xv6.Grep

open Function Bytes List

variable {ls : List (List UInt8)} {a l pattern t : List UInt8} {n : Nat} {c : UInt8}

/-! ## The code -/

/-- `sizeof(buf)`. -/
def BUFSIZE : Nat := 1024

/-- `strchr(s, c)` in `buf`; the array has no more than `n` bytes from `s` on. -/
def strchr (buf : Bytes) (c : UInt8) : Nat → Nat → Option Nat
  | 0, _ => none
  | n + 1, s => if buf s = 0 then none else if buf s = c then some s else strchr buf c n (s + 1)

/-- The inner loop, at most `n` rounds, from `p` on: the buffer, `p` and the output. -/
def scan (pattern : List UInt8) : Nat → Bytes → Nat → List UInt8 → Bytes × Nat × List UInt8
  | 0, buf, p, out => (buf, p, out)
  | n + 1, buf, p, out =>
    match strchr buf 10 BUFSIZE p with
    | none => (buf, p, out)
    | some q =>
      let buf := update buf q 0
      if matchText pattern (chars buf p BUFSIZE) then
        let buf := update buf q 10
        -- write(1, p, q + 1 - p)
        scan pattern n buf (q + 1) (out ++ toList buf p (q + 1 - p))
      else scan pattern n buf (q + 1) out

/-- The variables of `grep`. -/
structure State where
  buf : Bytes
  m : Nat
  /-- what has not been read yet -/
  input : List UInt8
  /-- how often `read` has been called -/
  calls : Nat
  out : List UInt8

/-- What `read` returns: no more than the `n` bytes asked for, than is left, and than it has at this call. -/
def readCount (split : Nat → Nat) (n : Nat) (s : State) : Nat := min (min n s.input.length) (split s.calls + 1)

/-- A round of `grep`'s loop, after `read` has returned `n`. -/
def round (pattern : List UInt8) (n : Nat) (s : State) : State :=
  let m := s.m + n
  let buf := update (blit s.buf s.m n (ofList s.input)) m 0
  let r := scan pattern BUFSIZE buf 0 s.out
  -- `n` is not 0, and so `m` is not: memmove(buf, p, m)
  let m := m - r.2.1
  ⟨blit r.1 0 m fun i => r.1 (r.2.1 + i), m, s.input.drop n, s.calls + 1, r.2.2⟩

/-- The loop, at most `k` rounds: the output. -/
def grepFrom (pattern : List UInt8) (split : Nat → Nat) : Nat → State → Option (List UInt8)
  | 0, _ => none
  | k + 1, s =>
    let n := readCount split (BUFSIZE - s.m - 1) s
    if n = 0 then some s.out else grepFrom pattern split k (round pattern n s)

/-- `grep(pattern, fd)`, with `input` to be read from `fd` and whatever there is in `buf`. -/
def grep (pattern : List UInt8) (split : Nat → Nat) (buf : Bytes) (input : List UInt8) : Option (List UInt8) :=
  grepFrom pattern split (input.length + 1) ⟨buf, 0, input, 0, []⟩

/-! ## Lines -/

/-- The lines that end in a newline, without it. -/
def lines (input : List UInt8) : List (List UInt8) := (input.splitOn 10).dropLast

/-- The lines that match, each with its newline. -/
def printed (pattern : List UInt8) (ls : List (List UInt8)) : List UInt8 :=
  (ls.filter (matchText pattern)).flatMap (· ++ [10])

theorem lines_nil (h : 10 ∉ a) : lines a = [] := by
  unfold lines
  rw [splitOn_eq_singleton h]
  rfl

theorem lines_cons (h : 10 ∉ a) (b : List UInt8) : lines (a ++ 10 :: b) = a :: lines b := by
  unfold lines
  rw [splitOn_append_cons_self, splitOn_eq_singleton h, singleton_append,
    dropLast_cons_of_ne_nil (splitOn_ne_nil 10 b)]

theorem printed_append (pattern : List UInt8) (ls ls' : List (List UInt8)) :
    printed pattern (ls ++ ls') = printed pattern ls ++ printed pattern ls' := by
  unfold printed
  rw [filter_append, flatMap_append]

/-- What stands after the last newline. -/
def tail (input : List UInt8) : List UInt8 := (input.splitOn 10).getLastD []

theorem tail_nil (h : 10 ∉ a) : tail a = a := by
  unfold tail
  rw [splitOn_eq_singleton h]
  rfl

theorem tail_cons (a b : List UInt8) : tail (a ++ 10 :: b) = tail b := by
  unfold tail
  rw [splitOn_append_cons_self]
  obtain ⟨x, xs, hb⟩ := exists_cons_of_ne_nil (splitOn_ne_nil 10 b)
  rw [hb]
  simp [getLast?_cons]

/-- Line by line. -/
theorem line_induction {P : List UInt8 → Prop} (hnil : ∀ a, 10 ∉ a → P a)
    (hcons : ∀ a b, 10 ∉ a → P b → P (a ++ 10 :: b)) (text : List UInt8) : P text := by
  induction hn : text.length using Nat.strong_induction_on generalizing text with
  | _ n ih =>
    by_cases h : 10 ∈ text
    · obtain ⟨a, b, rfl, ha⟩ := eq_append_cons_of_mem h
      refine hcons a b ha (ih b.length ?_ b rfl)
      rw [length_append, length_cons] at hn
      omega
    · exact hnil text h

/-- More input goes on from the tail. -/
theorem lines_append (text rest : List UInt8) : lines (text ++ rest) = lines text ++ lines (tail text ++ rest) := by
  induction text using line_induction with
  | hnil a ha => rw [lines_nil ha, tail_nil ha, nil_append]
  | hcons a b ha ih =>
    rw [append_assoc, cons_append, lines_cons ha, lines_cons ha, tail_cons, ih, cons_append]

theorem newline_not_mem_tail (text : List UInt8) : 10 ∉ tail text := by
  induction text using line_induction with
  | hnil a ha => rwa [tail_nil ha]
  | hcons a b ha ih => rwa [tail_cons]

theorem length_tail_le (text : List UInt8) : (tail text).length ≤ text.length := by
  induction text using line_induction with
  | hnil a ha => rw [tail_nil ha]
  | hcons a b ha ih =>
    rw [tail_cons, length_append, length_cons]
    omega

/-- A line is shorter than the text by its newline. -/
theorem length_line_lt {text : List UInt8} (h : l ∈ lines text) : l.length < text.length := by
  induction text using line_induction with
  | hnil a ha =>
    rw [lines_nil ha] at h
    cases h
  | hcons a b ha ih =>
    grind [lines_cons]

/-- The first line of a text goes on from its beginning. -/
theorem length_first_line {rest : List UInt8} (ht : 10 ∉ t)
    (h : lines (t ++ rest) = l :: ls) : t.length ≤ l.length := by
  by_cases hmem : 10 ∈ rest
  · obtain ⟨a, b, rfl, ha⟩ := eq_append_cons_of_mem hmem
    rw [← append_assoc, lines_cons (by simp [ht, ha])] at h
    obtain ⟨rfl, -⟩ := cons.inj h
    rw [length_append]
    omega
  · rw [lines_nil (by simp [ht, hmem])] at h
    cases h

/-! ## The inner loop -/

/-- The string `text` stands at `p`. -/
structure Stands (buf : Bytes) (p : Nat) (text : List UInt8) : Prop where
  bytes : ∀ i, (h : i < text.length) → buf (p + i) = text[i]
  nul : buf (p + text.length) = 0
  clean : 0 ∉ text

section Scan

variable {buf : Bytes} {p : Nat} {text b : List UInt8}

theorem Stands.cons (h : Stands buf p (c :: text)) : buf p = c ∧ Stands buf (p + 1) text := by
  refine ⟨h.bytes 0 (Nat.succ_pos _), ?_, ?_, fun h0 => h.clean (mem_cons_of_mem _ h0)⟩
  · intro i hi
    rw [add_assoc, add_comm 1 i]
    exact h.bytes (i + 1) (Nat.succ_lt_succ hi)
  · have hnul := h.nul
    rw [length_cons] at hnul
    rwa [add_assoc, add_comm 1]

theorem Stands.drop (h : Stands buf p (a ++ text)) : Stands buf (p + a.length) text := by
  induction a generalizing p with
  | nil => exact h
  | cons c a ih =>
    have := ih h.cons.2
    rwa [add_assoc, add_comm 1] at this

theorem Stands.toList (h : Stands buf p (a ++ text)) : Bytes.toList buf p a.length = a := by
  induction a generalizing p with
  | nil => rfl
  | cons c a ih => rw [length_cons, toList_succ, ih h.cons.2, h.cons.1]

theorem strchr_found (h : Stands buf p (a ++ 10 :: b)) (ha : 10 ∉ a) (hn : a.length < n) :
    strchr buf 10 n p = some (p + a.length) := by
  induction a generalizing p n with
  | nil =>
    obtain ⟨n, rfl⟩ : ∃ k, n = k + 1 := ⟨n - 1, by omega⟩
    rw [strchr, h.cons.1, if_neg (by decide), if_pos rfl]
    rfl
  | cons c a ih =>
    obtain ⟨n, rfl⟩ : ∃ k, n = k + 1 := ⟨n - 1, by omega⟩
    rw [mem_cons, not_or] at ha
    have h0 : c ≠ 0 := fun h0 => h.clean (by simp [h0])
    rw [strchr, h.cons.1, if_neg h0, if_neg (Ne.symm ha.1), ih h.cons.2 ha.2 (Nat.succ_lt_succ_iff.mp hn),
      length_cons, add_assoc, add_comm 1]

theorem strchr_none (h : Stands buf p text) (ht : 10 ∉ text) (n : Nat) : strchr buf 10 n p = none := by
  induction n generalizing p text with
  | zero => rfl
  | succ n ih =>
    cases text with
    | nil => exact if_pos h.nul
    | cons c text =>
      rw [mem_cons, not_or] at ht
      have h0 : c ≠ 0 := fun h0 => h.clean (by simp [h0])
      rw [strchr, h.cons.1, if_neg h0, if_neg (Ne.symm ht.1)]
      exact ih h.cons.2 ht.2

/-- **The inner loop** prints the lines that match, and stops at the tail. -/
theorem scan_spec (pattern : List UInt8) (n : Nat) (out : List UInt8) (h : Stands buf p text) (hn : text.length < n)
    (hsize : text.length < BUFSIZE) :
    (scan pattern n buf p out).2.2 = out ++ printed pattern (lines text) ∧
    (scan pattern n buf p out).2.1 + (tail text).length = p + text.length ∧
    Stands (scan pattern n buf p out).1 (scan pattern n buf p out).2.1 (tail text) := by
  induction text using line_induction generalizing buf p n out with
  | hnil a ha =>
    obtain ⟨n, rfl⟩ : ∃ k, n = k + 1 := ⟨n - 1, by omega⟩
    rw [scan, strchr_none h ha, lines_nil ha, tail_nil ha]
    exact ⟨(append_nil out).symm, rfl, h⟩
  | hcons a b ha ih =>
    obtain ⟨n, rfl⟩ : ∃ k, n = k + 1 := ⟨n - 1, by omega⟩
    rw [length_append, length_cons] at hn hsize ⊢
    have hnext : Stands buf (p + a.length + 1) b := by
      have := h.drop.cons.2
      exact this
    -- while the newline is a NUL, the string at `p` is the line
    have hline : chars (update buf (p + a.length) 0) p BUFSIZE = a := by grind [Stands, chars_eq]
    rw [scan, strchr_found h ha (by omega), lines_cons ha, tail_cons]
    dsimp only
    rw [hline]
    by_cases hm : matchText pattern a = true
    · rw [if_pos hm]
      have hbuf : update (update buf (p + a.length) 0) (p + a.length) 10 = buf := by
        rw [update_idem]
        exact update_eq_self_iff.mpr h.drop.cons.1.symm
      have hout : toList buf p (p + a.length + 1 - p) = a ++ [10] := by
        have h' : Stands buf p ((a ++ [10]) ++ b) := by rwa [append_assoc]
        have := h'.toList
        rw [length_append] at this
        rwa [show p + a.length + 1 - p = a.length + [10].length by simp; omega]
      rw [hbuf, hout]
      obtain ⟨h1, h2, h3⟩ := ih n (out ++ (a ++ [10])) hnext (by omega) (by omega)
      refine ⟨?_, by omega, h3⟩
      rw [h1, printed, printed, filter_cons_of_pos hm, flatMap_cons, append_assoc]
    · grind [Stands, printed]

end Scan

/-! ## The outer loop -/

/-- The input so far is lines `ls` that are done with, and `t` in the buffer. -/
structure Holding (pattern input : List UInt8) (s : State) (ls : List (List UInt8)) (t : List UInt8) : Prop where
  lines : lines input = ls ++ Grep.lines (t ++ s.input)
  short : ∀ l ∈ ls, l.length < BUFSIZE - 1
  out : s.out = printed pattern ls
  m : s.m = t.length
  room : t.length < BUFSIZE
  buf : ∀ i, (h : i < t.length) → s.buf i = t[i]
  line : 10 ∉ t
  clean : 0 ∉ t ++ s.input

section Loop

variable {input : List UInt8} {split : Nat → Nat} {s : State}

section

variable (h : Holding pattern input s ls t)
include h

/-- At the end, the lines that are done with are those before the first one that is too long. -/
theorem Holding.stop (hn : readCount split (BUFSIZE - s.m - 1) s = 0) :
    (Grep.lines input).takeWhile (fun l => l.length < BUFSIZE - 1) = ls := by
  have hls : ∀ l ∈ ls, (decide (l.length < BUFSIZE - 1)) = true := fun l hl => decide_eq_true (h.short l hl)
  rw [h.lines, takeWhile_append_of_pos hls]
  refine (append_right_eq_self).mpr ?_
  have hm := h.m
  unfold readCount BUFSIZE at hn
  cases hrest : Grep.lines (t ++ s.input) with
  | nil => rfl
  | cons l ls' =>
    have hlen := length_first_line h.line hrest
    rcases Nat.eq_zero_or_pos s.input.length with h0 | hpos
    · -- nothing is left
      rw [length_eq_zero_iff.mp h0, append_nil, lines_nil h.line] at hrest
      cases hrest
    · -- nothing more fits
      refine takeWhile_cons_of_neg ?_
      rw [decide_eq_true_iff]
      unfold BUFSIZE
      omega

theorem Holding.stands (hn : n ≤ s.input.length) :
    Stands (update (blit s.buf s.m n (ofList s.input)) (s.m + n) 0) 0 (t ++ s.input.take n) := by
  have hm := h.m
  have hlen : (t ++ s.input.take n).length = s.m + n := by
    rw [length_append, length_take, hm]
    omega
  refine ⟨?_, ?_, ?_⟩
  · grind [Holding, blit_out, blit_in, ofList]
  · rw [hlen, zero_add, update_self]
  · grind [Holding]

/-- **A round** does the lines that end in the new bytes. -/
theorem Holding.round (hn : n ≤ s.input.length)
    (hroom : s.m + n < BUFSIZE) : Holding pattern input (round pattern n s)
      (ls ++ Grep.lines (t ++ s.input.take n)) (tail (t ++ s.input.take n)) := by
  have hm := h.m
  have hlen : (t ++ s.input.take n).length = s.m + n := by
    rw [length_append, length_take, hm]
    omega
  obtain ⟨hout, hp, hstands⟩ := scan_spec pattern BUFSIZE s.out (h.stands hn) (by omega) (by omega)
  rw [hlen, zero_add] at hp
  have htail := length_tail_le (t ++ s.input.take n)
  refine ⟨?_, ?_, ?_, ?_, by omega, ?_, newline_not_mem_tail _, ?_⟩
  · rw [h.lines, append_assoc, Grep.round, ← lines_append, append_assoc, take_append_drop]
  · intro l hl
    rcases mem_append.mp hl with hl | hl
    · exact h.short l hl
    · have := length_line_lt hl
      omega
  · rw [printed_append, ← h.out]
    exact hout
  · show s.m + n - _ = _
    omega
  · intro i hi
    simp only [Grep.round]
    rw [blit_in (Nat.zero_le i) (by omega)]
    exact hstands.bytes i hi
  · intro h0
    refine h.clean ?_
    rcases mem_append.mp h0 with h0 | h0
    · grind [Stands]
    · exact mem_append_right _ (mem_of_mem_drop h0)

/-- Every call of `read` that returns something takes from the input, so the loop ends. -/
theorem Holding.grepFrom {k : Nat} (hk : s.input.length < k) : grepFrom pattern split k s =
      some (printed pattern ((Grep.lines input).takeWhile fun l => l.length < BUFSIZE - 1)) := by
  induction k generalizing s ls t with
  | zero => omega
  | succ k ih =>
    rw [Grep.grepFrom]
    by_cases hn : readCount split (BUFSIZE - s.m - 1) s = 0
    · rw [if_pos hn, h.stop hn, h.out]
    · rw [if_neg hn]
      have hle : readCount split (BUFSIZE - s.m - 1) s ≤ s.input.length := by
        unfold readCount
        omega
      have hroom : s.m + readCount split (BUFSIZE - s.m - 1) s < BUFSIZE := by
        unfold readCount at hn ⊢
        omega
      refine ih (h.round hle hroom) ?_
      show (s.input.drop _).length < k
      rw [length_drop]
      omega

end

end Loop

/-- **What `grep` prints**: the matching lines up to the first line that does not fit into the buffer. -/
theorem grep_prints (pattern : List UInt8) (split : Nat → Nat) (buf : Bytes) {input : List UInt8}
    (h0 : 0 ∉ input) : grep pattern split buf input =
      some (printed pattern ((lines input).takeWhile fun l => l.length < BUFSIZE - 1)) := by
  have h : Holding pattern input ⟨buf, 0, input, 0, []⟩ [] [] :=
    ⟨rfl, fun l hl => absurd hl not_mem_nil, rfl, rfl, by decide, fun i hi => absurd hi (Nat.not_lt_zero i),
      not_mem_nil, h0⟩
  exact h.grepFrom (Nat.lt_succ_self _)

theorem printed_eq_nil : printed pattern ls = [] ↔ ∀ l ∈ ls, matchText pattern l = false := by
  unfold printed
  rw [flatMap_eq_nil_iff]
  constructor
  · intro h l hl
    by_contra hm
    have := h l (mem_filter.mpr ⟨hl, Bool.eq_true_of_not_eq_false hm⟩)
    simp at this
  · intro h l hl
    obtain ⟨hl, hm⟩ := mem_filter.mp hl
    rw [h l hl] at hm
    cases hm

/-- **`grep` and the matching lines.**  For every pattern, every input without a NUL, every way to read it in
    pieces and whatever there is in the buffer: `grep` ends, and what it has printed is the matching lines of the
    input if and only if no line matches that is as long as the buffer, or comes after one that is. -/
theorem grep_prints_iff (pattern : List UInt8) (split : Nat → Nat) (buf : Bytes) (input : List UInt8)
    (h0 : 0 ∉ input) : ∃ out, grep pattern split buf input = some out ∧
      (out = printed pattern (lines input) ↔
        ∀ l ∈ (lines input).dropWhile (fun l => l.length < BUFSIZE - 1), matchText pattern l = false) := by
  refine ⟨_, grep_prints pattern split buf h0, ?_⟩
  rw [← printed_eq_nil]
  conv_lhs => rw [← takeWhile_append_dropWhile (p := fun l : List UInt8 => decide (l.length < BUFSIZE - 1))
    (l := lines input), printed_append]
  rw [takeWhile_append_dropWhile]
  exact self_eq_append_right

/-- `b*c$` in `ab`, `abc` and an unfinished `c`, one byte at a time. -/
theorem grep_prints_second :
    grep [98, 42, 99, 36] (fun _ => 0) (fun _ => 0) [97, 98, 10, 97, 98, 99, 10, 99] = some [97, 98, 99, 10] := by
  obtain ⟨out, hout, hiff⟩ := grep_prints_iff [98, 42, 99, 36] (fun _ => 0) (fun _ => 0)
    [97, 98, 10, 97, 98, 99, 10, 99] (by decide)
  rw [hout, hiff.mpr (by decide)]
  decide

/-- 1023 times `a`, and on the next line `b`. -/
def longLine : List UInt8 := List.replicate 1023 97 ++ 10 :: [98, 10]

/-- **A line that is too long.**  `grep b` prints nothing, though the second line is `b`: when the buffer is full
    `read` is asked for no bytes, returns 0, and that is taken for the end of the input. -/
theorem grep_stops_at_long_line : 0 ∉ longLine ∧ printed [98] (lines longLine) = [98, 10] ∧
    grep [98] (fun _ => 1022) (fun _ => 0) longLine = some [] := by
  have ha : 10 ∉ replicate 1023 (97 : UInt8) := fun h => by cases eq_of_mem_replicate h
  have hlines : lines longLine = [replicate 1023 97, [98]] := lines_cons ha [98, 10]
  have h0 : 0 ∉ longLine := by
    intro h
    rcases mem_append.mp h with h | h
    · cases eq_of_mem_replicate h
    · exact absurd h (by decide)
  refine ⟨h0, ?_, ?_⟩
  · have hno : matchText [98] (replicate 1023 97) = false := by decide +kernel
    rw [hlines, printed, filter_cons_of_neg (by rw [hno]; exact Bool.false_ne_true)]
    decide
  · rw [grep_prints _ _ _ h0, hlines, takeWhile_cons_of_neg (by rw [length_replicate]; decide)]
    rfl

end Xv6.Grep
