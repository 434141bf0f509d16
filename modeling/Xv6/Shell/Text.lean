/-
  THE PARSER ON TEXT.

  `Layout ts text` says how tokens are written: white space, a token, white space, and so on.  Between two
  words some white space has to stand, or they would be one; everywhere else there may be none.
  `Line t text` says that a text is a line of the grammar with tree `t`.

  `parsecmd` returns the tree of the line, with every string in memory exactly its word once
  `nulterminate` has cut it off; and it panics on every text that is NOT a line
  (`parsecmd_inverts_printing`).  That terminating one word spoils no other comes down to one
  observation: the character after a word is not a character of a word, so no word has it inside
  (`cstr_word`).
-/
import Mathlib.Data.List.TakeWhile
import Xv6.Shell.Lex

namespace Xv6.Sh

open Function Scan Bytes List Xv6.Sh.Tree

variable {m : Bytes} {ts : List (Tok Span)} {l rest : List UInt8} {e es q s : Nat} {a : Span}
  {t : Tok (List UInt8)} {c : UInt8}

/-! ## Writing tokens down -/

def Op.text : Op → List UInt8
  | gtgt => [62, 62]
  | o => [o.char]

def Tok.text : Tok (List UInt8) → List UInt8
  | op o => o.text
  | word w => w

/-- A word: not empty, without white space, symbols and NUL. -/
def IsName (w : List UInt8) : Prop := w ≠ [] ∧ ∀ c ∈ w, isWord c = true ∧ c ≠ 0

instance (w : List UInt8) : Decidable (IsName w) :=
  @instDecidableAnd _ _ inferInstance (List.decidableBAll (fun c => isWord c = true ∧ c ≠ 0) w)

/-- The token can be written before the text `rest` without running into it. -/
def Tok.Before (rest : List UInt8) : Tok (List UInt8) → Prop
  | word w => IsName w ∧ ∀ c ∈ rest.head?, isWord c = false
  | op .gt => ∀ c ∈ rest.head?, c ≠ 62
  | op _ => True

/-- `text` is the tokens `ts` with white space around them. -/
inductive Layout : List (Tok (List UInt8)) → List UInt8 → Prop
  | nil {gap : List UInt8} (h : ∀ c ∈ gap, isSpace c = true) : Layout [] gap
  | cons {gap rest : List UInt8} {t : Tok (List UInt8)} {ts : List (Tok (List UInt8))}
      (hgap : ∀ c ∈ gap, isSpace c = true) (ht : t.Before rest) (h : Layout ts rest) :
      Layout (t :: ts) (gap ++ (t.text ++ rest))

/-- `text` is a line of the grammar, its tree is `t`, and no command in it has too many arguments. -/
def Line (t : Tree (List UInt8)) (text : List UInt8) : Prop :=
  ∃ ts, Layout ts text ∧ Derives .line t ts ∧ t.ArgsOk

theorem space_ne_nul (h : isSpace c = true) : c ≠ 0 := by
  rintro rfl
  exact absurd h (by decide)

theorem Tok.Before.no_nul (h : t.Before rest) : (0 : UInt8) ∉ t.text := by
  rcases t with o | w
  · cases o <;> decide
  · intro h0
    exact (h.1.2 0 h0).2 rfl

/-- A layout has no NUL. -/
theorem Layout.no_nul {ts : List (Tok (List UInt8))} {text : List UInt8} (h : Layout ts text) :
    (0 : UInt8) ∉ text := by
  induction h with
  | nil h =>
    intro h0
    exact space_ne_nul (h 0 h0) rfl
  | cons hgap ht h ih =>
    intro h0
    rcases mem_append.mp h0 with h0 | h0
    · exact space_ne_nul (hgap 0 h0) rfl
    · rcases mem_append.mp h0 with h0 | h0
      · exact ht.no_nul h0
      · exact ih h0

/-- A blank before every token and at the end is enough. -/
theorem exists_layout (ts : List (Tok (List UInt8))) (h : ∀ w, .word w ∈ ts → IsName w) :
    ∃ text, Layout ts (32 :: text) := by
  induction ts with
  | nil =>
    refine ⟨[], .nil ?_⟩
    intro c hc
    rw [mem_singleton.mp hc]
    rfl
  | cons t ts ih =>
    obtain ⟨text, htext⟩ := ih fun w hw => h w (mem_cons_of_mem _ hw)
    refine ⟨t.text ++ 32 :: text, @Layout.cons [32] _ _ _ ?_ ?_ htext⟩
    · intro c hc
      rw [mem_singleton.mp hc]
      rfl
    · have hhead : ∀ c, c ∈ (32 :: text).head? → c = 32 := by
        intro c hc
        exact (Option.some.inj hc).symm
      rcases t with o | w
      · cases o with
        | gt =>
          intro c hc
          rw [hhead c hc]
          decide
        | _ => trivial
      · refine ⟨h w (mem_cons_self ..), ?_⟩
        intro c hc
        rw [hhead c hc]
        decide

/-! ## Layouts and positions -/

/-- The characters of a span. -/
def slice (m : Bytes) (a : Span) : List UInt8 := toList m a.1 (a.2 - a.1)

section Positions

theorem head_toList {n : Nat} (h : c ∈ (toList m s n).head?) : 0 < n ∧ c = m s := by
  cases n with
  | zero => cases h
  | succ n =>
    rw [toList_succ] at h
    exact ⟨Nat.succ_pos n, (Option.some.inj h).symm⟩

theorem TokenAt.text {t : Tok Span} (h : TokenAt m es q e t) :
    (t.map (slice m)).text = toList m q (e - q) := by
  cases h with
  | @op o ho hc hgt =>
    rw [Nat.add_sub_cancel_left, toList_succ, hc]
    cases o with
    | gtgt => exact absurd rfl ho
    | _ => rfl
  | gtgt hc hc' =>
    rw [Nat.add_sub_cancel_left, toList_succ, toList_succ, hc, hc']
    rfl
  | word => rfl

theorem TokenAt.before {t : Tok Span} (h : TokenAt m es q e t) (hm : Text m es) (hq : q < es)
    (he : e ≤ es) : (t.map (slice m)).Before (toList m e (es - e)) := by
  have hlt := h.lt hq
  cases h with
  | @op o ho hc hgt =>
    cases o with
    | gt =>
      intro c hc
      rw [(head_toList hc).2]
      exact hgt rfl
    | _ => trivial
  | gtgt => trivial
  | word hw hstop =>
    refine ⟨⟨?_, ?_⟩, ?_⟩
    · intro hnil
      have := congrArg length hnil
      rw [slice, length_toList, length_nil] at this
      omega
    · intro c hc
      obtain ⟨i, hi, hie, rfl⟩ := mem_toList hc
      exact ⟨hstop.all i hi (by omega), hm.ne i (by omega)⟩
    · intro c hc
      obtain ⟨hpos, rfl⟩ := head_toList hc
      rcases hstop.stop with h | h
      · omega
      · exact h

/-- The tokens from a position on are laid out in the text from there on. -/
theorem Cursor.layout (h : Cursor m es s ts) (hm : Text m es) :
    Layout (ts.map (Tok.map (slice m))) (toList m s (es - s)) := by
  have hgap : ∀ {s q}, Stops m isSpace es s q → ∀ c ∈ toList m s (q - s), isSpace c = true := by
    intro s q h c hc
    obtain ⟨i, hi, hiq, rfl⟩ := mem_toList hc
    exact h.all i hi (by omega)
  induction h with
  | nil h => exact .nil (hgap h)
  | @cons s q e t ts h hq ht he hs ih =>
    have hle := h.le
    have hlt := ht.lt hq
    have hsplit : toList m s (es - s) =
        toList m s (q - s) ++ (toList m q (e - q) ++ toList m e (es - e)) := by
      have h1 := toList_add m q (e - q) (es - e)
      have h2 := toList_add m s (q - s) (es - q)
      rw [Nat.add_sub_of_le hlt.le] at h1
      rw [Nat.add_sub_of_le hle] at h2
      rw [← h1, show e - q + (es - e) = es - q by omega, ← h2, show q - s + (es - q) = es - s by omega]
    rw [hsplit, map_cons, ← ht.text]
    exact .cons (hgap h) (ht.before hm hq he) ih

/-- The text `l` stands at `s`. -/
def Spells (m : Bytes) (s : Nat) (l : List UInt8) : Prop := toList m s l.length = l

theorem Spells.of_append {l' : List UInt8} (h : Spells m s (l ++ l')) :
    Spells m s l ∧ Spells m (s + l.length) l' := by
  unfold Spells at h
  rw [length_append, toList_add] at h
  exact append_inj h (length_toList ..)

theorem Spells.mem (h : Spells m s l) {i : Nat} (hi : s ≤ i) (hi' : i < s + l.length) : m i ∈ l := by
  rw [← h]
  exact mem_map.mpr ⟨i - s, mem_range.mpr (by omega), by rw [Nat.add_sub_of_le hi]⟩

theorem Spells.head (h : Spells m s (c :: l)) : m s = c := by
  unfold Spells at h
  rw [length_cons, toList_succ] at h
  exact (cons.inj h).1

/-- A token that is written at `q`, before `rest`, is the token there. -/
theorem Tok.Before.tokenAt (h : t.Before rest)
    (hs : Spells m q (t.text ++ rest)) (hes : q + (t.text ++ rest).length = es) (hnul : m es = 0) :
    ∃ u, TokenAt m es q (q + t.text.length) u ∧ u.map (slice m) = t := by
  rw [length_append] at hes
  obtain ⟨ht, hrest⟩ := hs.of_append
  -- The character after the token is the first of `rest`, or the NUL.
  have hnext : m (q + t.text.length) ∈ rest.head? ∨ (q + t.text.length = es ∧ rest = []) := by
    cases rest with
    | nil => exact .inr ⟨hes, rfl⟩
    | cons c rest => exact .inl (congrArg some hrest.head.symm)
  rcases t with o | w
  · by_cases hgg : o = .gtgt
    · subst hgg
      have htwo : Spells m q [62] ∧ Spells m (q + 1) [62] := Spells.of_append (l := [62]) ht
      exact ⟨.op .gtgt, .gtgt htwo.1.head htwo.2.head, rfl⟩
    · have hone : o.text = [o.char] := by
        cases o with
        | gtgt => exact absurd rfl hgg
        | _ => rfl
      have htext : (Tok.op o : Tok (List UInt8)).text = [o.char] := hone
      rw [htext] at ht hnext ⊢
      refine ⟨.op o, .op hgg ht.head ?_, rfl⟩
      rintro rfl
      rcases hnext with hin | ⟨hend, -⟩
      · exact h _ hin
      · rw [show q + 1 = es from hend, hnul]
        decide
  · obtain ⟨⟨hne, hall⟩, hsep⟩ := h
    have hword : ∀ i, q ≤ i → i < q + w.length → isWord (m i) = true :=
      fun i hi hi' => (hall _ (ht.mem hi hi')).1
    have hpos : 0 < w.length := length_pos_iff.mpr hne
    refine ⟨.word (q, q + w.length), .word (hword q le_rfl (by omega)) ?_, ?_⟩
    · grind [Stops, text]
    · show Tok.word (toList m q (q + w.length - q)) = .word w
      rw [Nat.add_sub_cancel_left]
      exact congrArg Tok.word ht

/-- The first character of a token is no white space. -/
theorem Tok.Before.not_space (h : t.Before rest) : ∃ c l, t.text = c :: l ∧ isSpace c = false := by
  rcases t with o | w
  · cases o <;> exact ⟨_, _, rfl, by decide⟩
  · obtain ⟨⟨hne, hall⟩, -⟩ := h
    obtain ⟨c, l, rfl⟩ := exists_cons_of_ne_nil hne
    refine ⟨c, l, rfl, ?_⟩
    have hw := (hall c (mem_cons_self ..)).1
    cases hsp : isSpace c with
    | false => rfl
    | true =>
      unfold isSpace at hsp
      unfold isWord at hw
      rw [hsp] at hw
      cases hw

/-- The tokens that are laid out in the text are the tokens that the parser sees. -/
theorem Layout.cursor {ts : List (Tok (List UInt8))} (h : Layout ts l)
    (hs : Spells m s l) (hes : s + l.length = es) (hnul : m es = 0) :
    ∃ us, Cursor m es s us ∧ us.map (Tok.map (slice m)) = ts := by
  induction h generalizing s with
  | @nil gap h =>
    refine ⟨[], .nil ⟨by omega, le_rfl, ?_, .inl rfl⟩, rfl⟩
    intro i hi hie
    exact h _ (hs.mem hi (by omega))
  | @cons gap rest t ts hgap ht h ih =>
    obtain ⟨hsgap, hsrest⟩ := hs.of_append
    rw [length_append] at hes
    have hes' : s + gap.length + (t.text ++ rest).length = es := by omega
    obtain ⟨u, hu, rfl⟩ := ht.tokenAt hsrest hes' hnul
    obtain ⟨c, l, htext, hsp⟩ := ht.not_space
    obtain ⟨hst, hsr⟩ := hsrest.of_append
    rw [length_append] at hes'
    have hlen : (u.map (slice m)).text.length = l.length + 1 := by rw [htext, length_cons]
    obtain ⟨us, hus, hmap⟩ := ih hsr (by omega)
    rw [htext] at hst
    refine ⟨u :: us, .cons ⟨by omega, by omega, ?_, ?_⟩ (by omega) hu (by omega) hus, ?_⟩
    · intro i hi hi'
      exact hgap _ (hsgap.mem hi hi')
    · right
      rw [hst.head]
      exact hsp
    · rw [map_cons, hmap]

end Positions

/-! ## Strings in memory -/

/-- The string at `q`: up to the first NUL, which stands no later than `es`. -/
def cstr (m : Bytes) (es q : Nat) : List UInt8 := toList m q (scan m (· != 0) es q - q)

def Cmd.map {α β : Type} (f : α → β) : Cmd α → Cmd β
  | exec argv => exec (argv.map f)
  | redir cmd file mode fd => redir (cmd.map f) (f file) mode fd
  | pipe left right => pipe (left.map f) (right.map f)
  | list left right => list (left.map f) (right.map f)
  | back cmd => back (cmd.map f)

theorem Tree.cmd_map {α β : Type} (f : α → β) (t : Tree α) : (t.map f).cmd = t.cmd.map f := by
  induction t with
  | exec argv => rfl
  | redir k t file ih => rw [map, cmd, cmd, Cmd.map, ih]
  | back t ih => rw [map, cmd, cmd, Cmd.map, ih]
  | pipe l r ihl ihr | list l r ihl ihr =>
    rw [map, cmd, cmd, Cmd.map, ihl, ihr]

/-- A NUL at the end of every string of the list. -/
def terminate (as : List Span) (m : Bytes) : Bytes :=
  as.foldl (fun m a => update m a.2 0) m

/-- `nulterminate` reaches every string of the tree. -/
theorem nulterminate_eq (t : Tree Span) (m : Bytes) : nulterminate t.cmd m = terminate t.words m := by
  have happ : ∀ as bs m, terminate (as ++ bs) m = terminate bs (terminate as m) :=
    fun as bs m => foldl_append ..
  induction t generalizing m with
  | exec argv => rfl
  | redir k t file ih =>
    rw [cmd, nulterminate, ih, words, happ]
    rfl
  | back t ih => exact ih m
  | pipe l r ihl ihr | list l r ihl ihr =>
    rw [cmd, nulterminate, ihl, ihr, words, happ]

theorem terminate_apply (as : List Span) (m : Bytes) (i : Nat) :
    terminate as m i = if i ∈ as.map Prod.snd then 0 else m i := by
  induction as generalizing m with
  | nil => rfl
  | cons a as ih =>
    show terminate as (update m a.2 0) i = _
    rw [ih, update_apply, map_cons]
    by_cases hi : i ∈ as.map Prod.snd
    · rw [if_pos hi, if_pos (mem_cons_of_mem _ hi)]
    · grind

/-- Every word among the tokens is a maximal run of characters of words. -/
theorem Cursor.word (h : Cursor m es s ts) (ha : .word a ∈ ts) : Stops m isWord es a.1 a.2 := by
  induction h with
  | nil h => cases ha
  | cons h hq ht he hs ih =>
    rcases mem_cons.mp ha with rfl | ha
    · cases ht with
      | word hw hstop => exact hstop
    · exact ih ha

/-- **No word is spoilt.** -/
theorem cstr_word (h : Cursor m es s ts) (hm : Text m es)
    {as : List Span} (has : ∀ a ∈ as, .word a ∈ ts) (ha : a ∈ as) :
    cstr (terminate as m) es a.1 = slice m a := by
  have hword := h.word (has a ha)
  -- A NUL goes to the end of the text or in place of a character of no word.
  have hsame : ∀ i, a.1 ≤ i → i < a.2 → terminate as m i = m i := by
    intro i hi hlt
    rw [terminate_apply, if_neg]
    intro hmem
    obtain ⟨b, hb, rfl⟩ := mem_map.mp hmem
    have hend := hword.le_end
    rcases (h.word (has b hb)).stop with heq | hno
    · omega
    · rw [hword.all _ hi hlt] at hno
      cases hno
  have hstop : Stops (terminate as m) (· != 0) es a.1 a.2 := by grind [Text, Stops, terminate_apply]
  rw [cstr, hstop.scan_eq]
  refine toList_congr ?_
  intro i hi
  exact hsame _ (by omega) (by omega)

/-! ## `parsecmd` -/

/-- The command with its strings read from memory. -/
def Cmd.strings (c : Cmd Span) (m : Bytes) (es : Nat) : Cmd (List UInt8) :=
  c.map fun a => cstr m es a.1

theorem strlen_eq {text : List UInt8} (h0 : (0 : UInt8) ∉ text) : strlen text = text.length := by
  unfold strlen
  rw [takeWhile_eq_self_iff.mpr]
  intro c hc
  exact decide_eq_true (fun heq => h0 (heq ▸ hc))

theorem text_ofList {text : List UInt8} (h0 : (0 : UInt8) ∉ text) : Text (ofList text) text.length := by
  constructor
  · grind [ofList]
  · simp [ofList]

theorem spells_ofList (text : List UInt8) : Spells (ofList text) 0 text := toList_ofList text

/-- Reaching the end with no token left. -/
theorem Cursor.at_end (h : Cursor m es s ts) : (Sh.peek m es s []).2 = es ↔ ts = [] := by
  show scan m isSpace es s = es ↔ ts = []
  cases h with
  | nil h =>
    rw [h.scan_eq]
    exact iff_of_true rfl rfl
  | cons h hq ht he hs =>
    rw [h.scan_eq]
    exact iff_of_false (Nat.ne_of_lt hq) (cons_ne_nil _ _)

/-- The strings of the command that `parsecmd` returns are the words of the line. -/
theorem strings_eq (h : Cursor m es s ts) (hm : Text m es) {t : Tree Span} (hd : Derives .line t ts) :
    t.cmd.strings (nulterminate t.cmd m) es = (t.map (slice m)).cmd := by
  unfold Cmd.strings
  rw [nulterminate_eq, ← cmd_map]
  refine congrArg cmd (map_congr ?_)
  intro a ha
  exact cstr_word h hm (fun b hb => hd.words hb) ha

/-- A line is accepted. -/
theorem Line.parsecmd {t : Tree (List UInt8)} {text : List UInt8} (h : Line t text) :
    ∃ c m, parsecmd text = .ok (c, m) ∧ c.strings m text.length = t.cmd := by
  obtain ⟨ts, hlay, hd, hok⟩ := h
  have h0 := hlay.no_nul
  have hm := text_ofList h0
  obtain ⟨us, hus, rfl⟩ := hlay.cursor (spells_ofList text) (zero_add _) hm.nul
  obtain ⟨u, rfl, hu⟩ := hd.lift rfl
  have hlen := hus.length_le
  have hline : tline (text.length + 1) (text.length + 1) us = .ok (u, []) := by
    have := tline_complete (text.length + 1) (text.length + 1) le_rfl u us [] hu
      ((argsOk_map _ u).mp hok) .nil (by rw [append_nil]; omega)
    rwa [append_nil] at this
  have hsim := parseline_sim hm (text.length + 1) 0 us hus
  rw [hline] at hsim
  obtain ⟨s', hparse, hend⟩ := hsim.of_ok
  refine ⟨u.cmd, nulterminate u.cmd (ofList text), ?_, strings_eq hus hm hu⟩
  unfold Sh.parsecmd
  dsimp only
  rw [strlen_eq h0, hparse]
  show (if _ then _ else _) = _
  rw [if_neg (not_not_intro (hend.at_end.mpr rfl))]
  rfl

/-- Whatever the text, the parser ends; and what it returns is the tree of a line. -/
theorem parsecmd_ends {text : List UInt8} (h0 : (0 : UInt8) ∉ text) :
    (∃ c m t, parsecmd text = .ok (c, m) ∧ Line t text ∧ c.strings m text.length = t.cmd) ∨
      ∃ msg, parsecmd text = .error (.panic msg) := by
  have hm := text_ofList h0
  obtain ⟨us, hus⟩ := Cursor.exists_ hm text.length 0 (Nat.zero_le _) le_rfl
  have hlen := hus.length_le
  have hgood := tline_good (α := Span) (text.length + 1) (text.length + 1) le_rfl us (by omega)
  have hsim := parseline_sim hm (text.length + 1) 0 us hus
  unfold parsecmd
  dsimp only
  rw [strlen_eq h0]
  generalize tline (text.length + 1) (text.length + 1) us = r at hgood hsim
  match r, hgood, hsim with
  | .ok (t, rest), hgood, hsim =>
    obtain ⟨s', hparse, hend⟩ := hsim.of_ok
    obtain ⟨vs, rfl, hd, hok⟩ := hgood
    rw [hparse]
    by_cases hrest : rest = []
    · left
      subst hrest
      rw [append_nil] at hus
      refine ⟨t.cmd, nulterminate t.cmd (ofList text), t.map (slice (ofList text)), ?_, ?_, ?_⟩
      · show (if _ then _ else _) = _
        rw [if_neg (not_not_intro (hend.at_end.mpr rfl))]
        rfl
      · refine ⟨_, ?_, hd.map _, (argsOk_map _ t).mpr hok⟩
        have := hus.layout hm
        rwa [Nat.sub_zero, toList_ofList] at this
      · exact strings_eq hus hm hd
    · right
      refine ⟨"syntax", ?_⟩
      show (if _ then _ else _) = _
      rw [if_pos (mt hend.at_end.mp hrest)]
  | .error (.panic msg), _, hsim =>
    right
    refine ⟨msg, ?_⟩
    generalize parseline (ofList text) text.length (text.length + 1) 0 = r at hsim
    match r, hsim with
    | .error e, hsim =>
      obtain rfl := hsim
      rfl

/-- **The shell's parser inverts printing and accepts exactly its grammar.**  Every tree whose words are
    words can be printed, and however it is printed, `parsecmd` returns it; and for every text
    `parsecmd` returns, with the tree of a line that is the whole text, or panics, and then the text
    is no line. -/
theorem parsecmd_inverts_printing : (∀ t : Tree (List UInt8), t.ArgsOk → (∀ w ∈ t.words, IsName w) →
      (∃ text, Layout (t.toks .line) text) ∧
      ∀ text, Layout (t.toks .line) text →
        ∃ c m, parsecmd text = .ok (c, m) ∧ c.strings m text.length = t.cmd) ∧
    (∀ text : List UInt8, (0 : UInt8) ∉ text →
      (∃ c m t, parsecmd text = .ok (c, m) ∧ Line t text ∧ c.strings m text.length = t.cmd) ∨
      (∃ msg, parsecmd text = .error (.panic msg)) ∧ ¬∃ t, Line t text) := by
  constructor
  · intro t hok hwords
    constructor
    · obtain ⟨text, htext⟩ := exists_layout (t.toks .line) fun w hw => hwords w (mem_toks hw)
      exact ⟨_, htext⟩
    · intro text hlay
      exact Line.parsecmd ⟨_, hlay, derives_toks t .line, hok⟩
  · intro text h0
    rcases parsecmd_ends h0 with hret | ⟨msg, hpanic⟩
    · exact .inl hret
    · right
      refine ⟨⟨msg, hpanic⟩, ?_⟩
      rintro ⟨t, hline⟩
      obtain ⟨c, m, hret, -⟩ := hline.parsecmd
      rw [hret] at hpanic
      cases hpanic

/-- `a>f | b&`. -/
theorem parsecmd_inverts_small : ∃ c m, parsecmd [97, 62, 102, 32, 124, 32, 98, 38] = .ok (c, m) ∧
    c.strings m 8 = .back (.pipe (.redir (.exec [[97]]) [102] 0x601 1) (.exec [[98]])) := by
  have hno : ∀ c ∈ ([] : List UInt8), isSpace c = true := forall_mem_nil _
  have hblank : ∀ c ∈ [(32 : UInt8)], isSpace c = true := forall_mem_singleton.mpr (by decide)
  -- a word of one letter, before something that is no letter
  have hword : ∀ {w c : UInt8} {rest : List UInt8}, isWord w = true → w ≠ 0 → isWord c = false →
      (Tok.word [w]).Before (c :: rest) := by
    intro w c rest hw hw0 hc
    refine ⟨⟨cons_ne_nil _ _, forall_mem_singleton.mpr ⟨hw, hw0⟩⟩, ?_⟩
    rintro c' ⟨⟩
    exact hc
  have hgt : (Tok.op .gt : Tok (List UInt8)).Before [102, 32, 124, 32, 98, 38] := by
    rintro c ⟨⟩
    decide
  have hback : Layout [.op .amp] [38] := @Layout.cons [] [] (.op .amp) _ hno trivial (.nil hno)
  have hright : Layout [.word [98], .op .amp] [32, 98, 38] :=
    @Layout.cons [32] [38] (.word [98]) _ hblank (hword (by decide) (by decide) (by decide)) hback
  have hbar : Layout [.op .bar, .word [98], .op .amp] [32, 124, 32, 98, 38] :=
    @Layout.cons [32] _ (.op .bar) _ hblank trivial hright
  have hfile : Layout [.word [102], .op .bar, .word [98], .op .amp] [102, 32, 124, 32, 98, 38] :=
    @Layout.cons [] _ (.word [102]) _ hno (hword (by decide) (by decide) (by decide)) hbar
  have hredir := @Layout.cons [] _ (.op .gt) _ hno hgt hfile
  have hall := @Layout.cons [] _ (.word [97]) _ hno (hword (by decide) (by decide) (by decide)) hredir
  exact (parsecmd_inverts_printing.1 (.back (.pipe (.redir .output (.exec [[97]]) [102]) (.exec [[98]])))
    ⟨show 1 < MAXARGS by decide, show 1 < MAXARGS by decide⟩ (by decide)).2 _ hall

end Xv6.Sh
