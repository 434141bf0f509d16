/-
  FROM CHARACTERS TO TOKENS.

  `Cursor s ts` says that the tokens `ts` are what lies between position `s` and the end of the text:
  white space, a token, and so on.  It does not change when white space is skipped, so `peek` keeps it and
  `gettoken` takes the first token off.  Every function of the parser on characters then SIMULATES the
  function of the same name on tokens (`Sim`), and `parseline` at position 0 is the parser of lines on the
  tokens of the text (`parseline_sim`).
-/
import Xv6.Shell.Tokens

namespace Xv6.Sh

open Scan List

variable {m : Bytes} {r : Except Stop (Cmd Span × Nat)} {ts : List (Tok Span)} {es s : Nat} {o : Op}
  {t : Tree Span}

/-! ## Tokens in memory -/

/-- The first character of an operator. -/
def Op.char : Op → UInt8
  | lpar => 40
  | rpar => 41
  | semi => 59
  | amp => 38
  | bar => 124
  | lt => 60
  | gt => 62
  | gtgt => 62

/-- What `gettoken` returns for it. -/
def Op.code : Op → UInt8
  | gtgt => 43
  | o => o.char

def Tok.code {α : Type} : Tok α → UInt8
  | op o => o.code
  | word _ => 97

/-- The text: no NUL before its end, and one there. -/
structure Text (m : Bytes) (es : Nat) : Prop where
  ne : ∀ i, i < es → m i ≠ 0
  nul : m es = 0

/-- The token `t` stands at `q` and ends at `e`. -/
inductive TokenAt (m : Bytes) (es q : Nat) : Nat → Tok Span → Prop
  | op {o : Op} (ho : o ≠ .gtgt) (h : m q = o.char) (hgt : o = .gt → m (q + 1) ≠ 62) :
      TokenAt m es q (q + 1) (.op o)
  | gtgt (h : m q = 62) (h' : m (q + 1) = 62) : TokenAt m es q (q + 2) (.op .gtgt)
  | word {e : Nat} (h : isWord (m q) = true) (he : Stops m isWord es q e) :
      TokenAt m es q e (.word (q, e))

/-- The tokens from `s` on. -/
inductive Cursor (m : Bytes) (es : Nat) : Nat → List (Tok Span) → Prop
  | nil {s : Nat} (h : Stops m isSpace es s es) : Cursor m es s []
  | cons {s q e : Nat} {t : Tok Span} {ts : List (Tok Span)} (h : Stops m isSpace es s q) (hq : q < es)
      (ht : TokenAt m es q e t) (he : e ≤ es) (hs : Cursor m es e ts) : Cursor m es s (t :: ts)

section Lex

variable {q e : Nat} {t : Tok Span}

/-- A character is white space, an operator's, a word's, or the NUL at the end. -/
theorem char_cases (c : UInt8) (hsp : isSpace c = false) : isWord c = true ∨
    ∃ o : Op, o ≠ .gtgt ∧ c = o.char ∧ symbols.contains c = true := by
  by_cases hsym : symbols.contains c = true
  · right
    have hmem : c ∈ symbols := contains_iff_mem.mp hsym
    simp only [symbols, mem_cons, not_mem_nil, or_false] at hmem
    rcases hmem with rfl | rfl | rfl | rfl | rfl | rfl | rfl
    · exact ⟨.lt, by decide, rfl, hsym⟩
    · exact ⟨.bar, by decide, rfl, hsym⟩
    · exact ⟨.gt, by decide, rfl, hsym⟩
    · exact ⟨.amp, by decide, rfl, hsym⟩
    · exact ⟨.semi, by decide, rfl, hsym⟩
    · exact ⟨.lpar, by decide, rfl, hsym⟩
    · exact ⟨.rpar, by decide, rfl, hsym⟩
  · left
    unfold isSpace at hsp
    unfold isWord
    rw [hsp, Bool.eq_false_iff.mpr hsym]
    rfl

theorem symbols_op (o : Op) : symbols.contains o.char = true := by cases o <;> decide

theorem isWord_symbols {c : UInt8} (h : isWord c = true) : symbols.contains c = false := by
  unfold isWord at h
  cases hs : symbols.contains c with
  | false => rfl
  | true =>
    rw [hs, Bool.not_true, Bool.and_false] at h
    cases h

/-- The `switch` reads the token. -/
theorem TokenAt.read (h : TokenAt m es q e t) (hm : Text m es) (hq : q < es) :
    tokenAt m es q = (t.code, e) := by
  have hne := hm.ne q hq
  unfold tokenAt
  rw [if_neg hne]
  cases h with
  | @op o ho hc hgt =>
    by_cases hisgt : o = .gt
    · subst hisgt
      rw [if_pos (show m q = 62 from hc), if_neg (hgt rfl)]
      rfl
    · have h62 : m q ≠ 62 := by
        rw [hc]
        cases o with
        | gt => exact absurd rfl hisgt
        | gtgt => exact absurd rfl ho
        | _ => decide
      rw [if_neg h62, if_pos (by rw [hc]; exact symbols_op o), hc]
      cases o with
      | gtgt => exact absurd rfl ho
      | _ => rfl
  | gtgt hc hc' =>
    rw [if_pos hc, if_pos hc']
    rfl
  | word hw he =>
    have hsym := isWord_symbols hw
    have h62 : m q ≠ 62 := by
      intro h
      rw [h] at hw
      exact absurd hw (by decide)
    rw [if_neg h62, if_neg (by rw [hsym]; decide), he.scan_eq]
    rfl

theorem TokenAt.lt (h : TokenAt m es q e t) (hq : q < es) : q < e := by
  cases h with
  | op => exact Nat.lt_succ_self q
  | gtgt => omega
  | word hw he =>
    grind [Stops]

/-- There is a token wherever the text does not end and no white space stands. -/
theorem exists_token (hm : Text m es) (hq : q < es) (hsp : isSpace (m q) = false) :
    ∃ e t, TokenAt m es q e t ∧ e ≤ es := by
  rcases char_cases (m q) hsp with hw | ⟨o, ho, hc, -⟩
  · have hstop := @scan_spec _ m isWord es q (le_of_lt hq)
    exact ⟨_, _, .word hw hstop, hstop.le_end⟩
  · by_cases hgt : m q = 62 ∧ m (q + 1) = 62
    · refine ⟨_, _, .gtgt hgt.1 hgt.2, ?_⟩
      have : q + 1 ≠ es := by
        intro heq
        have hnul := hm.nul
        rw [← heq, hgt.2] at hnul
        exact absurd hnul (by decide)
      omega
    · refine ⟨_, _, .op ho hc ?_, hq⟩
      rintro rfl h
      exact hgt ⟨hc, h⟩

namespace Cursor

/-- Every position has its tokens, no more than the characters left. -/
theorem exists_ (hm : Text m es) : ∀ n s, s ≤ es → es - s ≤ n → ∃ ts, Cursor m es s ts := by
  intro n
  induction n with
  | zero =>
    intro s hs hn
    obtain rfl : s = es := by omega
    have hstop : Stops m isSpace s s s :=
      ⟨le_rfl, le_rfl, fun i h h' => absurd h' (not_lt.mpr h), .inl rfl⟩
    exact ⟨[], .nil hstop⟩
  | succ n ih =>
    intro s hs hn
    have hstop := @scan_spec _ m isSpace es s hs
    rcases Nat.eq_or_lt_of_le hstop.le_end with heq | hlt
    · rw [heq] at hstop
      exact ⟨[], .nil hstop⟩
    · have hsp : isSpace (m (scan m isSpace es s)) = false := by
        rcases hstop.stop with h | h
        · omega
        · exact h
      obtain ⟨e, t, ht, he⟩ := exists_token hm hlt hsp
      have hgt := ht.lt hlt
      have hle := hstop.le
      obtain ⟨ts, hts⟩ := ih e he (by omega)
      exact ⟨t :: ts, .cons hstop hlt ht he hts⟩

theorem length_le (h : Cursor m es s ts) : ts.length + s ≤ es := by
  induction h with
  | nil h =>
    rw [length_nil, zero_add]
    exact h.le
  | cons h hq ht he hs ih =>
    have := ht.lt hq
    have := h.le
    rw [length_cons]
    omega

/-- White space may be skipped. -/
theorem skip (h : Cursor m es s ts) : Cursor m es (scan m isSpace es s) ts := by
  cases h with
  | nil h =>
    rw [h.scan_eq]
    exact .nil (h.from h.le le_rfl)
  | cons h hq ht he hs =>
    rw [h.scan_eq]
    exact .cons (h.from h.le le_rfl) hq ht he hs

theorem gettoken (h : Cursor m es s (t :: ts)) (hm : Text m es) :
    (Sh.gettoken m es s).1 = t.code ∧ (∀ a, t = .word a → (Sh.gettoken m es s).2.1 = a) ∧
      Cursor m es (Sh.gettoken m es s).2.2 ts := by
  cases h with
  | cons h hq ht he hs =>
    unfold Sh.gettoken
    dsimp only
    rw [h.scan_eq, ht.read hm hq]
    refine ⟨rfl, ?_, hs.skip⟩
    rintro a rfl
    cases ht with
    | word => rfl

theorem gettoken_nil (h : Cursor m es s []) (hm : Text m es) :
    (Sh.gettoken m es s).1 = 0 ∧ Cursor m es (Sh.gettoken m es s).2.2 [] := by
  cases h with
  | nil h =>
    unfold Sh.gettoken tokenAt
    dsimp only
    rw [h.scan_eq, if_pos hm.nul]
    refine ⟨rfl, ?_⟩
    exact (Cursor.nil (h.from h.le le_rfl)).skip

end Cursor

/-- Whether the first token is an operator that begins with one of `toks`. -/
def heads (toks : List UInt8) : List (Tok Span) → Bool
  | .op o :: _ => toks.contains o.char
  | _ => false

/-- `peek`, for characters of operators. -/
theorem Cursor.peek (h : Cursor m es s ts) (hm : Text m es) (toks : List UInt8)
    (htoks : ∀ c, c ∈ toks → symbols.contains c = true) :
    (Sh.peek m es s toks).1 = heads toks ts ∧ Cursor m es (Sh.peek m es s toks).2 ts := by
  refine ⟨?_, h.skip⟩
  unfold Sh.peek
  dsimp only
  cases h with
  | nil h =>
    rw [h.scan_eq, hm.nul]
    rfl
  | cons h hq ht he hs =>
    have hne : (m _ != 0) = true := bne_iff_ne.mpr (hm.ne _ hq)
    rw [h.scan_eq, hne, Bool.true_and]
    cases ht with
    | op ho hc hgt => rw [hc]; rfl
    | gtgt hc hc' => rw [hc]; rfl
    | word hw he =>
      show toks.contains (m _) = false
      rw [Bool.eq_false_iff]
      intro hin
      have := htoks _ (contains_iff_mem.mp hin)
      rw [isWord_symbols hw] at this
      cases this

end Lex

/-! ## Simulation -/

/-- The two parsers agree: on the command, on what is left, and on the way they fail. -/
def Sim (m : Bytes) (es : Nat) : Except Stop (Cmd Span × Nat) → Res Span → Prop
  | .ok (c, s), .ok (t, ts) => c = t.cmd ∧ Cursor m es s ts
  | .error e, .error e' => e = e'
  | _, _ => False

section Simulation

theorem Sim.ok {c : Cmd Span} (hc : c = t.cmd) (h : Cursor m es s ts) :
    Sim m es (.ok (c, s)) (.ok (t, ts)) := ⟨hc, h⟩

theorem Sim.bind {r' : Res Span}
    {f : Cmd Span × Nat → Except Stop (Cmd Span × Nat)} {f' : Tree Span × List (Tok Span) → Res Span}
    (h : Sim m es r r') (hf : ∀ t s ts, r' = .ok (t, ts) → Cursor m es s ts →
      Sim m es (f (t.cmd, s)) (f' (t, ts))) : Sim m es (r >>= f) (r'.bind f') := by
  match r, r', h with
  | .ok (c, s), .ok (t, ts), h =>
    obtain ⟨rfl, hs⟩ := h
    exact hf t s ts rfl hs
  | .error e, .error e', h =>
    obtain rfl := h
    exact rfl

theorem Sim.of_ok (h : Sim m es r (.ok (t, ts))) : ∃ s, r = .ok (t.cmd, s) ∧ Cursor m es s ts := by
  match r, h with
  | .ok (c, s), h =>
    obtain ⟨rfl, hs⟩ := h
    exact ⟨s, rfl, hs⟩

theorem Tok.code_ne (o : Op) : (Tok.op o : Tok Span).code ≠ 97 ∧ (Tok.op o : Tok Span).code ≠ 0 := by
  cases o <;> decide

theorem redircmd_eq (k : Redir) (t : Tree Span) (file : Span) :
    redircmd t.cmd file k.op.code = (Tree.redir k t file).cmd := by
  cases k <;> rfl

theorem heads_redir (o : Op) (us : List (Tok Span)) : heads [60, 62] (.op o :: us) = o.redir.isSome := by
  cases o <;> rfl

theorem redirLoop_sim (hm : Text m es) (n : Nat) (t : Tree Span) (h : Cursor m es s ts)
    (hn : ts.length < n) : Sim m es (redirLoop m es n t.cmd s) (tredirs t ts) := by
  induction n generalizing s ts t with
  | zero => omega
  | succ n ih =>
    obtain ⟨hhead, hcur⟩ := h.peek hm [60, 62] (all_eq_true.mp (by decide))
    rw [redirLoop]
    dsimp only
    rw [hhead]
    rcases ts with _ | ⟨o | a, us⟩
    · rw [tredirs_nil]
      exact .ok rfl hcur
    · rw [heads_redir]
      cases ho : o.redir with
      | none =>
        rw [tredirs_op t us ho]
        exact .ok rfl hcur
      | some k =>
        obtain rfl := Op.redir_some ho
        obtain ⟨hcode, -, hcur1⟩ := hcur.gettoken hm
        rw [if_pos (Option.isSome_some), hcode]
        -- the file
        rcases us with _ | ⟨o | a, us⟩
        · obtain ⟨hcode2, -⟩ := hcur1.gettoken_nil hm
          rw [hcode2, if_pos (by decide), tredirs_missing t k (fun _ _ h => by cases h)]
          exact rfl
        · obtain ⟨hcode2, -⟩ := hcur1.gettoken hm
          rw [hcode2, if_pos (Tok.code_ne o).1, tredirs_missing t k (fun _ _ h => by cases h)]
          exact rfl
        · obtain ⟨hcode2, hspan, hcur2⟩ := hcur1.gettoken hm
          rw [hcode2, if_neg (fun h => h rfl), hspan a rfl, tredirs_redir]
          show Sim m es (redirLoop m es n (redircmd t.cmd a k.op.code) _) _
          rw [redircmd_eq]
          refine ih _ hcur2 ?_
          rw [length_cons, length_cons] at hn
          omega
    · rw [tredirs_word]
      exact .ok rfl hcur

theorem parseredirs_sim (hm : Text m es) (t : Tree Span) (h : Cursor m es s ts) :
    Sim m es (parseredirs m es t.cmd s) (tredirs t ts) := by
  have := h.length_le
  exact redirLoop_sim hm _ t h (by omega)

theorem heads_stop (o : Op) (us : List (Tok Span)) (h : o.redir = none) :
    heads [124, 41, 38, 59] (.op o :: us) = decide (o ≠ .lpar) := by
  cases o with
  | lt | gt | gtgt => cases h
  | _ => rfl

/-- The arguments, with the redirections before them. -/
theorem args_sim (hm : Text m es) (n argc : Nat) (t : Tree Span) (h : Cursor m es s ts)
    (hn : ts.length < n) : Sim m es (do
      let r ← parseredirs m es t.cmd s
      argLoop m es n argc r.1 r.2) (targs argc t ts) := by
  induction n generalizing s ts t argc with
  | zero => omega
  | succ n ih =>
    rw [targs_eq]
    refine (parseredirs_sim hm t h).bind ?_
    intro t s ts' heq hcur
    obtain ⟨hle, hrest⟩ := tredirs_rest heq
    dsimp only
    obtain ⟨hhead, hcur⟩ := hcur.peek hm [124, 41, 38, 59] (all_eq_true.mp (by decide))
    rw [argLoop]
    dsimp only
    rw [hhead]
    rcases ts' with _ | ⟨o | a, us⟩
    · obtain ⟨hcode, hcur1⟩ := hcur.gettoken_nil hm
      rw [hcode, targs_nil]
      exact .ok rfl hcur1
    · have ho := hrest o us rfl
      rw [heads_stop o us ho]
      by_cases hpar : o = .lpar
      · subst hpar
        obtain ⟨hcode, -⟩ := hcur.gettoken hm
        rw [hcode, targs_lpar]
        exact rfl
      · rw [if_pos (decide_eq_true hpar), targs_op argc t us ho hpar]
        exact .ok rfl hcur
    · obtain ⟨hcode, hspan, hcur1⟩ := hcur.gettoken hm
      rw [hcode, targs_word]
      show Sim m es (if MAXARGS ≤ argc + 1 then _ else _) _
      split
      · exact rfl
      · grind [Tree.cmd_push]

/-- Only `>` and `>>` start with the same character. -/
theorem Op.char_inj {o' : Op} (ho : o ≠ .gt ∧ o ≠ .gtgt) (h : o'.char = o.char) : o' = o := by
  cases o <;> cases o' <;> first
    | rfl
    | exact absurd h (by decide)
    | exact absurd rfl ho.1
    | exact absurd rfl ho.2

/-- The first token is the operator that `peek` looks for. -/
theorem heads_true (ho : o ≠ .gt ∧ o ≠ .gtgt) (h : heads [o.char] ts = true) : ∃ us, ts = .op o :: us := by
  rcases ts with _ | ⟨o' | a, us⟩
  · cases h
  · refine ⟨us, ?_⟩
    have hc : o'.char = o.char := by
      have : [o.char].contains o'.char = true := h
      simpa using this
    rw [Op.char_inj ho hc]
  · cases h

theorem heads_self (o : Op) (us : List (Tok Span)) : heads [o.char] (.op o :: us) = true := by
  show [o.char].contains o.char = true
  simp

/-- `if (peek(…)) gettoken(…)` for one operator: it is there and comes off, or it is not there. -/
theorem Cursor.peekOp (h : Cursor m es s ts) (hm : Text m es) (ho : o ≠ .gt ∧ o ≠ .gtgt) :
    ((Sh.peek m es s [o.char]).1 = true ∧ ∃ us, ts = .op o :: us ∧
      Cursor m es (Sh.gettoken m es (Sh.peek m es s [o.char]).2).2.2 us) ∨
    ((Sh.peek m es s [o.char]).1 = false ∧ (∀ us, ts ≠ .op o :: us) ∧
      Cursor m es (Sh.peek m es s [o.char]).2 ts) := by
  obtain ⟨hhead, hcur⟩ := h.peek hm [o.char] (by
    intro c hc
    rw [mem_singleton.mp hc]
    exact symbols_op o)
  rw [hhead]
  by_cases hyes : heads [o.char] ts = true
  · left
    obtain ⟨us, rfl⟩ := heads_true ho hyes
    exact ⟨hyes, us, rfl, (hcur.gettoken hm).2.2⟩
  · right
    refine ⟨Bool.eq_false_iff.mpr hyes, ?_, hcur⟩
    rintro us rfl
    exact hyes (heads_self o us)

/-- The parsers of lines agree. -/
def SimLine (m : Bytes) (es : Nat) (line : Nat → Except Stop (Cmd Span × Nat))
    (tl : List (Tok Span) → Res Span) : Prop := ∀ s ts, Cursor m es s ts → Sim m es (line s) (tl ts)

section Level

variable {line : Nat → Except Stop (Cmd Span × Nat)} {tl : List (Tok Span) → Res Span}

theorem parseblock_sim (hm : Text m es) (hline : SimLine m es line tl) {us : List (Tok Span)}
    (h : Cursor m es s (.op .lpar :: us)) :
    Sim m es (parseblock m es line s) ((tl us).bind fun r => tclose r.1 r.2) := by
  rcases h.peekOp hm (o := .lpar) (by decide) with ⟨hyes, us', heq, hcur⟩ | ⟨-, hno, -⟩
  · cases heq
    unfold parseblock
    dsimp only
    rw [show ([40] : List UInt8) = [Op.lpar.char] from rfl, hyes]
    refine (hline _ us hcur).bind ?_
    intro t s ts _ hinner
    dsimp only
    rw [show ([41] : List UInt8) = [Op.rpar.char] from rfl]
    rcases hinner.peekOp hm (o := .rpar) (by decide) with ⟨hclose, vs, rfl, hrest⟩ | ⟨hopen, hno, -⟩
    · rw [hclose]
      exact parseredirs_sim hm t hrest
    · have hmissing : tclose t ts = .error (.panic "syntax - missing )") := by
        unfold tclose
        split
        · exact absurd rfl (hno _)
        · rfl
      rw [hopen, hmissing]
      exact rfl
  · exact absurd rfl (hno us)

theorem parseexec_sim (hm : Text m es) (hline : SimLine m es line tl) (h : Cursor m es s ts) :
    Sim m es (parseexec m es line s) (texec tl ts) := by
  unfold parseexec
  dsimp only
  rw [show ([40] : List UInt8) = [Op.lpar.char] from rfl]
  rcases h.peekOp hm (o := .lpar) (by decide) with ⟨hyes, us, rfl, -⟩ | ⟨hnot, hno, hcur⟩
  · rw [hyes]
    exact parseblock_sim hm hline h.skip
  · have hsimple : texec tl ts = targs 0 (.exec []) ts := by
      unfold texec
      split
      · next us => exact absurd rfl (hno us)
      · rfl
    have hlen := h.length_le
    rw [hnot, hsimple]
    exact args_sim hm (es + 1) 0 (.exec []) hcur (by omega)

theorem parsepipe_sim (hm : Text m es) (hline : SimLine m es line tl) (n : Nat)
    (h : Cursor m es s ts) : Sim m es (parsepipe m es line n s) (tpipe tl n ts) := by
  induction n generalizing s ts with
  | zero => exact rfl
  | succ n ih =>
    rw [parsepipe, tpipe]
    refine (parseexec_sim hm hline h).bind ?_
    intro t s ts _ hleft
    dsimp only
    rw [show ([124] : List UInt8) = [Op.bar.char] from rfl]
    rcases hleft.peekOp hm (o := .bar) (by decide) with ⟨hyes, us, rfl, hus⟩ | ⟨hnot, hno, hend⟩
    · rw [hyes]
      refine (ih hus).bind ?_
      intro r s ts _ hright
      exact .ok rfl hright
    · rw [hnot, if_neg Bool.false_ne_true]
      split
      · exact absurd rfl (hno _)
      · exact .ok rfl hend

end Level

theorem backLoop_sim (hm : Text m es) (n : Nat) (t : Tree Span) (h : Cursor m es s ts)
    (hn : ts.length < n) : Sim m es (backLoop m es n t.cmd s) (.ok (tbacks t ts)) := by
  induction n generalizing s ts t with
  | zero => omega
  | succ n ih =>
    rw [backLoop, show ([38] : List UInt8) = [Op.amp.char] from rfl]
    rcases h.peekOp hm (o := .amp) (by decide) with ⟨hyes, us, rfl, hcur⟩ | ⟨hnot, hno, hcur⟩
    · rw [hyes]
      rw [length_cons] at hn
      exact ih (.back t) hcur (by omega)
    · have hstop : tbacks t ts = (t, ts) := by
        unfold tbacks
        split
        · next us => exact absurd rfl (hno us)
        · rfl
      rw [hnot, hstop]
      exact .ok rfl hcur

/-- **The parser of characters simulates the parser of tokens.** -/
theorem parseline_sim (hm : Text m es) (n : Nat) : SimLine m es (parseline m es n) (tline (es + 1) n) := by
  induction n with
  | zero =>
    intro s ts _
    exact rfl
  | succ n ih =>
    intro s ts h
    rw [parseline, tline]
    refine (parsepipe_sim hm ih (es + 1) h).bind ?_
    intro t s ts _ hcur
    have hlen := hcur.length_le
    obtain ⟨s', hback, hpipes⟩ := (backLoop_sim hm (es + 1) t hcur (by omega)).of_ok
    rw [hback]
    generalize tbacks t ts = c at hpipes
    obtain ⟨t', ts'⟩ := c
    show Sim m es (if (peek m es s' [Op.semi.char]).1 then _ else _) _
    rcases hpipes.peekOp hm (o := .semi) (by decide) with ⟨hyes, us, rfl, hus⟩ | ⟨hnot, hno, hend⟩
    · rw [hyes]
      refine (ih _ us hus).bind ?_
      intro r s ts _ hright
      exact .ok rfl hright
    · rw [hnot, if_neg Bool.false_ne_true]
      split
      · next heq => exact absurd (Prod.mk.inj heq).2 (hno _)
      · exact .ok rfl hend

end Simulation

end Xv6.Sh
