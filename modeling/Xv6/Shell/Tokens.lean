/-
  PARSING A LIST OF TOKENS.

  The functions of `Shell.Parse` again, on tokens instead of characters.  On this level a parser is
  right in three ways.  It is GOOD: it ends, with a phrase of the grammar and the tokens after it, or
  in `panic`.  And it is COMPLETE: given a phrase, followed by something that can follow it, it finds that
  phrase.  Each function passes both on to the next; `parseline` closes the circle by induction on its
  fuel, of which one unit for each token is enough (`tline_good`, `tline_complete`).
-/
import Xv6.Shell.Grammar

namespace Xv6.Sh

open List Phrase Xv6.Sh.Tree

variable {α : Type}

variable {rest ts us : List (Tok α)} {t t' : Tree α} {n : Nat}

/-! ## The functions -/

/-- What a parser returns: the tree, and the tokens left. -/
abbrev Res (α : Type) := Except Stop (Tree α × List (Tok α))

/-- `parseredirs` on tokens. -/
def tredirs : Tree α → List (Tok α) → Res α
  | t, .op o :: ts =>
    match o.redir, ts with
    | none, ts => .ok (t, .op o :: ts)
    | some k, .word file :: us => tredirs (.redir k t file) us
    | some _, _ => .error (.panic "missing file for redirection")
  | t, ts => .ok (t, ts)
termination_by _ ts => ts.length

/-- `parseexec`, from its first redirection on. -/
def targs : Nat → Tree α → List (Tok α) → Res α
  | argc, t, .word a :: ts =>
    if MAXARGS ≤ argc + 1 then .error (.panic "too many args") else targs (argc + 1) (t.push a) ts
  | argc, t, .op o :: ts =>
    match o.redir, ts with
    | some k, .word file :: us => targs argc (.redir k t file) us
    | some _, _ => .error (.panic "missing file for redirection")
    | none, ts => if o = .lpar then .error (.panic "syntax") else .ok (t, .op o :: ts)
  | _, t, [] => .ok (t, [])
termination_by _ _ ts => ts.length

@[simp] theorem tredirs_nil (t : Tree α) : tredirs t [] = .ok (t, []) := by
  rw [tredirs.eq_def]

@[simp] theorem tredirs_word (t : Tree α) (a : α) (ts : List (Tok α)) :
    tredirs t (.word a :: ts) = .ok (t, .word a :: ts) := by
  rw [tredirs.eq_def]

theorem tredirs_op (t : Tree α) {o : Op} (ts : List (Tok α)) (ho : o.redir = none) :
    tredirs t (.op o :: ts) = .ok (t, .op o :: ts) := by
  rw [tredirs.eq_def]
  dsimp only
  rw [ho]

@[simp] theorem tredirs_redir (t : Tree α) (k : Redir) (file : α) (ts : List (Tok α)) :
    tredirs t (.op k.op :: .word file :: ts) = tredirs (.redir k t file) ts := by
  rw [tredirs.eq_def]
  dsimp only
  rw [k.redir_op]

theorem tredirs_missing (t : Tree α) (k : Redir) (h : ∀ a us, ts ≠ .word a :: us) :
    tredirs t (.op k.op :: ts) = .error (.panic "missing file for redirection") := by
  rw [tredirs.eq_def]
  dsimp only
  rw [k.redir_op]
  cases ts with
  | nil => rfl
  | cons x us =>
    cases x with
    | op o => rfl
    | word a => exact absurd rfl (h a us)

@[simp] theorem targs_nil (argc : Nat) (t : Tree α) : targs argc t [] = .ok (t, []) := by
  rw [targs.eq_def]

theorem targs_op (argc : Nat) (t : Tree α) {o : Op} (ts : List (Tok α)) (ho : o.redir = none)
    (hne : o ≠ .lpar) : targs argc t (.op o :: ts) = .ok (t, .op o :: ts) := by
  rw [targs.eq_def]
  dsimp only
  rw [ho]
  exact if_neg hne

@[simp] theorem targs_redir (argc : Nat) (t : Tree α) (k : Redir) (file : α) (ts : List (Tok α)) :
    targs argc t (.op k.op :: .word file :: ts) = targs argc (.redir k t file) ts := by
  rw [targs.eq_def]
  dsimp only
  rw [k.redir_op]

theorem targs_word (argc : Nat) (t : Tree α) (a : α) (ts : List (Tok α)) :
    targs argc t (.word a :: ts) = if MAXARGS ≤ argc + 1 then .error (.panic "too many args")
      else targs (argc + 1) (t.push a) ts := by
  rw [targs.eq_def]

theorem targs_lpar (argc : Nat) (t : Tree α) (ts : List (Tok α)) :
    targs argc t (.op .lpar :: ts) = .error (.panic "syntax") := by
  rw [targs.eq_def]
  rfl

theorem targs_missing (argc : Nat) (t : Tree α) (k : Redir) (h : ∀ a us, ts ≠ .word a :: us) :
    targs argc t (.op k.op :: ts) = .error (.panic "missing file for redirection") := by
  rw [targs.eq_def]
  dsimp only
  rw [k.redir_op]
  cases ts with
  | nil => rfl
  | cons x us =>
    cases x with
    | op o => rfl
    | word a => exact absurd rfl (h a us)

/-- The redirections come off first. -/
theorem targs_eq (argc : Nat) (t : Tree α) (ts : List (Tok α)) :
    targs argc t ts = (tredirs t ts).bind fun r => targs argc r.1 r.2 := by
  fun_induction tredirs t ts with
  | case1 => rfl
  | case2 t o k file us ho ih =>
    obtain rfl := Op.redir_some ho
    rw [targs_redir]
    exact ih
  | case3 t o ts k ho h =>
    obtain rfl := Op.redir_some ho
    exact targs_missing argc t k fun a us heq => h a us heq
  | case4 => rfl

/-- After the line in parentheses. -/
def tclose : Tree α → List (Tok α) → Res α
  | t, .op .rpar :: ts => tredirs t ts
  | _, _ => .error (.panic "syntax - missing )")

section Level

variable (line : List (Tok α) → Res α)

/-- `parseexec` on tokens. -/
def texec : List (Tok α) → Res α
  | .op .lpar :: ts => (line ts).bind fun r => tclose r.1 r.2
  | ts => targs 0 (.exec []) ts

/-- `parsepipe` on tokens. -/
def tpipe : Nat → List (Tok α) → Res α
  | 0, _ => .error .fuel
  | n + 1, ts => (texec line ts).bind fun l =>
    match l.2 with
    | .op .bar :: us => (tpipe n us).bind fun r => .ok (.pipe l.1 r.1, r.2)
    | _ => .ok l

end Level

def tbacks : Tree α → List (Tok α) → Tree α × List (Tok α)
  | t, .op .amp :: ts => tbacks (.back t) ts
  | t, ts => (t, ts)

/-- `fuel` is for the recursion of `parsepipe`. -/
def tline (fuel : Nat) : Nat → List (Tok α) → Res α
  | 0, _ => .error .fuel
  | n + 1, ts => (tpipe (tline fuel n) fuel ts).bind fun c =>
    match tbacks c.1 c.2 with
    | (t, .op .semi :: us) => (tline fuel n us).bind fun r => .ok (.list t r.1, r.2)
    | c => .ok c

/-! ## Arguments -/

/-- The number of arguments of the command under the redirections. -/
def Tree.argc : Tree α → Option Nat
  | exec argv => some argv.length
  | redir _ t _ => t.argc
  | _ => none

theorem Tree.argc_push (a : α) (h : t.argc = some n) : (t.push a).argc = some (n + 1) := by
  induction t with
  | exec argv =>
    cases h
    exact congrArg some (length_append ..)
  | redir k t file ih => exact ih h
  | _ => cases h

theorem Tree.argsOk_iff (h : t.argc = some n) : t.ArgsOk ↔ n < MAXARGS := by
  induction t with
  | exec argv =>
    cases h
    exact Iff.rfl
  | redir k t file ih => exact ih h
  | _ => cases h

theorem Redirs.argsOk (h : Redirs t ts t') : t'.ArgsOk ↔ t.ArgsOk := by
  induction h with
  | nil t => exact Iff.rfl
  | cons h ih => exact ih

theorem Redirs.argc (h : Redirs t ts t') : t'.argc = t.argc := by
  induction h with
  | nil t => rfl
  | cons h ih => exact ih

theorem Words.argc (h : Words t ts t') (hn : t.argc = some n) : ∃ n', n ≤ n' ∧ t'.argc = some n' := by
  induction h generalizing n with
  | nil t => exact ⟨n, le_rfl, hn⟩
  | @cons t t1 t' a ts us hr hw ih =>
    have h1 : t1.argc = some (n + 1) := hr.argc.trans (argc_push a hn)
    obtain ⟨n', hle, hn'⟩ := ih h1
    exact ⟨n', by omega, hn'⟩

/-! ## Good -/

/-- The parser ends, in a `panic` or with what `P` allows. -/
def Ends (r : Res α) (P : Tree α → List (Tok α) → Prop) : Prop :=
  match r with
  | .ok (t, rest) => P t rest
  | .error (.panic _) => True
  | .error .fuel => False

theorem Ends.mono {r : Res α} {P Q : Tree α → List (Tok α) → Prop} (h : Ends r P)
    (hPQ : ∀ t rest, P t rest → Q t rest) : Ends r Q := by
  match r, h with
  | .ok (t, rest), h => exact hPQ t rest h
  | .error (.panic _), _ => trivial

theorem Ends.bind {r : Res α} {P Q : Tree α → List (Tok α) → Prop}
    {f : Tree α × List (Tok α) → Res α} (h : Ends r P)
    (hf : ∀ t rest, P t rest → Ends (f (t, rest)) Q) : Ends (r.bind f) Q := by
  match r, h with
  | .ok (t, rest), h => exact hf t rest h
  | .error (.panic _), _ => trivial

/-- What `tredirs` takes is a list of redirections. -/
theorem tredirs_good (t : Tree α) (ts : List (Tok α)) :
    Ends (tredirs t ts) fun t' rest => ∃ us, ts = us ++ rest ∧ Redirs t us t' := by
  fun_induction tredirs t ts with
  | case1 t o ts ho => exact ⟨[], rfl, .nil t⟩
  | case2 t o k file us ho ih =>
    refine ih.mono ?_
    rintro t' rest ⟨vs, rfl, hr⟩
    obtain rfl := Op.redir_some ho
    exact ⟨_, rfl, .cons hr⟩
  | case3 => trivial
  | case4 t ts => exact ⟨[], rfl, .nil t⟩

/-- No redirection is left. -/
theorem tredirs_rest (h : tredirs t ts = .ok (t', rest)) :
    rest.length ≤ ts.length ∧ ∀ o us, rest = .op o :: us → o.redir = none := by
  fun_induction tredirs t ts with
  | case1 t o ts ho =>
    grind
  | case2 t o k file us ho ih =>
    obtain ⟨hle, hrest⟩ := ih h
    refine ⟨?_, hrest⟩
    rw [length_cons, length_cons]
    omega
  | case3 => cases h
  | case4 t ts hno =>
    grind

/-- And `targs` the words of a command, if they are not too many. -/
theorem targs_good (argc : Nat) (t : Tree α) (ts : List (Tok α)) (hn : t.argc = some argc)
    (hlt : argc < MAXARGS) : Ends (targs argc t ts) fun t' rest => ∃ us vs t1,
      ts = us ++ vs ++ rest ∧ Redirs t us t1 ∧ Words t1 vs t' ∧ t'.ArgsOk := by
  fun_induction targs argc t ts with
  | case1 => trivial
  | case2 argc t a ts hmax ih =>
    refine (ih (argc_push a hn) (by omega)).mono ?_
    rintro t' rest ⟨us, vs, t1, rfl, hr, hw, hok⟩
    exact ⟨[], .word a :: (us ++ vs), t, rfl, .nil t, .cons hr hw, hok⟩
  | case3 argc t o k file us ho ih =>
    refine (ih hn hlt).mono ?_
    rintro t' rest ⟨us, vs, t1, rfl, hr, hw, hok⟩
    obtain rfl := Op.redir_some ho
    exact ⟨_, vs, t1, rfl, .cons hr, hw, hok⟩
  | case4 => trivial
  | case5 => trivial
  | case6 argc t o ts ho hne =>
    exact ⟨[], [], t, rfl, .nil t, .nil t, (argsOk_iff hn).mpr hlt⟩
  | case7 argc t => exact ⟨[], [], t, rfl, .nil t, .nil t, (argsOk_iff hn).mpr hlt⟩

/-- A phrase of sort `S` and what is left of `ts` after it. -/
def Finds (S : Phrase) (ts : List (Tok α)) (t : Tree α) (rest : List (Tok α)) : Prop :=
  ∃ us, ts = us ++ rest ∧ Derives S t us ∧ t.ArgsOk

/-- The parser of lines is good on fewer than `N` tokens. -/
def Good (line : List (Tok α) → Res α) (N : Nat) : Prop :=
  ∀ ts, ts.length < N → Ends (line ts) (Finds .line ts)

theorem Finds.length_le {S : Phrase} (h : Finds S ts t rest) : rest.length ≤ ts.length := by
  obtain ⟨us, rfl, -⟩ := h
  rw [length_append]
  omega

section Level

variable {line : List (Tok α) → Res α} {N : Nat}

/-- Soundness, from the lists up: `exec`, ... -/
theorem texec_good (hline : Good line N) (hlen : ts.length ≤ N) :
    Ends (texec line ts) (Finds .exec ts) := by
  unfold texec
  split
  · next us =>
    refine (hline us (by rw [length_cons] at hlen; omega)).bind ?_
    rintro t rest ⟨vs, rfl, hd, hok⟩
    unfold tclose
    split
    · next xs hxs =>
      obtain rfl : rest = .op .rpar :: xs := hxs
      refine (tredirs_good t xs).mono ?_
      rintro t' rest ⟨ws, rfl, hr⟩
      refine ⟨.op .lpar :: (vs ++ .op .rpar :: ws), by simp, .block hd hr, hr.argsOk.mpr hok⟩
    · trivial
  · refine (targs_good 0 (.exec []) ts rfl (by decide)).mono ?_
    rintro t' rest ⟨us, vs, t1, rfl, hr, hw, hok⟩
    exact ⟨us ++ vs, rfl, .simple hr hw, hok⟩

/-- ... pipes, ... -/
theorem tpipe_good (hline : Good line N) (n : Nat) (hlen : ts.length ≤ N)
    (hn : ts.length < n) : Ends (tpipe line n ts) (Finds .pipe ts) := by
  induction n generalizing ts with
  | zero => omega
  | succ n ih =>
    rw [tpipe]
    refine (texec_good hline hlen).bind ?_
    intro l rest hl
    have hle := hl.length_le
    obtain ⟨us, rfl, hd, hok⟩ := hl
    split
    · next vs hvs =>
      obtain rfl : rest = .op .bar :: vs := hvs
      rw [length_cons] at hle
      refine (ih (by omega) (by omega)).bind ?_
      rintro r rest ⟨ws, rfl, hd', hok'⟩
      exact ⟨us ++ .op .bar :: ws, by simp, .pipe hd hd', hok, hok'⟩
    · exact ⟨us, rfl, .one hd, hok⟩

/-- ... and `&`. -/
theorem tbacks_good (ts : List (Tok α)) (hd : Derives .backs t us)
    (hok : t.ArgsOk) : ∃ vs, ts = vs ++ (tbacks t ts).2 ∧
      Derives .backs (tbacks t ts).1 (us ++ vs) ∧ (tbacks t ts).1.ArgsOk := by
  fun_induction tbacks t ts generalizing us with
  | case1 t ts ih =>
    obtain ⟨vs, hvs, hd', hok'⟩ := ih (.back hd) hok
    refine ⟨.op .amp :: vs, congrArg (cons _) hvs, ?_, hok'⟩
    rw [append_assoc] at hd'
    exact hd'
  | case2 t ts => exact ⟨[], rfl, by rwa [append_nil], hok⟩

end Level

/-- **The parser of lines is good** with fuel for each token. -/
theorem tline_good (fuel n : Nat) (hn : n ≤ fuel) : Good (α := α) (tline fuel n) n := by
  induction n with
  | zero =>
    intro ts hlen
    omega
  | succ n ih =>
    intro ts hlen
    rw [tline]
    refine (tpipe_good (ih (by omega)) fuel (by omega) (by omega)).bind ?_
    rintro t rest ⟨us, rfl, hd, hok⟩
    obtain ⟨vs, hvs, hd', hok'⟩ := tbacks_good rest (.fore hd) hok
    dsimp only
    generalize tbacks t rest = c at hvs hd' hok'
    obtain ⟨t', rest'⟩ := c
    dsimp only at hvs hd' hok'
    subst hvs
    split
    · next t'' ws heq =>
      obtain ⟨rfl, rfl⟩ := Prod.mk.inj heq
      refine (ih (by omega) ws ?_).bind ?_
      · simp only [length_append, length_cons] at hlen
        omega
      · rintro r rest ⟨xs, rfl, hd'', hok''⟩
        exact ⟨us ++ vs ++ .op .semi :: xs, by simp, .seq hd' hd'', hok', hok''⟩
    · exact ⟨us ++ vs, by simp, .last hd', hok'⟩

/-! ## Complete -/

/-- The operators that can follow a phrase. -/
def Phrase.follow : Phrase → List Op
  | line => [.rpar]
  | backs => [.semi, .rpar]
  | pipe => [.amp, .semi, .rpar]
  | exec => [.bar, .amp, .semi, .rpar]

/-- The text ends, or one of the operators `os` comes next. -/
inductive Follows (os : List Op) : List (Tok α) → Prop
  | nil : Follows os []
  | cons {o : Op} (h : o ∈ os) (rest : List (Tok α)) : Follows os (.op o :: rest)

theorem Follows.mono {os os' : List Op} (h : Follows os rest)
    (hsub : ∀ o, o ∈ os → o ∈ os') : Follows os' rest := by
  cases h with
  | nil => exact .nil
  | cons h rest => exact .cons (hsub _ h) rest

/-- Redirections are taken to the last one. -/
theorem Redirs.complete (h : Redirs t us t')
    (hrest : Follows (follow .exec) rest) : tredirs t (us ++ rest) = .ok (t', rest) := by
  induction h with
  | nil t =>
    cases hrest with
    | nil => exact tredirs_nil t
    | @cons o h rest =>
      have ho : o.redir = none := by revert o; decide
      exact tredirs_op t rest ho
  | @cons t t' k file ts h ih => exact (tredirs_redir t k file _).trans ih

/-- Redirections before the first word. -/
theorem Redirs.targs (h : Redirs t us t') (argc : Nat)
    (rest : List (Tok α)) : targs argc t (us ++ rest) = Sh.targs argc t' rest := by
  induction h with
  | nil t => rfl
  | @cons t t' k file ts h ih => exact (targs_redir argc t k file _).trans ih

theorem Words.complete (h : Words t us t') {argc : Nat} (hn : t.argc = some argc) (hok : t'.ArgsOk)
    (hrest : Follows (follow .exec) rest) : targs argc t (us ++ rest) = .ok (t', rest) := by
  induction h generalizing argc with
  | nil t =>
    cases hrest with
    | nil => exact targs_nil argc t
    | @cons o h rest =>
      have ho : o.redir = none ∧ o ≠ .lpar := by revert o; decide
      exact targs_op argc t rest ho.1 ho.2
  | @cons t t1 t' a ts us hr hw ih =>
    have h1 : t1.argc = some (argc + 1) := hr.argc.trans (argc_push a hn)
    obtain ⟨n', hle, hn'⟩ := hw.argc h1
    have hlt := (argsOk_iff hn').mp hok
    show targs argc t (.word a :: (ts ++ us ++ rest)) = _
    rw [targs, if_neg (by omega), append_assoc, hr.targs]
    exact ih h1 hok

/-- The parser of lines finds the lines of fewer than `N` tokens. -/
def Complete (line : List (Tok α) → Res α) (N : Nat) : Prop :=
  ∀ t us rest, Derives .line t us → t.ArgsOk → Follows (Phrase.follow .line) rest →
    (us ++ rest).length < N → line (us ++ rest) = .ok (t, rest)

/-- A command without parentheses does not begin with one. -/
theorem texec_simple {line : List (Tok α) → Res α} {t t1 : Tree α}
    (h : Redirs (.exec []) ts t1) (h' : Words t1 us t)
    (hrest : Follows (follow .exec) rest) :
    texec line (ts ++ us ++ rest) = targs 0 (.exec []) (ts ++ us ++ rest) := by
  cases h with
  | @cons _ _ k file ts h => cases k <;> rfl
  | nil =>
    cases h' with
    | cons hr hw => rfl
    | nil =>
      cases hrest with
      | nil => rfl
      | @cons o h rest =>
        have ho : o ≠ .lpar := by revert o; decide
        cases o with
        | lpar => exact absurd rfl ho
        | _ => rfl

section Level

variable {line : List (Tok α) → Res α} {N : Nat}

/-- Completeness, by the same steps. -/
theorem texec_complete (hline : Complete line N)
    (hd : Derives .exec t us) (hok : t.ArgsOk) (hrest : Follows (follow .exec) rest)
    (hlen : (us ++ rest).length ≤ N) : texec line (us ++ rest) = .ok (t, rest) := by
  cases hd with
  | @block t1 _ ts us h h' =>
    have hshape : ts ++ .op .rpar :: us ++ rest = ts ++ (.op .rpar :: (us ++ rest)) := by simp
    have hfirst : (ts ++ (.op .rpar :: (us ++ rest))).length < N := by
      rw [cons_append, length_cons, hshape] at hlen
      omega
    show ((line (ts ++ .op .rpar :: us ++ rest)).bind fun r => tclose r.1 r.2) = _
    rw [hshape, hline t1 ts _ h (h'.argsOk.mp hok) (.cons (by decide) _) hfirst]
    exact h'.complete hrest
  | simple h h' =>
    rw [texec_simple h h' hrest, append_assoc, h.targs]
    exact h'.complete h.argc hok hrest

theorem tpipe_complete (hline : Complete line N) (n : Nat)
    (hd : Derives .pipe t us) (hok : t.ArgsOk) (hrest : Follows (follow .pipe) rest)
    (hlen : (us ++ rest).length ≤ N) (hn : (us ++ rest).length < n) :
    tpipe line n (us ++ rest) = .ok (t, rest) := by
  induction n generalizing t us with
  | zero => omega
  | succ n ih =>
    cases hd with
    | one h =>
      rw [tpipe, texec_complete hline h hok (hrest.mono (by decide)) hlen]
      show (match rest with
        | .op .bar :: us => (tpipe line n us).bind fun r => .ok (pipe t r.1, r.2)
        | _ => .ok (t, rest)) = _
      cases hrest with
      | nil => rfl
      | @cons o h rest =>
        have ho : o ≠ .bar := fun he => absurd (he ▸ h) (by decide)
        cases o with
        | bar => exact absurd rfl ho
        | _ => rfl
    | @pipe l r ts us h h' =>
      have hshape : ts ++ .op .bar :: us ++ rest = ts ++ (.op .bar :: (us ++ rest)) := by simp
      rw [hshape] at hlen hn ⊢
      have hrec : (us ++ rest).length ≤ N ∧ (us ++ rest).length < n := by
        rw [length_append, length_cons] at hlen hn
        omega
      rw [tpipe, texec_complete hline h hok.1 (.cons (by decide) _) hlen]
      show ((tpipe line n (us ++ rest)).bind fun r => .ok (pipe l r.1, r.2)) = _
      rw [ih h' hok.2 hrec.1 hrec.2]
      rfl

end Level

/-- `pipe {&}`, taken apart. -/
theorem Derives.backs_inv (h : Derives .backs t ts) (hok : t.ArgsOk) :
    ∃ t0 us vs, ts = us ++ vs ∧ Derives .pipe t0 us ∧ t0.ArgsOk ∧
      (∀ rest : List (Tok α), Follows (follow .backs) rest → Follows (follow .pipe) (vs ++ rest)) ∧
      ∀ rest : List (Tok α), tbacks t0 (vs ++ rest) = tbacks t rest := by
  generalize hS : backs = S at h
  induction h with
  | @fore t ts h =>
    refine ⟨t, ts, [], (append_nil _).symm, h, hok, ?_, fun _ => rfl⟩
    intro rest hrest
    exact hrest.mono (by decide)
  | @back t ts h ih =>
    obtain ⟨t0, us, vs, rfl, hd, hok0, hfollow, htb⟩ := ih hok hS
    refine ⟨t0, us, vs ++ [.op .amp], by simp, hd, hok0, ?_, ?_⟩
    · intro rest hrest
      rw [append_assoc]
      cases vs with
      | nil => exact .cons (by decide) _
      | cons v vs =>
        have := hfollow [] .nil
        rw [append_nil] at this
        cases this with
        | cons ho _ => exact .cons ho _
    · intro rest
      rw [append_assoc, htb]
      rfl
  | _ => cases hS

theorem tbacks_stop (t : Tree α) (h : Follows (follow .backs) rest) : tbacks t rest = (t, rest) := by
  cases h with
  | nil => rfl
  | @cons o h rest =>
    have ho : o ≠ .amp := by revert o; decide
    cases o with
    | amp => exact absurd rfl ho
    | _ => rfl

/-- **The parser of lines is complete** with fuel for each token. -/
theorem tline_complete (fuel n : Nat) (hn : n ≤ fuel) : Complete (α := α) (tline fuel n) n := by
  induction n with
  | zero =>
    intro t us rest _ _ _ hlen
    omega
  | succ n ih =>
    intro t us rest hd hok hrest hlen
    have hline := ih (by omega)
    cases hd with
    | last h =>
      obtain ⟨t0, us, vs, rfl, hp, hok0, hfollow, htb⟩ := h.backs_inv hok
      have hbacks : Follows (follow .backs) rest := hrest.mono (by decide)
      rw [append_assoc] at hlen ⊢
      rw [tline, tpipe_complete hline fuel hp hok0 (hfollow rest hbacks) (by omega) (by omega)]
      show (match tbacks t0 (vs ++ rest) with
        | (t, .op .semi :: us) => (tline fuel n us).bind fun r => .ok (list t r.1, r.2)
        | c => .ok c) = _
      rw [htb, tbacks_stop t hbacks]
      cases hrest with
      | nil => rfl
      | @cons o h rest =>
        have ho : o = .rpar := mem_singleton.mp h
        rw [ho]
    | @seq l r ts us h h' =>
      obtain ⟨t0, us0, vs, rfl, hp, hok0, hfollow, htb⟩ := h.backs_inv hok.1
      have hbacks : Follows (follow .backs) (.op .semi :: (us ++ rest)) := .cons (by decide) _
      have hshape : us0 ++ vs ++ .op .semi :: us ++ rest =
        us0 ++ (vs ++ (.op .semi :: (us ++ rest))) := by simp
      rw [hshape] at hlen ⊢
      have hrec : (us ++ rest).length < n := by
        simp only [length_append, length_cons] at hlen ⊢
        omega
      rw [tline, tpipe_complete hline fuel hp hok0 (hfollow _ hbacks) (by omega) (by omega)]
      show (match tbacks t0 (vs ++ .op .semi :: (us ++ rest)) with
        | (t, .op .semi :: us) => (tline fuel n us).bind fun r => .ok (list t r.1, r.2)
        | c => .ok c) = _
      rw [htb, tbacks_stop l hbacks]
      show ((tline fuel n (us ++ rest)).bind fun r => .ok (list l r.1, r.2)) = _
      rw [hline r us rest h' hok.2 hrest hrec]
      rfl

end Xv6.Sh
