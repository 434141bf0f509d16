/-
  THE GRAMMAR OF COMMAND LINES.

      line ::= pipe {&} [; line]
      pipe ::= exec [| pipe]
      exec ::= ( line ) redirs | redirs {word redirs}

  `Derives S t ts` says that the tokens `ts` are a phrase of sort `S` whose tree is `t`.  Parentheses
  leave no trace in the tree, so EVERY tree is the tree of a line: `Tree.toks` prints one, with
  parentheses where a phrase is not of the sort its place asks for (`derives_toks`).

  Words are of any type: positions in the text for the parser, characters for the reader.
-/
import Xv6.Shell.Parse

namespace Xv6.Sh

open List

/-! ## Trees and tokens -/

/-- The operators.  `gtgt` is `>>`. -/
inductive Op
  | lpar | rpar | semi | amp | bar | lt | gt | gtgt
deriving DecidableEq, Repr

/-- A token. -/
inductive Tok (α : Type)
  | op (o : Op)
  | word (a : α)
deriving DecidableEq, Repr

/-- The three redirections. -/
inductive Redir
  | input | output | append
deriving DecidableEq, Repr

namespace Redir

def op : Redir → Op
  | input => .lt
  | output => .gt
  | append => .gtgt

def mode : Redir → Nat
  | input => O_RDONLY
  | output => O_WRONLY ||| O_CREATE ||| O_TRUNC
  | append => O_WRONLY ||| O_CREATE

def fd : Redir → Nat
  | input => 0
  | output => 1
  | append => 1

end Redir

/-- The redirection that an operator stands for. -/
def Op.redir : Op → Option Redir
  | lt => some .input
  | gt => some .output
  | gtgt => some .append
  | _ => none

@[simp] theorem Redir.redir_op (k : Redir) : k.op.redir = some k := by cases k <;> rfl

theorem Op.redir_some {o : Op} {k : Redir} (h : o.redir = some k) : o = k.op := by
  cases o <;> cases h <;> rfl

/-- Command trees. -/
inductive Tree (α : Type)
  | exec (argv : List α)
  | redir (k : Redir) (t : Tree α) (file : α)
  | pipe (left right : Tree α)
  | list (left right : Tree α)
  | back (t : Tree α)
deriving DecidableEq, Repr

namespace Tree

variable {α β : Type}

/-- The command that the parser builds for a tree. -/
def cmd : Tree α → Cmd α
  | exec argv => .exec argv
  | redir k t file => .redir t.cmd file k.mode k.fd
  | pipe left right => .pipe left.cmd right.cmd
  | list left right => .list left.cmd right.cmd
  | back t => .back t.cmd

/-- One more argument, under the redirections. -/
def push (a : α) : Tree α → Tree α
  | exec argv => exec (argv ++ [a])
  | redir k t file => redir k (t.push a) file
  | t => t

@[simp] theorem cmd_push (a : α) (t : Tree α) : (t.push a).cmd = t.cmd.push a := by
  induction t with
  | redir k t file ih =>
    show Cmd.redir (t.push a).cmd file k.mode k.fd = _
    rw [ih]
    rfl
  | _ => rfl

/-- The strings of a tree. -/
def words : Tree α → List α
  | exec argv => argv
  | redir _ t file => t.words ++ [file]
  | pipe left right => left.words ++ right.words
  | list left right => left.words ++ right.words
  | back t => t.words

/-- Every command has room for its arguments. -/
def ArgsOk : Tree α → Prop
  | exec argv => argv.length < MAXARGS
  | redir _ t _ => t.ArgsOk
  | pipe left right => left.ArgsOk ∧ right.ArgsOk
  | list left right => left.ArgsOk ∧ right.ArgsOk
  | back t => t.ArgsOk

def map (f : α → β) : Tree α → Tree β
  | exec argv => exec (argv.map f)
  | redir k t file => redir k (t.map f) (f file)
  | pipe left right => pipe (left.map f) (right.map f)
  | list left right => list (left.map f) (right.map f)
  | back t => back (t.map f)

end Tree

def Tok.map {α β : Type} (f : α → β) : Tok α → Tok β
  | op o => op o
  | word a => word (f a)

/-! ## Phrases -/

section Phrases

variable {α β : Type}

variable {t t' : Tree α} {ts : List (Tok α)} {a : α} {f : α → β} {u : Tree β} {vs : List (Tok β)}

/-- `redirs`, after a command with tree `t`: the tree becomes `t'`. -/
inductive Redirs : Tree α → List (Tok α) → Tree α → Prop
  | nil (t : Tree α) : Redirs t [] t
  | cons {t t' : Tree α} {k : Redir} {file : α} {ts : List (Tok α)}
      (h : Redirs (.redir k t file) ts t') : Redirs t (.op k.op :: .word file :: ts) t'

/-- `{word redirs}`. -/
inductive Words : Tree α → List (Tok α) → Tree α → Prop
  | nil (t : Tree α) : Words t [] t
  | cons {t t1 t' : Tree α} {a : α} {ts us : List (Tok α)} (h : Redirs (t.push a) ts t1)
      (h' : Words t1 us t') : Words t (.word a :: (ts ++ us)) t'

/-- The sorts of phrases; `backs` is `pipe {&}`. -/
inductive Phrase
  | line | backs | pipe | exec
deriving DecidableEq, Repr

variable {S : Phrase}

/-- The grammar of the shell, with the tree of each phrase. -/
inductive Derives : Phrase → Tree α → List (Tok α) → Prop
  | block {t t' : Tree α} {ts us : List (Tok α)} (h : Derives .line t ts) (h' : Redirs t us t') :
      Derives .exec t' (.op .lpar :: (ts ++ .op .rpar :: us))
  | simple {t1 t : Tree α} {ts us : List (Tok α)} (h : Redirs (.exec []) ts t1) (h' : Words t1 us t) :
      Derives .exec t (ts ++ us)
  | one {t : Tree α} {ts : List (Tok α)} (h : Derives .exec t ts) : Derives .pipe t ts
  | pipe {l r : Tree α} {ts us : List (Tok α)} (h : Derives .exec l ts) (h' : Derives .pipe r us) :
      Derives .pipe (.pipe l r) (ts ++ .op .bar :: us)
  | fore {t : Tree α} {ts : List (Tok α)} (h : Derives .pipe t ts) : Derives .backs t ts
  | back {t : Tree α} {ts : List (Tok α)} (h : Derives .backs t ts) :
      Derives .backs (.back t) (ts ++ [.op .amp])
  | last {t : Tree α} {ts : List (Tok α)} (h : Derives .backs t ts) : Derives .line t ts
  | seq {l r : Tree α} {ts us : List (Tok α)} (h : Derives .backs l ts) (h' : Derives .line r us) :
      Derives .line (.list l r) (ts ++ .op .semi :: us)

/-- A phrase of sort `exec` does for every sort. -/
theorem Derives.of_exec (h : Derives .exec t ts) (S : Phrase) : Derives S t ts := by
  cases S with
  | line => exact .last (.fore (.one h))
  | backs => exact .fore (.one h)
  | pipe => exact .one h
  | exec => exact h

/-! ## Printing -/

/-- Put parentheses around a line, if the place asks for another sort. -/
def paren (b : Bool) (ts : List (Tok α)) : List (Tok α) :=
  if b then .op .lpar :: (ts ++ [.op .rpar]) else ts

/-- The tokens of a tree where a phrase of sort `S` is asked for. -/
def Tree.toks : Phrase → Tree α → List (Tok α)
  | _, exec argv => argv.map .word
  | _, redir k t file => t.toks .exec ++ [.op k.op, .word file]
  | S, pipe l r => paren (S = .exec) (l.toks .exec ++ .op .bar :: r.toks .pipe)
  | S, back t => paren (S = .exec ∨ S = .pipe) (t.toks .backs ++ [.op .amp])
  | S, list l r => paren (S ≠ .line) (l.toks .backs ++ .op .semi :: r.toks .line)

/-- A line in parentheses does for every sort. -/
theorem Derives.paren (h : Derives .line t ts) (S : Phrase) {b : Bool}
    (hb : b = false → Derives S t ts) : Derives S t (Sh.paren b ts) := by
  cases b with
  | false => exact hb rfl
  | true => exact (Derives.block h (.nil t)).of_exec S

/-- One more redirection at the end. -/
theorem Redirs.snoc (h : Redirs t ts t') (k : Redir) (file : α) :
    Redirs t (ts ++ [.op k.op, .word file]) (.redir k t' file) := by
  induction h with
  | nil t => exact .cons (.nil _)
  | cons h ih => exact .cons ih

theorem Words.snoc_redir {us : List (Tok α)} (h : Words t us t') (k : Redir) (file : α) :
    (us = [] ∧ t' = t) ∨ Words t (us ++ [.op k.op, .word file]) (.redir k t' file) := by
  induction h with
  | nil t => exact .inl ⟨rfl, rfl⟩
  | @cons t t1 t' a ts us hr hw ih =>
    right
    rcases ih with ⟨rfl, rfl⟩ | ih
    · have := Words.cons (hr.snoc k file) (.nil _)
      simpa using this
    · have := Words.cons hr ih
      simpa using this

/-- One more redirection after a phrase of sort `exec`. -/
theorem Derives.redir (h : Derives .exec t ts) (k : Redir) (file : α) :
    Derives .exec (.redir k t file) (ts ++ [.op k.op, .word file]) := by
  cases h with
  | block h h' =>
    have := Derives.block h (h'.snoc k file)
    simpa using this
  | simple h h' =>
    rcases h'.snoc_redir k file with ⟨rfl, rfl⟩ | hw
    · have := Derives.simple (h.snoc k file) (.nil _)
      simpa using this
    · have := Derives.simple h hw
      simpa using this

theorem words_exec (pre argv : List α) : Words (.exec pre) (argv.map Tok.word) (.exec (pre ++ argv)) := by
  induction argv generalizing pre with
  | nil =>
    rw [append_nil]
    exact .nil _
  | cons a argv ih =>
    have hone : Redirs ((Tree.exec pre).push a) [] (.exec (pre ++ [a])) := .nil _
    have := Words.cons hone (ih (pre ++ [a]))
    rw [append_assoc] at this
    exact this

/-- **Every tree can be written down.** -/
theorem derives_toks (t : Tree α) : ∀ S, Derives S t (t.toks S) := by
  induction t with
  | exec argv =>
    intro S
    exact (Derives.simple (.nil _) (words_exec [] argv)).of_exec S
  | redir k t file ih =>
    intro S
    exact ((ih .exec).redir k file).of_exec S
  | pipe l r ihl ihr =>
    intro S
    have h := Derives.pipe (ihl .exec) (ihr .pipe)
    refine Derives.paren (.last (.fore h)) S ?_
    intro hb
    cases S with
    | exec => cases hb
    | pipe => exact h
    | backs => exact .fore h
    | line => exact .last (.fore h)
  | list l r ihl ihr =>
    intro S
    have h := Derives.seq (ihl .backs) (ihr .line)
    refine Derives.paren h S ?_
    intro hb
    cases S with
    | line => exact h
    | _ => cases hb
  | back t ih =>
    intro S
    have h := Derives.back (ih .backs)
    refine Derives.paren (.last h) S ?_
    intro hb
    cases S with
    | line => exact .last h
    | backs => exact h
    | _ => cases hb

/-! ## The words of a phrase -/

theorem Tree.words_push (t : Tree α) {a b : α} (h : b ∈ (t.push a).words) : b = a ∨ b ∈ t.words := by
  induction t with
  | exec argv =>
    rcases mem_append.mp h with h | h
    · exact .inr h
    · exact .inl (mem_singleton.mp h)
  | redir k t file ih =>
    rcases mem_append.mp h with h | h
    · rcases ih h with h | h
      · exact .inl h
      · exact .inr (mem_append_left _ h)
    · exact .inr (mem_append_right _ h)
  | _ => exact .inr h

theorem Redirs.words (h : Redirs t ts t') (ha : a ∈ t'.words) : a ∈ t.words ∨ .word a ∈ ts := by
  induction h with
  | nil t => exact .inl ha
  | cons h ih =>
    rcases ih ha with h | h
    · rcases mem_append.mp h with h | h
      · exact .inl h
      · right
        rw [mem_singleton.mp h]
        simp
    · exact .inr (by simp [h])

/-- The words of a command come from its tokens. -/
theorem Words.words (h : Words t ts t') (ha : a ∈ t'.words) : a ∈ t.words ∨ .word a ∈ ts := by
  induction h with
  | nil t => exact .inl ha
  | @cons t t1 t' b ts us hr hw ih =>
    rcases ih ha with h | h
    · rcases hr.words h with h | h
      · rcases t.words_push h with rfl | h
        · exact .inr (by simp)
        · exact .inl h
      · exact .inr (by simp [h])
    · exact .inr (by simp [h])

/-- The strings of the tree are words of the phrase. -/
theorem Derives.words (h : Derives S t ts) (ha : a ∈ t.words) : .word a ∈ ts := by
  induction h with
  | block h h' ih =>
    rcases h'.words ha with ha | ha
    · simp [ih ha]
    · simp [ha]
  | simple h h' =>
    rcases h'.words ha with ha | ha
    · rcases h.words ha with ha | ha
      · cases ha
      · simp [ha]
    · simp [ha]
  | one h ih | fore h ih | last h ih => exact ih ha
  | back h ih => simp [ih ha]
  | pipe h h' ih ih' | seq h h' ih ih' =>
    rcases mem_append.mp ha with ha | ha
    · simp [ih ha]
    · simp [ih' ha]

theorem mem_paren {b : Bool} (h : .word a ∈ paren b ts) : .word a ∈ ts := by
  cases b with
  | false => exact h
  | true => simpa [paren] using h

/-- Printing writes no words but those of the tree. -/
theorem Tree.mem_toks (h : .word a ∈ t.toks S) : a ∈ t.words := by
  induction t generalizing S with
  | exec argv => simpa [toks, words] using h
  | redir k t file ih =>
    rcases mem_append.mp h with h | h
    · exact mem_append_left _ (ih h)
    · exact mem_append_right _ (by simpa using h)
  | back t ih =>
    have := mem_paren h
    exact ih (by simpa using this)
  | pipe l r ihl ihr | list l r ihl ihr =>
    rcases mem_append.mp (mem_paren h) with h | h
    · exact mem_append_left _ (ihl h)
    · exact mem_append_right _ (ihr (by simpa using h))

/-! ## Changing the words -/

theorem Tree.map_push (f : α → β) (a : α) (t : Tree α) : (t.push a).map f = (t.map f).push (f a) := by
  induction t with
  | exec argv =>
    show Tree.exec ((argv ++ [a]).map f) = _
    rw [map_append]
    rfl
  | redir k t file ih =>
    show Tree.redir k ((t.push a).map f) (f file) = _
    rw [ih]
    rfl
  | _ => rfl

theorem Redirs.map (f : α → β) (h : Redirs t ts t') : Redirs (t.map f) (ts.map (Tok.map f)) (t'.map f) := by
  induction h with
  | nil t => exact .nil _
  | cons h ih => exact .cons ih

/-- Renaming the words keeps the phrase, ... -/
theorem Words.map (f : α → β) (h : Words t ts t') : Words (t.map f) (ts.map (Tok.map f)) (t'.map f) := by
  induction h with
  | nil t => exact .nil _
  | cons hr hw ih =>
    have hr := hr.map f
    rw [Tree.map_push] at hr
    have := Words.cons hr ih
    simpa [Tok.map] using this

/-- A phrase stays one when its words are changed. -/
theorem Derives.map (f : α → β) (h : Derives S t ts) : Derives S (t.map f) (ts.map (Tok.map f)) := by
  induction h with
  | block h h' ih =>
    have := Derives.block ih (h'.map f)
    simpa [Tok.map, Tree.map] using this
  | simple h h' =>
    have := Derives.simple (h.map f) (h'.map f)
    simpa [Tok.map, Tree.map] using this
  | one h ih => exact .one ih
  | fore h ih => exact .fore ih
  | last h ih => exact .last ih
  | back h ih =>
    have := Derives.back ih
    simpa [Tok.map, Tree.map] using this
  | pipe h h' ih ih' =>
    have := Derives.pipe ih ih'
    simpa [Tok.map, Tree.map] using this
  | seq h h' ih ih' =>
    have := Derives.seq ih ih'
    simpa [Tok.map, Tree.map] using this

theorem Redirs.lift (h : Redirs (t.map f) vs u) (hts : ts.map (Tok.map f) = vs) :
    ∃ t', u = t'.map f ∧ Redirs t ts t' := by
  generalize hv : t.map f = v at h
  induction h generalizing t ts with
  | nil v =>
    obtain rfl := map_eq_nil_iff.mp hts
    exact ⟨t, hv.symm, .nil t⟩
  | @cons v u k file vs h ih =>
    obtain ⟨o, us, rfl, ho, hus⟩ := map_eq_cons_iff.mp hts
    obtain ⟨w, us, rfl, hw, hrest⟩ := map_eq_cons_iff.mp hus
    rcases o with o | a
    · rcases w with o' | a
      · cases hw
      · cases ho
        cases hw
        obtain ⟨t', rfl, ht'⟩ := @ih (.redir k t a) us hrest (by rw [← hv]; rfl)
        exact ⟨t', rfl, .cons ht'⟩
    · cases ho

/-- ... and a phrase of renamed words is a renamed phrase. -/
theorem Words.lift (h : Words (t.map f) vs u) (hts : ts.map (Tok.map f) = vs) :
    ∃ t', u = t'.map f ∧ Words t ts t' := by
  generalize hv : t.map f = v at h
  induction h generalizing t ts with
  | nil v =>
    obtain rfl := map_eq_nil_iff.mp hts
    exact ⟨t, hv.symm, .nil t⟩
  | @cons v u1 u b rs us hr hw ih =>
    obtain ⟨w, ts, rfl, hb, hts⟩ := map_eq_cons_iff.mp hts
    obtain ⟨rs', us', rfl, hrs, hus⟩ := map_eq_append_iff.mp hts
    rcases w with o | a
    · cases hb
    · cases hb
      rw [← hv, ← Tree.map_push] at hr
      obtain ⟨t1, rfl, ht1⟩ := hr.lift hrs
      obtain ⟨t', rfl, ht'⟩ := ih hus rfl
      exact ⟨t', rfl, .cons ht1 ht'⟩

theorem Tok.map_eq_op {w : Tok α} {o : Op} (h : w.map f = .op o) : w = .op o := by
  rcases w with o' | a
  · cases h
    rfl
  · cases h

/-- A phrase in changed words comes from a phrase in the words themselves. -/
theorem Derives.lift (h : Derives S u vs)
    (hts : ts.map (Tok.map f) = vs) : ∃ t, u = t.map f ∧ Derives S t ts := by
  induction h generalizing ts with
  | block h h' ih =>
    obtain ⟨w, ts, rfl, hw, hts⟩ := map_eq_cons_iff.mp hts
    obtain ⟨ls, rs, rfl, hls, hrs⟩ := map_eq_append_iff.mp hts
    obtain ⟨w', rs, rfl, hw', hrs⟩ := map_eq_cons_iff.mp hrs
    obtain ⟨t, rfl, ht⟩ := ih hls
    obtain ⟨t', rfl, ht'⟩ := h'.lift hrs
    rw [Tok.map_eq_op hw, Tok.map_eq_op hw']
    exact ⟨t', rfl, .block ht ht'⟩
  | simple h h' =>
    obtain ⟨ls, rs, rfl, hls, hrs⟩ := map_eq_append_iff.mp hts
    obtain ⟨t1, rfl, ht1⟩ := Redirs.lift (t := .exec []) h hls
    obtain ⟨t, rfl, ht⟩ := h'.lift hrs
    exact ⟨t, rfl, .simple ht1 ht⟩
  | one h ih =>
    obtain ⟨t, rfl, ht⟩ := ih hts
    exact ⟨t, rfl, .one ht⟩
  | fore h ih =>
    obtain ⟨t, rfl, ht⟩ := ih hts
    exact ⟨t, rfl, .fore ht⟩
  | last h ih =>
    obtain ⟨t, rfl, ht⟩ := ih hts
    exact ⟨t, rfl, .last ht⟩
  | back h ih =>
    obtain ⟨ls, rs, rfl, hls, hrs⟩ := map_eq_append_iff.mp hts
    obtain ⟨w, rs, rfl, hw, hrs⟩ := map_eq_cons_iff.mp hrs
    obtain rfl := map_eq_nil_iff.mp hrs
    obtain ⟨t, rfl, ht⟩ := ih hls
    rw [Tok.map_eq_op hw]
    exact ⟨.back t, rfl, .back ht⟩
  | pipe h h' ih ih' =>
    obtain ⟨ls, rs, rfl, hls, hrs⟩ := map_eq_append_iff.mp hts
    obtain ⟨w, rs, rfl, hw, hrs⟩ := map_eq_cons_iff.mp hrs
    obtain ⟨l, rfl, hl⟩ := ih hls
    obtain ⟨r, rfl, hr⟩ := ih' hrs
    rw [Tok.map_eq_op hw]
    exact ⟨.pipe l r, rfl, .pipe hl hr⟩
  | seq h h' ih ih' =>
    obtain ⟨ls, rs, rfl, hls, hrs⟩ := map_eq_append_iff.mp hts
    obtain ⟨w, rs, rfl, hw, hrs⟩ := map_eq_cons_iff.mp hrs
    obtain ⟨l, rfl, hl⟩ := ih hls
    obtain ⟨r, rfl, hr⟩ := ih' hrs
    rw [Tok.map_eq_op hw]
    exact ⟨.list l r, rfl, .seq hl hr⟩

theorem Tree.argsOk_map (f : α → β) (t : Tree α) : (t.map f).ArgsOk ↔ t.ArgsOk := by
  induction t with
  | exec argv =>
    show (argv.map f).length < MAXARGS ↔ argv.length < MAXARGS
    rw [length_map]
  | redir k t file ih => exact ih
  | back t ih => exact ih
  | pipe l r ihl ihr | list l r ihl ihr => exact and_congr ihl ihr

theorem Tree.map_congr {f g : α → β} (h : ∀ a ∈ t.words, f a = g a) : t.map f = t.map g := by
  induction t with
  | exec argv => exact congrArg Tree.exec (map_congr_left h)
  | redir k t file ih =>
    rw [Tree.map, Tree.map, ih fun a ha => h a (mem_append_left _ ha),
      h file (mem_append_right _ (mem_singleton_self _))]
  | back t ih => rw [Tree.map, Tree.map, ih h]
  | pipe l r ihl ihr | list l r ihl ihr =>
    rw [Tree.map, Tree.map, ihl fun a ha => h a (mem_append_left _ ha),
      ihr fun a ha => h a (mem_append_right _ ha)]

end Phrases

end Xv6.Sh
