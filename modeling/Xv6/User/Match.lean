/-
  THE MATCHER OF `grep` (`match`, `matchhere`, `matchstar` in `user/grep.c`).

  A C string is the list of its characters.  The functions return 1 or 0; here that is a truth value.

  What a pattern means is said without reference to the matcher.  `parse` reads the pattern from left to right
  as a list of items, and remembers whether it ends in `$`; an item is a character or a starred character, and
  denotes a `Language`; the items in a row denote the product of theirs (`lang`).

  `match_iff_lang` is that the matcher finds exactly what the pattern means, wherever it stands.
-/
import Mathlib.Computability.Language

namespace Xv6.Grep

open List

variable {c : UInt8} {re text : List UInt8}

/-! ## The code -/

/-- `matchstar(c, re, text)`: search for `c*re` at the beginning of `text`; `here` searches for `re`. -/
def matchstar (c : UInt8) (here : List UInt8 → Bool) : List UInt8 → Bool
  | [] => here []
  | t :: text =>
    -- a * matches zero or more instances
    if here (t :: text) then true
    else if t = c ∨ c = 46 then matchstar c here text
    else false

/-- Search for `re` at the beginning of `text`. -/
def matchhere : List UInt8 → List UInt8 → Bool
  | [], _ => true
  | c :: 42 :: re, text => matchstar c (matchhere re) text
  | [36], text => text.isEmpty
  | c :: re, text =>
    match text with
    | [] => false
    | t :: text => if c = 46 ∨ c = t then matchhere re text else false

/-- The loop of `match`, over the ends of the text. -/
def matchAny (re : List UInt8) : List UInt8 → Bool
  -- must look at empty string
  | [] => matchhere re []
  | t :: text => if matchhere re (t :: text) then true else matchAny re text

/-- `match(re, text)`. -/
def matchText (re text : List UInt8) : Bool :=
  match re with
  | 94 :: re => matchhere re text
  | re => matchAny re text

/-! ## What a pattern means -/

/-- A character of the pattern, or one with a star. -/
inductive Item
  | one (c : UInt8)
  | star (c : UInt8)
deriving DecidableEq, Repr

/-- The items of a pattern without `^`, and whether a `$` stands at its end. -/
def parse : List UInt8 → List Item × Bool
  | [] => ([], false)
  | c :: 42 :: re => (.star c :: (parse re).1, (parse re).2)
  | [36] => ([], true)
  | c :: re => (.one c :: (parse re).1, (parse re).2)

/-- One character that `c` stands for. -/
def sym (c : UInt8) : Language UInt8 := {w | ∃ x, w = [x] ∧ (c = 46 ∨ c = x)}

def Item.lang : Item → Language UInt8
  | one c => sym c
  | star c => KStar.kstar (sym c)

/-- What the items stand for, one after the other. -/
def lang (items : List Item) : Language UInt8 := (items.map Item.lang).prod

/-- The text begins with a word of the pattern, and ends there if the pattern ends in `$`. -/
def Begins (re text : List UInt8) : Prop :=
  ∃ w post, text = w ++ post ∧ w ∈ lang (parse re).1 ∧ ((parse re).2 = true → post = [])

/-! ## The matcher finds what the pattern means -/

theorem mem_star_sym {u : List UInt8} : u ∈ (Item.star c).lang ↔ ∀ x ∈ u, c = 46 ∨ c = x := by
  rw [Item.lang, Language.mem_kstar]
  constructor
  · rintro ⟨ws, rfl, hws⟩ x hx
    obtain ⟨w, hw, hxw⟩ := mem_flatten.mp hx
    obtain ⟨y, rfl, hy⟩ := hws w hw
    rw [mem_singleton.mp hxw]
    exact hy
  · intro h
    refine ⟨u.map fun x => [x], ?_, ?_⟩
    · rw [← flatMap_def, flatMap_singleton']
    · intro w hw
      obtain ⟨x, hx, rfl⟩ := mem_map.mp hw
      exact ⟨x, rfl, h x hx⟩

/-- The loop of `matchstar` tries every split. -/
theorem matchstar_iff {here : List UInt8 → Bool} :
    matchstar c here text = true ↔ ∃ u v, text = u ++ v ∧ u ∈ (Item.star c).lang ∧ here v = true := by
  induction text with
  | nil =>
    constructor
    · intro h
      exact ⟨[], [], rfl, Language.nil_mem_kstar _, h⟩
    · rintro ⟨u, v, huv, -, hv⟩
      obtain ⟨rfl, rfl⟩ := append_eq_nil_iff.mp huv.symm
      exact hv
  | cons t text ih =>
    rw [matchstar]
    constructor
    · intro h
      by_cases hhere : here (t :: text) = true
      · exact ⟨[], t :: text, rfl, Language.nil_mem_kstar _, hhere⟩
      rw [if_neg hhere] at h
      by_cases ht : t = c ∨ c = 46
      · grind [mem_star_sym]
      · rw [if_neg ht] at h
        cases h
    · rintro ⟨u, v, huv, hu, hv⟩
      by_cases hhere : here (t :: text) = true
      · rw [if_pos hhere]
      rw [if_neg hhere]
      cases u with
      | nil =>
        rw [nil_append] at huv
        subst huv
        exact absurd hv hhere
      | cons y u =>
        grind [mem_star_sym, mem_cons_self]

theorem mem_lang_cons {i : Item} {items : List Item} {w : List UInt8} :
    w ∈ lang (i :: items) ↔ ∃ a ∈ i.lang, ∃ b ∈ lang items, a ++ b = w := by
  rw [lang, map_cons, prod_cons]
  exact Language.mem_mul

theorem begins_nil (text : List UInt8) : Begins [] text :=
  ⟨[], text, rfl, rfl, fun h => by cases h⟩

/-- A star takes some of the text. -/
theorem begins_star :
    Begins (c :: 42 :: re) text ↔ ∃ u v, text = u ++ v ∧ u ∈ (Item.star c).lang ∧ Begins re v := by
  unfold Begins
  rw [parse]
  constructor
  · rintro ⟨w, post, rfl, hw, hpost⟩
    obtain ⟨u, hu, b, hb, rfl⟩ := mem_lang_cons.mp hw
    exact ⟨u, b ++ post, append_assoc .., hu, b, post, rfl, hb, hpost⟩
  · rintro ⟨u, v, rfl, hu, b, post, rfl, hb, hpost⟩
    exact ⟨u ++ b, post, (append_assoc ..).symm, mem_lang_cons.mpr ⟨u, hu, b, hb, rfl⟩, hpost⟩

theorem begins_dollar : Begins [36] text ↔ text = [] := by
  constructor
  · rintro ⟨w, post, rfl, hw, hpost⟩
    obtain rfl : w = [] := hw
    exact hpost rfl
  · rintro rfl
    exact ⟨[], [], rfl, rfl, fun _ => rfl⟩

/-- A character of the pattern that is neither starred nor the last `$`. -/
theorem begins_one (hstar : ∀ re', re ≠ 42 :: re') (hdollar : c = 36 → re ≠ []) :
    Begins (c :: re) text ↔ ∃ t v, text = t :: v ∧ (c = 46 ∨ c = t) ∧ Begins re v := by
  have hparse : parse (c :: re) = (.one c :: (parse re).1, (parse re).2) := by
    rw [parse]
    · exact hstar
    · exact hdollar
  unfold Begins
  rw [hparse]
  constructor
  · rintro ⟨w, post, rfl, hw, hpost⟩
    obtain ⟨a, ⟨t, rfl, ht⟩, b, hb, rfl⟩ := mem_lang_cons.mp hw
    exact ⟨t, b ++ post, rfl, ht, b, post, rfl, hb, hpost⟩
  · rintro ⟨t, v, rfl, ht, b, post, rfl, hb, hpost⟩
    exact ⟨t :: b, post, rfl, mem_lang_cons.mpr ⟨[t], ⟨t, rfl, ht⟩, b, hb, rfl⟩, hpost⟩

/-- `matchhere` decides whether the text begins with a match. -/
theorem matchhere_iff : matchhere re text = true ↔ Begins re text := by
  -- the cases of the code are the cases of `parse`
  induction re using parse.induct generalizing text with
  | case1 => exact iff_of_true rfl (begins_nil text)
  | case2 c re ih =>
    rw [matchhere, matchstar_iff, begins_star]
    simp only [ih]
  | case3 =>
    rw [matchhere, begins_dollar]
    exact isEmpty_iff
  | case4 c re hstar hdollar ih =>
    rw [begins_one hstar hdollar]
    cases text with
    | nil =>
      grind [matchhere]
    | cons t text =>
      have hhere : matchhere (c :: re) (t :: text) = if c = 46 ∨ c = t then matchhere re text else false := by
        rw [matchhere]
        · exact hstar
        · exact hdollar
      rw [hhere]
      by_cases hc : c = 46 ∨ c = t
      · grind
      · grind

/-- `match` tries every position. -/
theorem matchAny_iff : matchAny re text = true ↔ ∃ pre rest, text = pre ++ rest ∧ Begins re rest := by
  induction text with
  | nil =>
    rw [matchAny, matchhere_iff]
    constructor
    · exact fun h => ⟨[], [], rfl, h⟩
    · rintro ⟨pre, rest, htext, h⟩
      obtain ⟨rfl, rfl⟩ := append_eq_nil_iff.mp htext.symm
      exact h
  | cons t text ih =>
    rw [matchAny]
    by_cases hhere : matchhere re (t :: text) = true
    · rw [if_pos hhere]
      exact iff_of_true rfl ⟨[], t :: text, rfl, matchhere_iff.mp hhere⟩
    · rw [if_neg hhere, ih]
      constructor
      · rintro ⟨pre, rest, rfl, h⟩
        exact ⟨t :: pre, rest, rfl, h⟩
      · rintro ⟨pre, rest, htext, h⟩
        cases pre with
        | nil =>
          rw [nil_append] at htext
          subst htext
          exact absurd (matchhere_iff.mpr h) hhere
        | cons y pre =>
          obtain ⟨rfl, rfl⟩ := cons.inj htext
          exact ⟨pre, rest, rfl, h⟩

/-- The pattern without the `^` at its beginning. -/
def body (re : List UInt8) : List UInt8 := if re.head? = some 94 then re.tail else re

/-- **The matcher is sound and complete.**  For every pattern and every text: `match` returns 1 if and only if
    some substring of the text is in the language of the pattern — one at the beginning if the pattern begins
    with `^`, and at the end if it ends in `$`. -/
theorem match_iff_lang (re text : List UInt8) :
    matchText re text = true ↔ ∃ pre w post, text = pre ++ w ++ post ∧ w ∈ lang (parse (body re)).1 ∧
      (re.head? = some 94 → pre = []) ∧ ((parse (body re)).2 = true → post = []) := by
  by_cases hhat : re.head? = some 94
  · obtain ⟨re', rfl⟩ := head?_eq_some_iff.mp hhat
    rw [show matchText (94 :: re') text = matchhere re' text from rfl, show body (94 :: re') = re' from rfl,
      matchhere_iff]
    constructor
    · rintro ⟨w, post, rfl, hw, hpost⟩
      exact ⟨[], w, post, rfl, hw, fun _ => rfl, hpost⟩
    · rintro ⟨pre, w, post, rfl, hw, hpre, hpost⟩
      obtain rfl := hpre hhat
      exact ⟨w, post, rfl, hw, hpost⟩
  · have hbody : body re = re := if_neg hhat
    have hmatch : matchText re text = matchAny re text := by
      unfold matchText
      split
      · exact absurd rfl hhat
      · rfl
    rw [hmatch, hbody, matchAny_iff]
    constructor
    · rintro ⟨pre, rest, rfl, w, post, rfl, hw, hpost⟩
      exact ⟨pre, w, post, (append_assoc ..).symm, hw, fun h => absurd h hhat, hpost⟩
    · rintro ⟨pre, w, post, rfl, hw, -, hpost⟩
      exact ⟨pre, w ++ post, append_assoc .., w, post, rfl, hw, hpost⟩

/-- `a*b$` stands at the end of `xaab`; `$*`, `*x` and `a$b` have no operator but the star. -/
example : matchText [97, 42, 98, 36] [120, 97, 97, 98] = true ∧ matchText [94, 36, 42, 36] [36, 36] = true ∧
    matchText [94, 42, 120] [42, 120] = true ∧ matchText [97, 36, 98] [97, 36, 98] = true := by decide

end Xv6.Grep
