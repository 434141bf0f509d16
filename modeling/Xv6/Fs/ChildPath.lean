/-
  THE PATH OF A CHILD, as `chperm` builds it (`kernel/fs.c`, `safestrcpy` and `strlen` of
  `kernel/string.c`).

  The code works on an array `char child_path[MAXPATH]`: it copies the path, asks for its length, writes
  a slash after it and copies the entry's name behind that.  `childBuf` does the same on an array with
  bounds: an access outside of it, or a read past the end of `de.name`, has no result.  `childPath` is
  what comes out of it (`childPath_eq`): the path with a slash at its end, and as much of the name as
  there is room for.
-/
import Xv6.Fs.Path
import Xv6.Lib.Cstr

namespace Xv6

open Function Bytes List Option

variable {l : List UInt8} {s : Bytes}

namespace Up

/-! ## The functions of `string.c`, on arrays with bounds -/

/-- The loop of `safestrcpy` from an array `t` of `size` bytes, at position `j`, to an array `s` of `cap`
    bytes, at position `i`. -/
def copyStr (cap : Nat) (t : Bytes) (size : Nat) : Nat → Bytes → Nat → Nat → Option (Bytes × Nat)
  | 0, s, i, _ => some (s, i)
  | n + 1, s, i, j =>
    if cap ≤ i ∨ size ≤ j then none
    else if t j = 0 then some (update s i 0, i + 1)
    else copyStr cap t size n (update s i (t j)) (i + 1) (j + 1)

/-- `safestrcpy(s + i, t, n)`. -/
def safestrcpy (cap : Nat) (s : Bytes) (i : Nat) (t : Bytes) (size n : Nat) : Option Bytes :=
  if n = 0 then some s
  else
    match copyStr cap t size (n - 1) s i 0 with
    | none => none
    | some (s, i) => if cap ≤ i then none else some (update s i 0)

/-- `strlen(s)`: without a NUL in the array there is no answer. -/
def strlen (cap : Nat) (s : Bytes) : Option Nat := (List.range cap).find? fun i => s i == 0

/-- The array `child_path` after `chperm` has built it. -/
def childBuf (path : List UInt8) (name : Bytes) : Option Bytes := do
  let buf ← safestrcpy MAXPATH (fun _ => 0) 0 (ofList path) MAXPATH MAXPATH
  let len ← strlen MAXPATH buf
  if len = 0 then none -- `child_path[len - 1]`
  else if buf (len - 1) ≠ 47 then
    safestrcpy MAXPATH (update buf len 47) (len + 1) name DIRSIZ (MAXPATH - (len + 1))
  else safestrcpy MAXPATH buf len name DIRSIZ (MAXPATH - len)

/-- The string in an array. -/
def cstring (cap : Nat) (s : Bytes) : Option (List UInt8) := (strlen cap s).map (toList s 0)

end Up

/-! ## What they do -/

open Up

/-- The array holds the string `l` and a NUL after it. -/
structure Begins (l : List UInt8) (s : Bytes) : Prop where
  get : ∀ i, (h : i < l.length) → s i = l[i]
  nul : s l.length = 0

theorem Begins.toList (h : Begins l s) : Bytes.toList s 0 l.length = l := by
  refine ext_getElem (length_toList ..) fun i h1 h2 => ?_
  simp only [Bytes.toList, getElem_map, getElem_range, zero_add]
  exact h.get i h2

/-- The first NUL. -/
theorem Begins.strlen (h : Begins l s) (h0 : ∀ c ∈ l, c ≠ 0) {cap : Nat}
    (hcap : l.length < cap) : Up.strlen cap s = some l.length := by
  unfold Up.strlen
  rw [find?_range_eq_some]
  refine ⟨by simpa using h.nul, mem_range.mpr hcap, ?_⟩
  intro j hj
  have hne : s j ≠ 0 := by
    rw [h.get j hj]
    exact h0 _ (getElem_mem hj)
  simpa using hne

theorem Begins.cstring (h : Begins l s) (h0 : ∀ c ∈ l, c ≠ 0) {cap : Nat}
    (hcap : l.length < cap) : Up.cstring cap s = some l := by
  unfold Up.cstring
  rw [h.strlen h0 hcap, map_some, h.toList]

section Copy

variable (cap size : Nat) (t : Bytes)

/-- The loop copies the string, and the NUL if it gets there. -/
theorem copyStr_spec (n : Nat) : ∀ {s : Bytes} {i j : Nat}, i + n < cap →
    (j + n ≤ size ∨ (chars t j n).length < n ∧ j + (chars t j n).length < size) →
    ∃ s' i', copyStr cap t size n s i j = some (s', i') ∧ i' ≤ i + n ∧ (∀ o, o < i → s' o = s o) ∧
      (∀ o, (h : o < (chars t j n).length) → s' (i + o) = (chars t j n)[o]) ∧
      (i' = i + (chars t j n).length ∨
        i' = i + (chars t j n).length + 1 ∧ s' (i + (chars t j n).length) = 0) := by
  induction n with
  | zero =>
    intro s i j _ _
    exact ⟨s, i, rfl, le_rfl, fun _ _ => rfl, fun o h => absurd h (Nat.not_lt_zero _), .inl rfl⟩
  | succ n ih =>
    intro s i j hcap hsize
    rw [copyStr, if_neg (by omega)]
    have hs := chars_succ t j n
    by_cases h0 : t j = 0
    · rw [if_pos h0] at hs ⊢
      rw [hs]
      refine ⟨_, _, rfl, by omega, fun o ho => update_of_ne (by omega) .., ?_, ?_⟩
      · intro o h
        exact absurd h (Nat.not_lt_zero _)
      · exact .inr ⟨rfl, update_self ..⟩
    · rw [if_neg h0] at hs ⊢
      rw [hs] at hsize ⊢
      rw [length_cons] at hsize
      obtain ⟨s', i', hrun, hle, hbelow, hget, hend⟩ :=
        ih (s := update s i (t j)) (i := i + 1) (j := j + 1) (by omega) (by omega)
      refine ⟨s', i', hrun, by omega, ?_, ?_, ?_⟩
      · intro o ho
        rw [hbelow o (by omega), update_of_ne (by omega)]
      · grind
      · grind

/-- A source without a NUL is read past its end. -/
theorem copyStr_none (n : Nat) : ∀ {s : Bytes} {i j : Nat}, j ≤ size →
    (chars t j (size - j)).length = size - j → size - j < n → copyStr cap t size n s i j = none := by
  induction n with
  | zero => intro s i j _ _ h; omega
  | succ n ih =>
    intro s i j hj hfull hn
    rw [copyStr]
    by_cases hend : cap ≤ i ∨ size ≤ j
    · rw [if_pos hend]
    · rw [if_neg hend]
      obtain ⟨m, hm⟩ : ∃ m, size - j = m + 1 := ⟨size - j - 1, by omega⟩
      rw [hm, chars_succ] at hfull
      by_cases h0 : t j = 0
      · rw [if_pos h0] at hfull
        exact absurd hfull (Nat.zero_ne_add_one m)
      · grind

/-- **`safestrcpy`** puts the string, cut to `n - 1` characters, after what is there. -/
theorem safestrcpy_spec {n : Nat} (hl : ∀ o, (h : o < l.length) → s o = l[o])
    (hn : 0 < n) (hcap : l.length + n ≤ cap)
    (hsize : n - 1 ≤ size ∨ (chars t 0 (n - 1)).length < n - 1 ∧ (chars t 0 (n - 1)).length < size) :
    ∃ s', safestrcpy cap s l.length t size n = some s' ∧ Begins (l ++ chars t 0 (n - 1)) s' := by
  obtain ⟨s', i', hrun, hle, hbelow, hget, hend⟩ :=
    copyStr_spec cap size t (n - 1) (s := s) (i := l.length) (j := 0) (by omega) (by simpa using hsize)
  refine ⟨update s' i' 0, ?_, ?_, ?_⟩
  · rw [safestrcpy, if_neg (by omega), hrun]
    dsimp only
    rw [if_neg (by omega)]
  · grind
  · grind

end Copy

/-! ## The child's path -/

/-- The path, with a slash at its end. -/
def withSlash (path : List UInt8) : List UInt8 :=
  if path.getLast? = some 47 then path else path ++ [47]

/-- The characters there is room for behind the path. -/
def roomAfter (path : List UInt8) : Nat := MAXPATH - 1 - (withSlash path).length

/-- `de.name`, as a string. -/
def nameOf (name : Bytes) : Name := chars name 0 DIRSIZ

theorem withSlash_ne_zero {path : List UInt8} (h0 : ∀ c ∈ path, c ≠ 0) : ∀ c ∈ withSlash path, c ≠ 0 := by
  intro c hc
  unfold withSlash at hc
  split at hc
  · exact h0 c hc
  · rcases mem_append.mp hc with hc | hc
    · exact h0 c hc
    · rw [mem_singleton.mp hc]
      decide

/-- `childPath`, without the steps. -/
theorem childPath_iff {path c : List UInt8} {name : Bytes} : childPath path name = some c ↔
    path ≠ [] ∧ (withSlash path).length < MAXPATH ∧
      ((nameOf name).length < DIRSIZ ∨ roomAfter path ≤ DIRSIZ) ∧
      c = withSlash path ++ (nameOf name).take (roomAfter path) := by
  have hle := length_chars_le name 0 DIRSIZ
  cases hlast : path.getLast? with
  | none =>
    obtain rfl := getLast?_eq_none_iff.mp hlast
    exact iff_of_false (fun h => some_ne_none _ h.symm) fun h => h.1 rfl
  | some d =>
    have hne : path ≠ [] := by
      rintro rfl
      cases hlast
    have hslash : (if slash d then path else path ++ [47]) = withSlash path := by
      unfold withSlash slash
      rw [hlast]
      simp
    unfold childPath
    rw [hlast]
    dsimp only
    rw [hslash]
    show (if _ then none else if (nameOf name).length = DIRSIZ ∧ DIRSIZ < roomAfter path then none
      else some (withSlash path ++ (nameOf name).take (roomAfter path))) = some c ↔ _
    have hle : (nameOf name).length ≤ DIRSIZ := hle
    by_cases hlong : MAXPATH ≤ (withSlash path).length
    · rw [if_pos hlong]
      exact iff_of_false (fun h => some_ne_none _ h.symm) fun h => by omega
    rw [if_neg hlong]
    by_cases hover : (nameOf name).length = DIRSIZ ∧ DIRSIZ < roomAfter path
    · rw [if_pos hover]
      exact iff_of_false (fun h => some_ne_none _ h.symm) fun h => by omega
    · grind

/-- The second half of `childBuf`: the name behind the path. -/
theorem append_name {name : Bytes} (h0 : ∀ c ∈ l, c ≠ 0)
    (hl : ∀ o, (h : o < l.length) → s o = l[o]) (hlen : l.length < MAXPATH) :
    (safestrcpy MAXPATH s l.length name DIRSIZ (MAXPATH - l.length)).bind (cstring MAXPATH) =
      if (nameOf name).length = DIRSIZ ∧ DIRSIZ < MAXPATH - 1 - l.length then none
      else some (l ++ (nameOf name).take (MAXPATH - 1 - l.length)) := by
  have hn : MAXPATH - l.length - 1 = MAXPATH - 1 - l.length := by omega
  have hle : (nameOf name).length ≤ DIRSIZ := length_chars_le name 0 DIRSIZ
  by_cases hover : (nameOf name).length = DIRSIZ ∧ DIRSIZ < MAXPATH - 1 - l.length
  · rw [if_pos hover, safestrcpy, if_neg (by omega), hn,
      copyStr_none MAXPATH DIRSIZ name _ (Nat.zero_le _) hover.1 hover.2]
    rfl
  · rw [if_neg hover]
    -- what the loop sees of the name is the name, cut
    have hcut : chars name 0 (MAXPATH - 1 - l.length) = (nameOf name).take (MAXPATH - 1 - l.length) := by
      rcases Nat.le_total (MAXPATH - 1 - l.length) DIRSIZ with hroom | hroom
      · exact chars_take name 0 hroom
      · grind [take_of_length_le, nameOf, chars_of_short]
    have hcutlen := congrArg length hcut
    rw [length_take] at hcutlen
    obtain ⟨s', hrun, hholds⟩ := safestrcpy_spec MAXPATH DIRSIZ name hl
      (show 0 < MAXPATH - l.length by omega) (by omega) (by rw [hn]; omega)
    rw [hn, hcut] at hholds
    rw [hrun, bind_some, hholds.cstring]
    · grind [chars_ne_zero]
    · rw [length_append, length_take]
      omega

/-- **The array holds `childPath`.**  Whatever path a system call accepts: where `childPath` has no value,
    the code leaves its arrays or its string has no end. -/
theorem childPath_eq (path : Path) (name : Bytes) :
    childPath path.bytes name = (childBuf path.bytes name).bind (cstring MAXPATH) := by
  obtain ⟨path, h0, hshort⟩ := path
  dsimp only
  have hchars : chars (ofList path) 0 (MAXPATH - 1) = path := chars_ofList h0 (by omega)
  obtain ⟨buf, hrun, hbuf⟩ := safestrcpy_spec MAXPATH MAXPATH (ofList path) (l := []) (s := fun _ => 0)
    (n := MAXPATH) (fun o h => absurd h (Nat.not_lt_zero _)) (by decide) (by simp)
    (.inl (by decide))
  rw [hchars, nil_append] at hbuf
  rw [length_nil] at hrun
  have hlen := hbuf.strlen h0 hshort
  have hbind : childBuf path name = if path.length = 0 then none
      else if buf (path.length - 1) ≠ 47 then safestrcpy MAXPATH (update buf path.length 47)
        (path.length + 1) name DIRSIZ (MAXPATH - (path.length + 1))
      else safestrcpy MAXPATH buf path.length name DIRSIZ (MAXPATH - path.length) := by
    unfold childBuf
    rw [hrun, bind_eq_bind, bind_some, hlen]
    rfl
  rw [hbind]
  cases hlast : path.getLast? with
  | none =>
    obtain rfl := getLast?_eq_none_iff.mp hlast
    rfl
  | some d =>
    have hne : path ≠ [] := by
      rintro rfl
      cases hlast
    have hpos := length_pos_iff.mpr hne
    have hd : buf (path.length - 1) = d := by grind [Begins]
    unfold childPath
    rw [hlast, if_neg (by omega), hd]
    dsimp only
    by_cases hslash : d = 47
    · subst hslash
      rw [if_neg (not_not.mpr rfl), if_pos (show slash 47 = true from rfl), if_neg (by omega)]
      exact (append_name h0 hbuf.get hshort).symm
    · have hnot : ¬ slash d = true := by simpa [slash] using hslash
      rw [if_pos hslash, if_neg hnot]
      -- the slash takes the place of the NUL
      have hget : ∀ o, (h : o < (path ++ [47]).length) →
          update buf path.length 47 o = (path ++ [47])[o] := by grind [Begins]
      have h0' : ∀ c ∈ path ++ [47], c ≠ 0 := by grind
      have hl : (path ++ [47]).length = path.length + 1 := length_append
      by_cases hfull : MAXPATH ≤ (path ++ [47]).length
      · -- nothing is written, and the string has no end
        rw [if_pos hfull]
        have hz : MAXPATH - (path.length + 1) = 0 := by omega
        rw [hz, safestrcpy, if_pos rfl, bind_some, cstring, Up.strlen, find?_eq_none.mpr]
        · rfl
        · grind
      · rw [if_neg hfull, ← hl]
        exact (append_name h0' hget (by omega)).symm

end Xv6
