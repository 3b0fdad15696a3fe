import Mathlib.Data.List.DropRight
import Mathlib.Data.List.Infix

/-!
# Text — strings with byte offsets

A string slice is a list of characters.  Its offsets are in bytes of UTF-8, as those of the standard
library are, so an offset can miss a character boundary; a slice at such an offset is `none`.

Whitespace is the Unicode property `White_Space`.
-/

namespace Jstd
namespace Foundation

abbrev Str : Type :=
  List Char

namespace Str

/-! ## Bytes -/

/-- The number of bytes. -/
def len : Str → Nat
  | [] => 0
  | c :: s => c.utf8Size + len s

/-- `&s[..i]`. -/
def sliceTo : Str → Nat → Option Str
  | _, 0 => some []
  | [], _ + 1 => none
  | c :: s, i + 1 =>
      if c.utf8Size ≤ i + 1 then (sliceTo s (i + 1 - c.utf8Size)).map (c :: ·) else none

/-- `&s[i..]`. -/
def sliceFrom : Str → Nat → Option Str
  | s, 0 => some s
  | [], _ + 1 => none
  | c :: s, i + 1 => if c.utf8Size ≤ i + 1 then sliceFrom s (i + 1 - c.utf8Size) else none

/-- `&s[i..j]`. -/
def slice (s : Str) (i j : Nat) : Option Str :=
  if i ≤ j then (sliceTo s j).bind fun s => sliceFrom s i else none

/-- The offset of the first character that satisfies `p`. -/
def find (p : Char → Bool) : Str → Option Nat
  | [] => none
  | c :: s => if p c then some 0 else (find p s).map (· + c.utf8Size)

@[simp] theorem len_nil : len [] = 0 := rfl

@[simp] theorem len_cons (c : Char) (s : Str) : len (c :: s) = c.utf8Size + len s := rfl

@[simp] theorem len_append (s t : Str) : len (s ++ t) = len s + len t := by
  induction s with
  | nil => rw [List.nil_append, len_nil, Nat.zero_add]
  | cons c s ih => rw [List.cons_append, len_cons, len_cons, ih, Nat.add_assoc]

theorem length_le_len (s : Str) : s.length ≤ len s := by
  induction s with
  | nil => exact Nat.le_refl 0
  | cons c s ih =>
      have hpos := c.utf8Size_pos
      rw [List.length_cons, len_cons]
      omega

theorem len_eq_zero_iff {s : Str} : len s = 0 ↔ s = [] := by
  constructor
  · intro h
    have hlen := length_le_len s
    rw [h, Nat.le_zero] at hlen
    exact List.eq_nil_of_length_eq_zero hlen
  · rintro rfl
    rfl

/-- An offset that is the length of a prefix is a boundary. -/
theorem sliceTo_append (s t : Str) : sliceTo (s ++ t) (len s) = some s := by
  induction s with
  | nil =>
      rw [len_nil, sliceTo]
  | cons c s ih =>
      -- A character has at least one byte, so the offset is a successor.
      obtain ⟨i, hi⟩ := Nat.exists_eq_add_of_le' c.utf8Size_pos
      have hlen : len (c :: s) = i + len s + 1 := by
        rw [len_cons, hi]
        omega
      rw [hlen, List.cons_append, sliceTo, if_pos (by omega),
        show i + len s + 1 - c.utf8Size = len s by omega, ih]
      rfl

theorem sliceFrom_append (s t : Str) : sliceFrom (s ++ t) (len s) = some t := by
  induction s with
  | nil =>
      rw [len_nil, sliceFrom]
      rfl
  | cons c s ih =>
      obtain ⟨i, hi⟩ := Nat.exists_eq_add_of_le' c.utf8Size_pos
      have hlen : len (c :: s) = i + len s + 1 := by
        rw [len_cons, hi]
        omega
      rw [hlen, List.cons_append, sliceFrom, if_pos (by omega),
        show i + len s + 1 - c.utf8Size = len s by omega, ih]

theorem slice_append (s t u : Str) : slice (s ++ t ++ u) (len s) (len s + len t) = some t := by
  rw [slice, if_pos (Nat.le_add_right _ _), ← len_append, sliceTo_append]
  exact sliceFrom_append s t

/-- Where `find` stops is the end of the characters it passes over. -/
theorem find_getD (p : Char → Bool) (s : Str) :
    (find p s).getD (len s) = len (s.takeWhile fun c => !p c) := by
  induction s with
  | nil => rfl
  | cons c s ih =>
      rw [find, List.takeWhile_cons]
      -- A character that is passed over adds its bytes to the offset.
      cases hc : p c with
      | true => rfl
      | false =>
          rw [if_neg Bool.false_ne_true, Bool.not_false, if_pos rfl, len_cons, len_cons, ← ih]
          cases find p s with
          | none => rfl
          | some i => exact Nat.add_comm i _

/-! ## Whitespace -/

/-- `char::is_whitespace`. -/
def isWhitespace (c : Char) : Bool :=
  (0x09 ≤ c.toNat && c.toNat ≤ 0x0D) || c.toNat == 0x20 || c.toNat == 0x85 || c.toNat == 0xA0 ||
    c.toNat == 0x1680 || (0x2000 ≤ c.toNat && c.toNat ≤ 0x200A) || c.toNat == 0x2028 ||
    c.toNat == 0x2029 || c.toNat == 0x202F || c.toNat == 0x205F || c.toNat == 0x3000

def trim (s : Str) : Str :=
  (s.dropWhile isWhitespace).rdropWhile isWhitespace

/-- Nothing but whitespace. -/
def Blank (s : Str) : Prop :=
  ∀ c ∈ s, isWhitespace c = true

/-- No whitespace at either end. -/
structure Tight (s : Str) : Prop where
  head : ∀ c ∈ s.head?, isWhitespace c = false
  last : ∀ c ∈ s.getLast?, isWhitespace c = false

theorem exists_trim (s : Str) : ∃ pre post, s = pre ++ trim s ++ post ∧ Blank pre ∧ Blank post := by
  refine ⟨s.takeWhile isWhitespace, (s.dropWhile isWhitespace).rtakeWhile isWhitespace, ?_, ?_, ?_⟩
  · rw [trim, List.append_assoc, List.rdropWhile_append_rtakeWhile, List.takeWhile_append_dropWhile]
  · exact fun c hc => List.mem_takeWhile_imp hc
  · exact fun c hc => List.mem_rtakeWhile_imp hc

theorem trim_tight (s : Str) : Tight (trim s) where
  head := by
    intro c hc
    -- Cutting the end leaves the first character in place.
    obtain ⟨rest, hrest⟩ := List.rdropWhile_prefix isWhitespace (s.dropWhile isWhitespace)
    have hhead : (s.dropWhile isWhitespace).head? = some c := by
      rw [trim] at hc
      rw [← hrest, List.head?_append, Option.mem_def.1 hc]
      rfl
    have := List.head?_dropWhile_not isWhitespace s
    rw [hhead] at this
    simpa using this
  last := by
    intro c hc
    rw [trim] at hc
    have hne : (s.dropWhile isWhitespace).rdropWhile isWhitespace ≠ [] := by
      intro h
      rw [h] at hc
      cases hc
    have hlast := List.rdropWhile_last_not isWhitespace (s.dropWhile isWhitespace) hne
    rw [List.getLast?_eq_some_getLast hne] at hc
    cases hc
    simpa using hlast

theorem trim_of_tight {s : Str} (h : Tight s) : trim s = s := by
  have hdrop : s.dropWhile isWhitespace = s := by
    cases s with
    | nil => rfl
    | cons c s => rw [List.dropWhile_cons_of_neg (by simp [h.head c rfl])]
  rw [trim, hdrop, List.rdropWhile_eq_self_iff]
  intro hne
  simp [h.last _ (List.getLast?_eq_some_getLast hne)]

theorem trim_eq_nil_iff {s : Str} : trim s = [] ↔ Blank s := by
  rw [trim, List.rdropWhile_eq_nil_iff]
  constructor
  · intro h c hc
    rw [← List.takeWhile_append_dropWhile (p := isWhitespace) (l := s), List.mem_append] at hc
    rcases hc with hc | hc
    · exact List.mem_takeWhile_imp hc
    · exact h c hc
  · intro h c hc
    exact h c ((List.dropWhile_sublist isWhitespace).subset hc)

/-- Whitespace around a text does not show in its trimmed form. -/
theorem trim_pad {pre post : Str} (hpre : Blank pre) (s : Str) (hpost : Blank post) :
    trim (pre ++ s ++ post) = trim s := by
  -- The end of a text is the beginning of its reverse.
  have hend : ∀ t : Str, (t ++ post).rdropWhile isWhitespace = t.rdropWhile isWhitespace := by
    intro t
    rw [List.rdropWhile, List.reverse_append,
      List.dropWhile_append_of_pos fun c hc => hpost c (List.mem_reverse.1 hc), List.rdropWhile]
  rw [trim, List.append_assoc, List.dropWhile_append_of_pos hpre, List.dropWhile_append]
  split
  · -- The text is blank, and so is what comes after it.
    rename_i hnil
    rw [trim, List.isEmpty_iff.1 hnil, ← List.nil_append (List.dropWhile isWhitespace post),
      List.rdropWhile_nil, List.nil_append, List.rdropWhile_eq_nil_iff]
    exact fun c hc => hpost c ((List.dropWhile_sublist isWhitespace).subset hc)
  · rw [hend, trim]

theorem trim_ne_nil {s : Str} (h : ¬ Blank s) : trim s ≠ [] := fun hnil => h (trim_eq_nil_iff.1 hnil)

/-! ## Patterns -/

/-- `starts_with` and `ends_with`, of a character. -/
def startsWith (s : Str) (c : Char) : Bool :=
  s.head? == some c

def endsWith (s : Str) (c : Char) : Bool :=
  s.getLast? == some c

/-- The text before the first occurrence of `pat` and the text after it. -/
def splitOnce (pat : Str) : Str → Option (Str × Str)
  | [] => if pat = [] then some ([], []) else none
  | c :: s =>
      if pat <+: c :: s then some ([], (c :: s).drop pat.length)
      else (splitOnce pat s).map fun parts => (c :: parts.1, parts.2)

/-- `s` is `l`, then the first occurrence of `pat`, then `r`. -/
structure SplitsAt (pat s l r : Str) : Prop where
  eq : s = l ++ pat ++ r
  first : ∀ l' r', s = l' ++ pat ++ r' → l.length ≤ l'.length

theorem SplitsAt.unique {pat s l r l' r' : Str} (h : SplitsAt pat s l r)
    (h' : SplitsAt pat s l' r') : l = l' ∧ r = r' := by
  -- Two first occurrences start at the same place.
  have hlen := Nat.le_antisymm (h.first l' r' h'.eq) (h'.first l r h.eq)
  have heq : l ++ (pat ++ r) = l' ++ (pat ++ r') := by
    rw [← List.append_assoc, ← List.append_assoc, ← h.eq, ← h'.eq]
  obtain ⟨rfl, htail⟩ := List.append_inj heq hlen
  exact ⟨rfl, List.append_cancel_left htail⟩

theorem splitOnce_spec (pat s : Str) :
    (∃ l r, splitOnce pat s = some (l, r) ∧ SplitsAt pat s l r) ∨
      splitOnce pat s = none ∧ ¬ pat <:+: s := by
  induction s with
  | nil =>
      by_cases hpat : pat = []
      · subst hpat
        exact .inl ⟨[], [], rfl, rfl, fun _ _ _ => Nat.zero_le _⟩
      · refine .inr ⟨by rw [splitOnce, if_neg hpat], fun h => hpat (List.infix_nil.1 h)⟩
  | cons c s ih =>
      rw [splitOnce]
      -- The pattern starts here, or every occurrence starts later.
      by_cases hpat : pat <+: c :: s
      · rw [if_pos hpat]
        refine .inl ⟨[], _, rfl, ?_, fun _ _ _ => Nat.zero_le _⟩
        rw [List.nil_append]
        exact (List.prefix_iff_eq_append.1 hpat).symm
      · rw [if_neg hpat]
        rcases ih with ⟨l, r, hsplit, h⟩ | ⟨hsplit, h⟩
        · rw [hsplit]
          refine .inl ⟨c :: l, r, rfl, ?_, fun l' r' h' => ?_⟩
          · rw [List.cons_append, List.cons_append, ← h.eq]
          · cases l' with
            | nil => exact absurd ⟨r', h'.symm⟩ hpat
            | cons d l' =>
                rw [List.cons_append, List.cons_append, List.cons.injEq] at h'
                exact Nat.succ_le_succ (h.first l' r' h'.2)
        · rw [hsplit]
          exact .inr ⟨rfl, fun hinfix => (List.infix_cons_iff.1 hinfix).elim hpat h⟩

theorem splitOnce_eq_some_iff {pat s l r : Str} :
    splitOnce pat s = some (l, r) ↔ SplitsAt pat s l r := by
  rcases splitOnce_spec pat s with ⟨l', r', hsplit, h⟩ | ⟨hsplit, h⟩
  · rw [hsplit, Option.some.injEq, Prod.mk.injEq]
    constructor
    · rintro ⟨rfl, rfl⟩
      exact h
    · exact fun h' => h.unique h'
  · rw [hsplit]
    constructor
    · intro h'
      cases h'
    · exact fun h' => absurd ⟨l, r, h'.eq.symm⟩ h

theorem splitOnce_eq_none_iff {pat s : Str} : splitOnce pat s = none ↔ ¬ pat <:+: s := by
  rcases splitOnce_spec pat s with ⟨l, r, hsplit, h⟩ | ⟨hsplit, h⟩
  · rw [hsplit]
    constructor
    · intro h'
      cases h'
    · exact fun h' => absurd ⟨l, r, h.eq.symm⟩ h'
  · exact iff_of_true hsplit h

/-- Characters that do not occur in the pattern may stand before a text. -/
theorem splitOnce_before {pat : Str} (hpat : pat ≠ []) {pre : Str} (hpre : ∀ c ∈ pre, c ∉ pat)
    (s : Str) :
    splitOnce pat (pre ++ s) = (splitOnce pat s).map fun parts => (pre ++ parts.1, parts.2) := by
  induction pre with
  | nil =>
      rw [List.nil_append]
      exact Option.map_id'.symm
  | cons c pre ih =>
      -- The pattern does not start with a character it does not have.
      have hnot : ¬ pat <+: c :: (pre ++ s) := by
        intro h
        cases pat with
        | nil => exact hpat rfl
        | cons d pat =>
            obtain ⟨rfl, -⟩ := List.cons_prefix_cons.1 h
            exact hpre d List.mem_cons_self List.mem_cons_self
      rw [List.cons_append, splitOnce, if_neg hnot,
        ih fun d hd => hpre d (List.mem_cons_of_mem c hd), Option.map_map]
      rfl

/-- And after it. -/
theorem splitOnce_after {pat : Str} (hpat : pat ≠ []) {post : Str} (hpost : ∀ c ∈ post, c ∉ pat)
    (s : Str) :
    splitOnce pat (s ++ post) = (splitOnce pat s).map fun parts => (parts.1, parts.2 ++ post) := by
  have hnone : ¬ pat <:+: post := by
    intro h
    obtain ⟨c, hc⟩ := List.exists_mem_of_ne_nil pat hpat
    exact hpost c (h.subset hc) hc
  induction s with
  | nil =>
      rw [List.nil_append, splitOnce_eq_none_iff.2 hnone, splitOnce, if_neg hpat]
      rfl
  | cons c s ih =>
      rw [List.cons_append, splitOnce, splitOnce]
      -- A pattern that starts here ends before the new characters.
      by_cases hhead : pat <+: c :: s
      · have hlonger : pat <+: c :: (s ++ post) := hhead.trans (List.prefix_append (c :: s) post)
        rw [if_pos hhead, if_pos hlonger, Option.map_some, ← List.cons_append,
          List.drop_append_of_le_length hhead.length_le]
      · have hshorter : ¬ pat <+: c :: (s ++ post) := by
          intro h
          rcases Nat.le_total pat.length (c :: s).length with hle | hle
          · exact hhead (List.prefix_of_prefix_length_le h (List.prefix_append (c :: s) post) hle)
          · -- What the pattern has beyond `c :: s` would lie in `post`.
            obtain ⟨k, rfl⟩ :=
              List.prefix_of_prefix_length_le (List.prefix_append (c :: s) post) h hle
            have hk : k <+: post := (List.prefix_append_right_inj (c :: s)).1 h
            cases k with
            | nil => exact hhead (by rw [List.append_nil])
            | cons d k =>
                exact hpost d (hk.subset List.mem_cons_self)
                  (List.mem_append_right _ List.mem_cons_self)
        rw [if_neg hhead, if_neg hshorter, ih, Option.map_map, Option.map_map]
        rfl

/-- A text without the pattern, and a character that is not in it, may stand before a text too. -/
theorem splitOnce_skip {pat : Str} (hpat : pat ≠ []) {pre : Str} (hpre : ¬ pat <:+: pre) {c : Char}
    (hc : c ∉ pat) (s : Str) :
    splitOnce pat (pre ++ c :: s) =
      (splitOnce pat s).map fun parts => (pre ++ c :: parts.1, parts.2) := by
  induction pre with
  | nil => exact splitOnce_before hpat (fun d hd => List.mem_singleton.1 hd ▸ hc) s
  | cons d pre ih =>
      have hnot : ¬ pat <+: d :: pre ++ c :: s := by
        intro h
        rcases Nat.lt_or_ge (d :: pre).length pat.length with hlt | hle
        · -- The pattern would reach over `c`.
          obtain ⟨k, rfl⟩ := List.prefix_of_prefix_length_le
            (List.prefix_append (d :: pre) (c :: s)) h (Nat.le_of_lt hlt)
          have hk : k <+: c :: s := (List.prefix_append_right_inj (d :: pre)).1 h
          cases k with
          | nil =>
              rw [List.append_nil] at hlt
              exact Nat.lt_irrefl _ hlt
          | cons e k =>
              obtain ⟨rfl, -⟩ := List.cons_prefix_cons.1 hk
              exact hc (List.mem_append_right _ List.mem_cons_self)
        · exact hpre (List.prefix_of_prefix_length_le h (List.prefix_append _ _) hle).isInfix
      have hrest : ¬ pat <:+: pre := fun h => hpre (h.trans (List.suffix_cons d pre).isInfix)
      rw [List.cons_append] at hnot
      rw [List.cons_append, splitOnce, if_neg hnot, ih hrest, Option.map_map]
      rfl

/-! ## Lines -/

/-- The pieces of a text, each but the last ended by `sep`. -/
def splitInclusive (sep : Char) : Str → List Str
  | [] => []
  | c :: s =>
      if c = sep then [c] :: splitInclusive sep s
      else
        match splitInclusive sep s with
        | [] => [[c]]
        | piece :: pieces => (c :: piece) :: pieces

/-- A line without its line feed, and without the carriage return before that. -/
def stripLineEnd (line : Str) : Str :=
  if line.getLast? = some '\n' then
    if line.dropLast.getLast? = some '\r' then line.dropLast.dropLast else line.dropLast
  else line

def lines (s : Str) : List Str :=
  (splitInclusive '\n' s).map stripLineEnd

theorem lines_length_le (s : Str) : (lines s).length ≤ s.length := by
  rw [lines, List.length_map]
  induction s with
  | nil => exact Nat.le_refl 0
  | cons c s ih =>
      rw [splitInclusive, List.length_cons]
      split
      · exact Nat.succ_le_succ ih
      · split
        · exact Nat.succ_le_succ (Nat.zero_le _)
        · rename_i piece pieces heq
          rw [heq] at ih
          exact Nat.le_succ_of_le ih

theorem splitInclusive_append_sep {sep : Char} {line : Str} (h : sep ∉ line) (s : Str) :
    splitInclusive sep (line ++ sep :: s) = (line ++ [sep]) :: splitInclusive sep s := by
  induction line with
  | nil => rw [List.nil_append, splitInclusive, if_pos rfl, List.nil_append]
  | cons c line ih =>
      rw [List.mem_cons, not_or] at h
      rw [List.cons_append, splitInclusive, if_neg (Ne.symm h.1), ih h.2]
      rfl

theorem splitInclusive_of_notMem {sep : Char} {line : Str} (h : sep ∉ line) (hne : line ≠ []) :
    splitInclusive sep line = [line] := by
  induction line with
  | nil => exact absurd rfl hne
  | cons c line ih =>
      rw [List.mem_cons, not_or] at h
      rw [splitInclusive, if_neg (Ne.symm h.1)]
      cases line with
      | nil => rfl
      | cons d line => rw [ih h.2 (List.cons_ne_nil d line)]

/-- Lines joined by line feeds come apart again, if none ends in a carriage return and none is
empty. -/
theorem lines_intercalate {ls : List Str} (hfeed : ∀ l ∈ ls, '\n' ∉ l)
    (hreturn : ∀ l ∈ ls, l.getLast? ≠ some '\r') (hne : ∀ l ∈ ls, l ≠ []) :
    lines (['\n'].intercalate ls) = ls := by
  -- The last line keeps its end; the others lose the line feed that joins them.
  have hlast : ∀ l ∈ ls, stripLineEnd l = l := by
    intro l hl
    rw [stripLineEnd, if_neg]
    exact fun h => hfeed l hl (List.mem_of_getLast? h)
  have hstrip : ∀ l ∈ ls, stripLineEnd (l ++ ['\n']) = l := by
    intro l hl
    rw [stripLineEnd, List.getLast?_concat, if_pos rfl, List.dropLast_concat,
      if_neg (hreturn l hl)]
  induction ls with
  | nil => rfl
  | cons l ls ih =>
      have hl := List.mem_cons_self (a := l) (l := ls)
      cases ls with
      | nil =>
          rw [List.intercalate_singleton, lines, splitInclusive_of_notMem (hfeed l hl) (hne l hl),
            List.map_singleton, hlast l hl]
      | cons l' ls =>
          have hrest := ih (fun k hk => hfeed k (List.mem_cons_of_mem l hk))
            (fun k hk => hreturn k (List.mem_cons_of_mem l hk))
            (fun k hk => hne k (List.mem_cons_of_mem l hk))
            (fun k hk => hlast k (List.mem_cons_of_mem l hk))
            (fun k hk => hstrip k (List.mem_cons_of_mem l hk))
          rw [lines] at hrest
          rw [List.intercalate_cons_cons, List.append_assoc, List.singleton_append, lines,
            splitInclusive_append_sep (hfeed l hl), List.map_cons, hstrip l hl, hrest]

end Str

/-! ## Numerals -/

theorem toString_nat_inj {n m : Nat} (h : toString n = toString m) : n = m := by
  have hdigits : Nat.toDigits 10 n = Nat.toDigits 10 m := by
    rw [← Nat.toList_repr, ← Nat.toList_repr]
    exact congrArg String.toList h
  calc n
    _ = Nat.ofDigitChars 10 (Nat.toDigits 10 n) 0 :=
        (Nat.ofDigitChars_toDigits (by decide) (by decide)).symm
    _ = Nat.ofDigitChars 10 (Nat.toDigits 10 m) 0 := congrArg (Nat.ofDigitChars 10 · 0) hdigits
    _ = m := Nat.ofDigitChars_toDigits (by decide) (by decide)

end Foundation
end Jstd
