import Mathlib
import Xv6Kernel.Lib.Words

/-!
# `grep` (`grep.c`): the pattern matcher and the loop over lines

`grep` prints the lines of its input that `match(pattern, line)` accepts, with the matcher of
Kernighan and Pike, which knows `^`, `.`, `*` and `$`.  A pattern is a sequence of atoms, each a
character or `.` (any character), alone or followed by `*` (any number of them), then perhaps
`$` (the end of the text); a leading `^` ties the match to the start of the text.  Any other
character, and `^` or `$` elsewhere, stands for itself.

A C string is the list of its characters before the terminating `NUL`.

* `Pattern.ofString` : the pattern that the characters of `re` spell, as `match` reads them;
  `Pattern.lang` : the language of its atoms, in Mathlib's `Language Char`;
* `matchstar_iff` : `matchstar(c, re, text)` skips characters that `c` accepts, then tries `re`;
* `matchhere_iff` : `matchhere(re, text)` holds exactly when a prefix of `text` is in the
  language of `re`, and for a trailing `$` the whole of it;
* `match_iff` : `match(re, text)` holds exactly when the pattern occurs in `text`.

The loop of `grep` reads its input into `char buf[1024]`, cuts what the buffer holds at each
newline with `strchr`, and moves the bytes after the last newline to the front of `buf` before the
next `read`.  `grep` runs it over a schedule of `read`s, the `i`-th finding `sizes[i]` bytes ready:
a file has all its bytes ready, a pipe those its writer has written so far.

* `grepLoop_lines` : the invariant of the loop: `buf` holds the start of a line;
* `grep_lines` : when every `read` gets all it asks for, as from a file, and no line is longer than
  1022 bytes, `grep` writes exactly the lines that `match` accepts, each with its newline;
* `grep_drops_line_start` : a first `read` that ends before the first newline is lost, and the rest
  of that line is matched as a line of its own.  The test `p == buf`, which empties a buffer that
  one line fills, holds as well after a `read` that returned a short start of a line.
-/

namespace Xv6Kernel

namespace Grep

open Computability

/-! ### The matcher -/

/-- `matchstar(c, re, text)`, with `here` the test `matchhere(re, ·)`: a `*` matches zero or more
instances of `c` before `re`. -/
def matchstar (c : Char) (here : List Char → Bool) : List Char → Bool
  | [] => here []
  | t :: text => here (t :: text) || ((t == c || c == '.') && matchstar c here text)

/-- `matchhere(re, text)`: search for `re` at the beginning of `text`. -/
def matchhere : List Char → List Char → Bool
  | [], _ => true
  | c :: '*' :: re, text => matchstar c (matchhere re) text
  | ['$'], text => text.isEmpty
  | _ :: _, [] => false
  | c :: re, t :: text => (c == '.' || c == t) && matchhere re text

/-- The loop of `match`, which tries `re` at each position of `text`, its end included. -/
def matchLoop (re : List Char) : List Char → Bool
  | [] => matchhere re []
  | t :: text => matchhere re (t :: text) || matchLoop re text

/-- `match(re, text)`. -/
def matchRe : List Char → List Char → Bool
  | '^' :: re, text => matchhere re text
  | re, text => matchLoop re text

/-! ### What a pattern means -/

/-- An atom of a pattern: a character, or `.` for any character. -/
inductive Atom
  | char (c : Char)
  | any
  deriving DecidableEq

/-- The atom that a pattern character stands for. -/
def Atom.ofChar (c : Char) : Atom := if c = '.' then .any else .char c

/-- The characters an atom matches. -/
def Atom.accepts : Atom → Char → Prop
  | .char c, t => t = c
  | .any, _ => True

/-- An atom alone, or starred. -/
inductive Item
  | one (a : Atom)
  | star (a : Atom)

/-- A pattern: perhaps tied to the start of the text, atoms, perhaps tied to its end. -/
structure Pattern where
  atStart : Bool
  items : List Item
  atEnd : Bool

/-- The atoms and the trailing `$` of a pattern without its `^`, as `matchhere` reads them:
`c*` is a starred atom, `$` alone at the end ties the pattern to the end of the text. -/
def parse : List Char → List Item × Bool
  | [] => ([], false)
  | c :: '*' :: re => (.star (.ofChar c) :: (parse re).1, (parse re).2)
  | ['$'] => ([], true)
  | c :: re => (.one (.ofChar c) :: (parse re).1, (parse re).2)

/-- The pattern that the characters of `re` spell. -/
def Pattern.ofString : List Char → Pattern
  | '^' :: re => ⟨true, (parse re).1, (parse re).2⟩
  | re => ⟨false, (parse re).1, (parse re).2⟩

/-- The words an item matches. -/
def Item.lang : Item → Language Char
  | .one a => Words.letters a.accepts
  | .star a => (Words.letters a.accepts)∗

/-- The words the atoms of a pattern match, one after another. -/
def langOf (items : List Item) : Language Char := (items.map Item.lang).prod

/-- The language of a pattern's atoms. -/
def Pattern.lang (p : Pattern) : Language Char := langOf p.items

/-- The atoms `items`, then `$` when `atEnd`, match at the beginning of `text`: a prefix of it is
in their language, the whole of it for `$`. -/
def Here (items : List Item) (atEnd : Bool) (text : List Char) : Prop :=
  ∃ u v, text = u ++ v ∧ u ∈ langOf items ∧ (atEnd = true → v = [])

/-- The pattern occurs in `text`: a part of it is in the pattern's language, at the start for
`^` and at the end for `$`. -/
def Pattern.Occurs (p : Pattern) (text : List Char) : Prop :=
  ∃ pre u v, text = pre ++ u ++ v ∧ (p.atStart = true → pre = []) ∧ u ∈ p.lang ∧
    (p.atEnd = true → v = [])

/-! ### The meaning of a pattern, atom by atom -/

theorem accepts_ofChar {c t : Char} : (Atom.ofChar c).accepts t ↔ t = c ∨ c = '.' := by
  unfold Atom.ofChar
  split_ifs with h <;> simp [Atom.accepts, h]

theorem langOf_cons (i : Item) (items : List Item) : langOf (i :: items) = i.lang * langOf items := by
  simp [langOf]

/-- With no atoms left, a pattern matches the empty prefix, and only the empty text for `$`. -/
theorem here_nil {atEnd : Bool} {text : List Char} : Here [] atEnd text ↔ (atEnd = true → text = []) := by
  simp only [Here, langOf, List.map_nil, List.prod_nil, Language.mem_one]
  constructor
  · rintro ⟨u, v, rfl, rfl, hv⟩
    simpa using hv
  · intro h
    exact ⟨[], text, rfl, rfl, h⟩

/-- An atom alone matches the first character. -/
theorem here_one {a : Atom} {items : List Item} {atEnd : Bool} {text : List Char} :
    Here (.one a :: items) atEnd text ↔
      ∃ t rest, text = t :: rest ∧ a.accepts t ∧ Here items atEnd rest := by
  simp only [Here, langOf_cons, Item.lang, Language.mem_mul, Words.mem_letters]
  constructor
  · rintro ⟨u, v, rfl, ⟨x, ⟨t, ht, rfl⟩, y, hy, rfl⟩, hv⟩
    exact ⟨t, y ++ v, rfl, ht, y, v, rfl, hy, hv⟩
  · rintro ⟨t, rest, rfl, ht, u, v, rfl, hu, hv⟩
    exact ⟨t :: u, v, rfl, ⟨[t], ⟨t, ht, rfl⟩, u, hu, rfl⟩, hv⟩

/-- A starred atom matches a run of characters it accepts. -/
theorem here_star {a : Atom} {items : List Item} {atEnd : Bool} {text : List Char} :
    Here (.star a :: items) atEnd text ↔
      ∃ w rest, text = w ++ rest ∧ (∀ t ∈ w, a.accepts t) ∧ Here items atEnd rest := by
  simp only [Here, langOf_cons, Item.lang, Language.mem_mul, Words.mem_kstar_letters]
  constructor
  · rintro ⟨u, v, rfl, ⟨w, hw, y, hy, rfl⟩, hv⟩
    exact ⟨w, y ++ v, by simp, hw, y, v, rfl, hy, hv⟩
  · rintro ⟨w, rest, rfl, hw, u, v, rfl, hu, hv⟩
    exact ⟨w ++ u, v, by simp, ⟨w, hw, u, hu, rfl⟩, hv⟩

/-! ### The matcher decides the meaning -/

/-- **`matchstar(c, re, text)`** holds exactly when, after a run of characters that `c` accepts,
`matchhere(re, ·)` holds of the rest. -/
theorem matchstar_iff {c : Char} {here : List Char → Bool} : ∀ {text : List Char},
    matchstar c here text = true ↔
      ∃ w rest, text = w ++ rest ∧ (∀ t ∈ w, (Atom.ofChar c).accepts t) ∧ here rest = true
  | [] => by simp [matchstar]
  | t :: text => by
    rw [matchstar, Bool.or_eq_true, Bool.and_eq_true, matchstar_iff]
    constructor
    · rintro (h | ⟨hc, w, rest, rfl, hw, hr⟩)
      · exact ⟨[], t :: text, rfl, by simp, h⟩
      · refine ⟨t :: w, rest, rfl, ?_, hr⟩
        -- `*text++ == c || c == '.'`: the character the loop skips is one that `c` accepts
        have ht : (Atom.ofChar c).accepts t := accepts_ofChar.2 (by simpa using hc)
        simpa [ht] using hw
    · rintro ⟨w, rest, he, hw, hr⟩
      cases w with
      | nil =>
        rw [List.nil_append] at he
        exact .inl (he ▸ hr)
      | cons a w =>
        obtain ⟨rfl, rfl⟩ := List.cons_eq_cons.1 he
        have ha := accepts_ofChar.1 (hw _ List.mem_cons_self)
        exact .inr ⟨by simpa using ha, w, rest, rfl, fun x hx => hw x (List.mem_cons_of_mem _ hx), hr⟩

/-- An atom that is neither starred nor a final `$`. -/
theorem matchhere_one {c : Char} {re : List Char} (hs : ∀ r, re = '*' :: r → False)
    (hd : c = '$' → re = [] → False)
    (ih : ∀ text, matchhere re text = true ↔ Here (parse re).1 (parse re).2 text)
    (text : List Char) :
    matchhere (c :: re) text = true ↔ Here (parse (c :: re)).1 (parse (c :: re)).2 text := by
  rw [parse.eq_4 c re hs hd, here_one]
  cases text with
  | nil => simp [matchhere.eq_4 c re hs hd]
  | cons t text =>
    rw [matchhere.eq_5 c re t text hs hd, Bool.and_eq_true, ih]
    constructor
    · rintro ⟨hc, hh⟩
      exact ⟨t, text, rfl, accepts_ofChar.2 (by simp at hc; tauto), hh⟩
    · rintro ⟨t', rest, he, ht, hh⟩
      obtain ⟨rfl, rfl⟩ := List.cons_eq_cons.1 he
      refine ⟨?_, hh⟩
      rcases accepts_ofChar.1 ht with h | h <;> simp [h]

/-- **`matchhere(re, text)` holds exactly when `re` matches at the beginning of `text`**: a
prefix of `text` is in the language of its atoms, and for a final `$` that prefix is the whole
text.  The induction is on the pattern, as `matchhere` consumes it. -/
theorem matchhere_iff : ∀ (re text : List Char),
    matchhere re text = true ↔ Here (parse re).1 (parse re).2 text
  | [], text => by simp [matchhere, parse, here_nil]
  | [c], text => by
    by_cases hc : c = '$'
    · subst hc
      cases text <;> simp [matchhere, parse, here_nil]
    · exact matchhere_one (by simp) (fun h => absurd h hc) (fun _ => by simp [matchhere, parse, here_nil])
        text
  | c :: d :: re, text => by
    by_cases hd : d = '*'
    · subst hd
      rw [matchhere.eq_2, parse.eq_2, here_star, matchstar_iff]
      simp only [matchhere_iff re]
    · exact matchhere_one (by simpa using hd) (by simp) (matchhere_iff (d :: re)) text

/-- The loop of `match` finds `re` at some position of `text`. -/
theorem matchLoop_iff {re : List Char} : ∀ {text : List Char},
    matchLoop re text = true ↔ ∃ pre suf, text = pre ++ suf ∧ matchhere re suf = true
  | [] => by simp [matchLoop]
  | t :: text => by
    rw [matchLoop, Bool.or_eq_true, matchLoop_iff]
    constructor
    · rintro (h | ⟨pre, suf, rfl, h⟩)
      · exact ⟨[], t :: text, rfl, h⟩
      · exact ⟨t :: pre, suf, rfl, h⟩
    · rintro ⟨pre, suf, he, h⟩
      cases pre with
      | nil =>
        rw [List.nil_append] at he
        exact .inl (he ▸ h)
      | cons a pre =>
        obtain ⟨rfl, rfl⟩ := List.cons_eq_cons.1 he
        exact .inr ⟨pre, suf, rfl, h⟩

/-- A pattern occurs where its atoms match at the beginning of a suffix of the text. -/
theorem occurs_iff {p : Pattern} {text : List Char} :
    p.Occurs text ↔ ∃ pre suf, text = pre ++ suf ∧ (p.atStart = true → pre = []) ∧
      Here p.items p.atEnd suf := by
  constructor
  · rintro ⟨pre, u, v, rfl, hs, hu, hv⟩
    exact ⟨pre, u ++ v, by simp, hs, u, v, rfl, hu, hv⟩
  · rintro ⟨pre, suf, rfl, hs, u, v, rfl, hu, hv⟩
    exact ⟨pre, u, v, by simp, hs, hu, hv⟩

/-- **`match(re, text)` holds exactly when the pattern `re` occurs in `text`**: some part of the
text, a prefix for `^` and a suffix for `$`, is in the language of the pattern's atoms, each a
character or `.`, alone or starred. -/
theorem match_iff (re text : List Char) :
    matchRe re text = true ↔ (Pattern.ofString re).Occurs text := by
  rw [occurs_iff]
  by_cases hre : ∃ r, re = '^' :: r
  · obtain ⟨r, rfl⟩ := hre
    rw [matchRe, matchhere_iff]
    simp [Pattern.ofString]
  · have hre' : ∀ r, re = '^' :: r → False := fun r h => hre ⟨r, h⟩
    rw [matchRe.eq_2 re text hre', Pattern.ofString.eq_2 re hre', matchLoop_iff]
    simp [matchhere_iff]

example : matchRe "^ab*c$".toList "abbbc".toList = true ∧ matchRe "^b".toList "ab".toList = false ∧
    matchRe "x.*z".toList "wxyz!".toList = true := by
  decide

/-! ### The loop of `grep` -/

/-- `strchr(s, c)` (`ulib.c`) on the C string at the front of `s`: the bytes before the first `c`
and those after it, when a `c` comes before the first `NUL`. -/
def strchr (c : Char) : List Char → Option (List Char × List Char)
  | [] => none
  | x :: s =>
    if x = '\x00' then none
    else if x = c then some ([], s)
    else (strchr c s).map fun r => (x :: r.1, r.2)

theorem strchr_length {c : Char} {s line after : List Char} (h : strchr c s = some (line, after)) :
    after.length < s.length := by
  induction s generalizing line with
  | nil => simp [strchr] at h
  | cons x s ih =>
    rw [strchr] at h
    split_ifs at h with h0 hc
    · obtain ⟨-, rfl⟩ := h
      simp
    · obtain ⟨⟨l', a'⟩, hr, he⟩ := Option.map_eq_some_iff.1 h
      obtain ⟨-, rfl⟩ := Prod.mk.inj he
      have : a'.length < s.length := ih hr
      simp only [List.length_cons]
      omega

/-- `strchr(p, '\n')` finds the end of a line without `NUL`. -/
theorem strchr_line {l : List Char} (hn : '\n' ∉ l) (h0 : '\x00' ∉ l) (y : List Char) :
    strchr '\n' (l ++ '\n' :: y) = some (l, y) := by
  induction l with
  | nil => simp [strchr]
  | cons x l ih =>
    simp only [List.mem_cons, not_or] at hn h0
    simp [strchr, Ne.symm h0.1, Ne.symm hn.1, ih hn.2 h0.2]

/-- Without a newline, `strchr(p, '\n')` finds nothing. -/
theorem strchr_none {t : List Char} (hn : '\n' ∉ t) : strchr '\n' t = none := by
  induction t with
  | nil => rfl
  | cons x t ih =>
    simp only [List.mem_cons, not_or] at hn
    simp [strchr, Ne.symm hn.1, ih hn.2]

/-- The inner loop of `grep`, from `p`: each line up to a newline is written out with its newline
when `match` accepts it, and `p` moves past that newline.  Returns what is written and where `p`
stops. -/
def scanLines (pattern p : List Char) : List Char × List Char :=
  match h : strchr '\n' p with
  | none => ([], p)
  | some (line, after) =>
    let r := scanLines pattern after
    ((if matchRe pattern line then line ++ ['\n'] else []) ++ r.1, r.2)
termination_by p.length
decreasing_by exact strchr_length h

/-- One turn of the outer loop of `grep`, after `read` put `chunk` at `buf + m`: what is written,
and the `m` bytes left at the start of `buf` for the next `read`. -/
def grepRead (pattern buf chunk : List Char) : List Char × List Char :=
  let r := scanLines pattern (buf ++ chunk)
  -- `p == buf`: no newline in the whole buffer, which is dropped (`m = 0`); otherwise the bytes
  -- after the last newline move to its start (`m -= p - buf; memmove(buf, p, m)`)
  (r.1, if r.2.length = (buf ++ chunk).length then [] else r.2)

/-- `grep(pattern, fd)` where `fd` holds `input` and the `i`-th `read` finds `sizes[i]` bytes ready:
what `grep` writes to the standard output, with `buf` the `m` bytes kept from the last turn.
`read(fd, buf+m, sizeof(buf)-m-1)` returns at most that many bytes; the loop stops when a `read`
returns none, or after the last of `sizes`. -/
def grepLoop (pattern : List Char) : List ℕ → List Char → List Char → List Char
  | [], _, _ => []
  | k :: sizes, buf, input =>
    -- `char buf[1024]`, whose last byte is kept for the `NUL` that ends the data
    let chunk := input.take (min k (1024 - buf.length - 1))
    if chunk = [] then []
    else
      let r := grepRead pattern buf chunk
      r.1 ++ grepLoop pattern sizes r.2 (input.drop chunk.length)

/-- `grep(pattern, fd)`, which starts with `m = 0`. -/
def grep (pattern : List Char) (sizes : List ℕ) (input : List Char) : List Char :=
  grepLoop pattern sizes [] input

/-- What `grep` should write for `lines`: each line that `match` accepts, with its newline. -/
def selected (pattern : List Char) (lines : List (List Char)) : List Char :=
  (lines.filter (matchRe pattern)).flatMap (· ++ ['\n'])

@[simp] theorem selected_nil (pattern : List Char) : selected pattern [] = [] := rfl

theorem selected_append (pattern : List Char) (L₁ L₂ : List (List Char)) :
    selected pattern (L₁ ++ L₂) = selected pattern L₁ ++ selected pattern L₂ := by
  simp [selected, List.filter_append]

theorem scanLines_of_none {pattern p : List Char} (h : strchr '\n' p = none) :
    scanLines pattern p = ([], p) := by
  rw [scanLines]
  split <;> simp_all

theorem scanLines_of_some {pattern p line after : List Char} (h : strchr '\n' p = some (line, after)) :
    scanLines pattern p = ((if matchRe pattern line then line ++ ['\n'] else []) ++
      (scanLines pattern after).1, (scanLines pattern after).2) := by
  rw [scanLines]
  split <;> simp_all

/-- On whole lines without `NUL`, then a tail without a newline, the inner loop writes the lines
that `match` accepts and stops at the start of the tail. -/
theorem scanLines_lines (pattern : List Char) {lines : List (List Char)} {t : List Char}
    (hl : ∀ l ∈ lines, '\n' ∉ l ∧ '\x00' ∉ l) (ht : '\n' ∉ t) :
    scanLines pattern (lines.flatMap (· ++ ['\n']) ++ t) = (selected pattern lines, t) := by
  induction lines with
  | nil => exact scanLines_of_none (strchr_none ht)
  | cons l lines ih =>
    have hl₀ := hl l List.mem_cons_self
    have h : strchr '\n' ((l :: lines).flatMap (· ++ ['\n']) ++ t) =
        some (l, lines.flatMap (· ++ ['\n']) ++ t) := by
      simpa using strchr_line hl₀.1 hl₀.2 (lines.flatMap (· ++ ['\n']) ++ t)
    rw [scanLines_of_some h, ih fun l' hl' => hl l' (List.mem_cons_of_mem l hl')]
    by_cases hm : matchRe pattern l <;> simp [selected, hm]

/-- One turn on a buffer that holds whole lines `L` then the start `t` of the next: it writes the
lines that `match` accepts and keeps `t`, but drops the buffer when it holds no whole line. -/
theorem grepRead_lines (pattern : List Char) {buf chunk t : List Char} {L : List (List Char)}
    (hL : ∀ l ∈ L, '\n' ∉ l ∧ '\x00' ∉ l) (ht : '\n' ∉ t)
    (h : buf ++ chunk = L.flatMap (· ++ ['\n']) ++ t) :
    grepRead pattern buf chunk = (selected pattern L, if L = [] then [] else t) := by
  rw [grepRead, h, scanLines_lines pattern hL ht]
  cases L with
  | nil => simp
  | cons l L =>
    have hne : ((l :: L).flatMap (· ++ ['\n'])).length ≠ 0 := by simp
    simp only [List.length_append, reduceCtorEq, if_false]
    rw [if_neg (by omega)]

/-- A buffer without a newline is dropped only in the tail: had the `read` filled it, it would hold
1023 bytes of one line; had it not, it would hold the rest of the input. -/
theorem lines_nil_of_dropped {buf rest tail : List Char} {lines : List (List Char)}
    (hl : ∀ l ∈ lines, l.length < 1023) (hn : '\n' ∉ buf)
    (hfull : rest ≠ [] → buf.length = 1023)
    (h : lines.flatMap (· ++ ['\n']) ++ tail = buf ++ rest) : lines = [] := by
  cases lines with
  | nil => rfl
  | cons l ls =>
    by_cases hr : rest = []
    · subst hr
      rw [List.append_nil] at h
      exact absurd (h ▸ List.mem_append_left tail (List.mem_flatMap.2 ⟨l, List.mem_cons_self, by simp⟩)) hn
    · have hle := Words.length_le_of_prefix hn h
      have hl₀ := hl l List.mem_cons_self
      have := hfull hr
      omega

/-- The invariant of the outer loop when each `read` finds at least what it asks for, as from a
file: `buf` holds no newline, and with the bytes still to read it makes whole lines, each short
enough for the buffer, then a tail without a newline.  The loop then writes exactly the lines that
`match` accepts.  The induction is on the `read`s. -/
theorem grepLoop_lines (pattern : List Char) {sizes : List ℕ} (hk : ∀ k ∈ sizes, 1023 ≤ k)
    {buf input tail : List Char} {lines : List (List Char)}
    (hl : ∀ l ∈ lines, '\n' ∉ l ∧ '\x00' ∉ l ∧ l.length < 1023) (ht : '\n' ∉ tail)
    (hb : '\n' ∉ buf) (hbl : buf.length < 1023)
    (h : buf ++ input = lines.flatMap (· ++ ['\n']) ++ tail) (hn : input.length < sizes.length) :
    grepLoop pattern sizes buf input = selected pattern lines := by
  induction sizes generalizing buf input lines tail with
  | nil => simp at hn
  | cons k sizes ih =>
    have hk₀ : 1023 ≤ k := hk k List.mem_cons_self
    have hmin : min k (1024 - buf.length - 1) = 1023 - buf.length := by omega
    rw [grepLoop, hmin]
    by_cases hi : input = []
    · -- `read` returns `0` at the end of the input, and `buf` holds the tail
      subst hi
      have hnil : lines = [] :=
        lines_nil_of_dropped (fun l hl' => (hl l hl').2.2) hb (fun h' => absurd rfl h') h.symm
      simp [hnil]
    · have hc : (input.take (1023 - buf.length)) ≠ [] := by
        simp only [ne_eq, List.take_eq_nil_iff, not_or]
        exact ⟨by omega, hi⟩
      rw [if_neg hc]
      set chunk := input.take (1023 - buf.length) with hchunk
      set rest := input.drop chunk.length with hrest
      have hsplit : lines.flatMap (· ++ ['\n']) ++ tail = (buf ++ chunk) ++ rest := by
        rw [← h, hrest, hchunk, List.length_take, ← List.drop_eq_drop_min, List.append_assoc,
          List.take_append_drop]
      obtain ⟨L₁, L₂, t, rfl, hx, htn, hty⟩ :=
        Words.split_lines (fun l hl' => (hl l hl').1) ht hsplit
      have hL₁ : ∀ l ∈ L₁, '\n' ∉ l ∧ '\x00' ∉ l := fun l hl' =>
        ⟨(hl l (List.mem_append_left L₂ hl')).1, (hl l (List.mem_append_left L₂ hl')).2.1⟩
      have hL₂ : ∀ l ∈ L₂, '\n' ∉ l ∧ '\x00' ∉ l ∧ l.length < 1023 := fun l hl' =>
        hl l (List.mem_append_right L₁ hl')
      have hlen : (buf ++ chunk).length ≤ 1023 := by
        simp only [List.length_append, hchunk, List.length_take]
        omega
      have hrl : rest.length < sizes.length := by
        have : 0 < chunk.length := List.length_pos_iff.2 hc
        have : chunk.length ≤ input.length := List.length_take_le' _ _
        simp only [hrest, List.length_drop]
        simp only [List.length_cons] at hn
        omega
      rw [grepRead_lines pattern hL₁ htn hx, selected_append]
      by_cases hL : L₁ = []
      · -- no newline in the buffer: `p == buf`, and it is dropped
        subst hL
        simp only [List.flatMap_nil, List.nil_append] at hx
        subst hx
        have hfull : rest ≠ [] → (buf ++ chunk).length = 1023 := by
          intro hr
          have : 1023 - buf.length ≤ input.length := by
            by_contra hlt
            exact hr (List.drop_eq_nil_of_le (by simp [hchunk]; omega))
          simp [hchunk]
          omega
        have hnil := lines_nil_of_dropped (fun l hl' => (hL₂ l hl').2.2) htn hfull hty.symm
        subst hnil
        have hr : '\n' ∉ rest := by
          intro hm
          have hm' := List.mem_append_right (buf ++ chunk) hm
          rw [hty, List.flatMap_nil, List.nil_append] at hm'
          exact ht hm'
        -- the loop goes on from an empty buffer, in the tail
        have := @ih (fun k hk' => hk k (List.mem_cons_of_mem _ hk')) [] rest rest [] (by simp) hr
          List.not_mem_nil (by simp) (by simp) hrl
        simpa using this
      · -- the lines are written out, and the bytes after the last newline kept
        have htl : t.length < (buf ++ chunk).length := by
          obtain ⟨l, L, rfl⟩ := List.exists_cons_of_ne_nil hL
          rw [hx]
          simp
          omega
        rw [if_neg hL]
        dsimp only
        rw [ih (fun k hk' => hk k (List.mem_cons_of_mem _ hk')) hL₂ ht htn (by omega) hty hrl]

/-- **`grep` on a file writes exactly the lines that `match` accepts.**  When every `read` finds at
least the 1023 bytes it can ask for, as from a file up to its end, and there are more `read`s than
bytes, `grep` on whole lines, each without `NUL` and short enough that it and its newline fit in
`buf`, then a tail without a newline, writes each line that `match` accepts with its newline, in
order.  The tail, which no newline ends, is never written. -/
theorem grep_lines (pattern : List Char) (lines : List (List Char)) (tail : List Char)
    (hl : ∀ l ∈ lines, '\n' ∉ l ∧ '\x00' ∉ l ∧ l.length < 1023) (ht : '\n' ∉ tail)
    (sizes : List ℕ) (hk : ∀ k ∈ sizes, 1023 ≤ k)
    (hn : (lines.flatMap (· ++ ['\n']) ++ tail).length < sizes.length) :
    grep pattern sizes (lines.flatMap (· ++ ['\n']) ++ tail) = selected pattern lines :=
  grepLoop_lines pattern hk hl ht List.not_mem_nil (by simp) rfl hn

/-- `grep 'b$'` on the file `ab\ncd\nxb` writes `ab\n`. -/
theorem grep_lines_file :
    grep "b$".toList (List.replicate 9 1023)
      (["ab".toList, "cd".toList].flatMap (· ++ ['\n']) ++ "xb".toList) = "ab\n".toList := by
  rw [grep_lines _ _ _ (by decide) (by decide) _ (by decide) (by decide)]
  decide

/-- **A `read` that ends before the first newline loses what it read.**  When the first `read`
returns bytes without a newline, be it because fewer were ready (a pipe whose writer is in the
middle of a line) or because it filled `buf` (a line of 1023 bytes or more), `p == buf` holds and
`grep` drops them: it goes on as if the input started after them, so that the rest of that line is
matched, and written, as a line of its own. -/
theorem grep_drops_line_start (pattern part rest : List Char) (k : ℕ) (sizes : List ℕ)
    (hpart : part ≠ []) (hn : '\n' ∉ part) (hk : min k 1023 = part.length) :
    grep pattern (k :: sizes) (part ++ rest) = grep pattern sizes rest := by
  have hchunk : (part ++ rest).take (min k (1024 - ([] : List Char).length - 1)) = part := by
    simp [hk]
  have hread : grepRead pattern [] part = ([], []) := by
    simp [grepRead, scanLines_of_none (strchr_none hn)]
  simp only [grep, grepLoop, hchunk, if_neg hpart, hread, List.nil_append, List.drop_left]

/-- `echo abc | grep ^c` can write `c`, which no line of its input is: when the first `read` of
the pipe finds only `ab`, the line `abc` is matched as `c`. -/
theorem grep_drops_line_start_pipe :
    grep "^c".toList [2, 1023, 1023, 1023] ("ab".toList ++ "c\n".toList) = "c\n".toList ∧
      selected "^c".toList ["abc".toList] = [] := by
  rw [grep_drops_line_start _ _ _ _ _ (by decide) (by decide) (by decide)]
  -- what is left of the input is the line `c`, which the next `read` gets whole
  rw [grep, @grepLoop_lines _ [1023, 1023, 1023] (by decide) [] "c\n".toList [] ["c".toList] (by decide)
    (by decide) (by decide) (by decide) (by decide) (by decide)]
  decide

end Grep

end Xv6Kernel
