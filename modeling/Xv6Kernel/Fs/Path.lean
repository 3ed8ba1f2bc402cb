import Mathlib.Data.List.Forall2
import Mathlib.Data.List.TakeWhile
import Xv6Kernel.Lib.Words

/-!
# Path names (`fs.c`: `skipelem`, `namex`)

`skipelem(path, name)` copies the next element of a path into the name buffer and returns the
pointer past it and past the slashes after it, or `0` when no element is left; `namex` calls it
until it returns `0`, looking each element up in the directory reached so far.  A pointer into
the path is the list of characters from it on (memory past the list reads as `0`), and the
buffer `char name[DIRSIZ]` is a function on its `DIRSIZ` positions.  The inodes `namex` walks are
left abstract: `isDir` is the `T_DIR` test after `ilock`, and `dirlookup` is given the name as
`namecmp` reads it.

* `elems path` : the elements of the string at `path`, its maximal non-empty runs of characters
  other than `/` (`Words.words`);
* `skipelem_some`, `skipelem_none` : one call takes the first element off, copies it into the
  buffer (`Copied`) and returns a shorter remainder with no leading `/`; it returns `0` only
  when no element is left;
* `skipelems_elems` : the calls until `0` copy the elements in order, one call per element;
* `namexLoop_lookup`, `namexLoop_parent` : the loop of `namex` looks the elements up one after
  another (`lookup`); with `nameiparent` it stops before the last one and leaves that one in the
  buffer.

Reference counts (`iget`, `idup`, `iput`, `iunlockput`) and the inode locks are not modelled.
-/

namespace Xv6Kernel

namespace Path

/-- `DIRSIZ`: the size of a name in a directory entry. -/
def DIRSIZ : ℕ := 14

/-- `*path`: the character at a pointer; memory past the list reads as `0`. -/
def peek (path : List Char) : Char := path.headD '\x00'

/-- A character of a path element: neither `/` nor the terminating `0`. -/
def inElem (ch : Char) : Bool := ch != '/' && ch != '\x00'

/-- `memmove(name, s, n)` for `n ≤ DIRSIZ`: the first `n` characters of `s` over those of the
buffer. -/
def memmove (name : Fin DIRSIZ → Char) (s : List Char) (n : ℕ) : Fin DIRSIZ → Char :=
  fun i => if (i : ℕ) < n then s.getD i '\x00' else name i

/-- The copy of the element `s`, of length `len`, into the buffer: its first `DIRSIZ` characters
when it is that long, otherwise all of it and a terminating `0`. -/
def copyName (name : Fin DIRSIZ → Char) (s : List Char) (len : ℕ) : Fin DIRSIZ → Char :=
  if len ≥ DIRSIZ then memmove name s DIRSIZ
  else fun i => if (i : ℕ) = len then '\x00' else memmove name s len i

/-- `skipelem(path, name)`: `none` for the `0` it returns when no element is left, otherwise the
pointer past the element and the slashes after it, and the buffer with the element copied in. -/
def skipelem (path : List Char) (name : Fin DIRSIZ → Char) :
    Option (List Char × (Fin DIRSIZ → Char)) :=
  let path := path.dropWhile (· == '/')
  if peek path = '\x00' then none
  else
    let s := path.takeWhile inElem
    let path := path.dropWhile inElem
    some (path.dropWhile (· == '/'), copyName name s s.length)

/-! ### The elements of a path -/

/-- The characters of the string at `path`, before its terminating `0`. -/
def pathString (path : List Char) : List Char := path.takeWhile (· != '\x00')

/-- The elements of the path at `path`: the maximal non-empty runs of characters other than `/`
in its string. -/
def elems (path : List Char) : List (List Char) := Words.words '/' (pathString path)

/-- The name in the buffer as `namecmp` reads it (`strncmp` with `DIRSIZ`): the characters up to
the first `0`, at most `DIRSIZ` of them. -/
def nameStr (name : Fin DIRSIZ → Char) : List Char := (List.ofFn name).takeWhile (· != '\x00')

/-- The buffer holds the element `e` as `skipelem` copies it: its first `DIRSIZ` characters,
followed by a `0` when it is shorter. -/
def Copied (name : Fin DIRSIZ → Char) (e : List Char) : Prop :=
  (∀ i : Fin DIRSIZ, (i : ℕ) < e.length → name i = e.getD i '\x00') ∧
    ∀ i : Fin DIRSIZ, (i : ℕ) = e.length → name i = '\x00'

theorem inElem_eq_false {ch : Char} : inElem ch = false ↔ ch = '/' ∨ ch = '\x00' := by
  simp only [inElem, Bool.and_eq_false_iff, bne_eq_false_iff_eq]

/-- Slashes before a path add no element. -/
theorem elems_dropWhile_slash (path : List Char) :
    elems (path.dropWhile (· == '/')) = elems path := by
  have hs : ∀ ch ∈ path.takeWhile (· == '/'), ch = '/' := fun ch h => by
    simpa using List.mem_takeWhile_imp h
  conv_rhs => rw [← List.takeWhile_append_dropWhile (p := (· == '/')) (l := path)]
  rw [elems, elems, pathString, pathString,
    List.takeWhile_append_of_pos fun ch h => by simp [hs ch h], Words.words_sep_append hs]

/-- A path whose string is over has no element. -/
theorem elems_of_peek {path : List Char} (h : peek path = '\x00') : elems path = [] := by
  cases path with
  | nil => rfl
  | cons a t =>
    have ha : a = '\x00' := h
    simp [elems, pathString, ha]

/-- A path that starts with a character of an element has that element, up to the next `/` or
`0`, first. -/
theorem elems_of_inElem {path : List Char} {ch : Char} (hh : path.head? = some ch)
    (hch : inElem ch = true) :
    elems path = path.takeWhile inElem :: elems (path.dropWhile inElem) := by
  have hall : ∀ x ∈ path.takeWhile inElem, inElem x = true := fun _ h => List.mem_takeWhile_imp h
  have hne : path.takeWhile inElem ≠ [] := by
    obtain ⟨t, rfl⟩ : ∃ t, path = ch :: t := List.head?_eq_some_iff.1 hh
    simp [hch]
  have hslash : '/' ∉ path.takeWhile inElem := fun h => by simpa [inElem] using hall _ h
  have hstr : pathString path = path.takeWhile inElem ++ pathString (path.dropWhile inElem) := by
    conv_lhs => rw [← List.takeWhile_append_dropWhile (p := inElem) (l := path)]
    exact List.takeWhile_append_of_pos fun x h => by
      have := hall x h
      simp_all [inElem]
  -- after the element comes a `/`, or the end of the string
  have hhead : ∀ x ∈ (pathString (path.dropWhile inElem)).head?, x = '/' := by
    intro x hx
    cases hr : path.dropWhile inElem with
    | nil => simp [hr, pathString] at hx
    | cons y t =>
      have hy : inElem y = false := by simpa [hr] using List.head?_dropWhile_not inElem path
      rw [hr, pathString, List.takeWhile_cons] at hx
      rcases inElem_eq_false.1 hy with rfl | rfl
      · simpa using hx.symm
      · simp at hx
  rw [elems, hstr, Words.words_word_append hne hslash hhead]
  rfl

/-- A remainder with no leading `/` has no element exactly when its string is over. -/
theorem elems_eq_nil_iff {path : List Char} (h : path.head? ≠ some '/') :
    elems path = [] ↔ peek path = '\x00' := by
  refine ⟨fun he => ?_, elems_of_peek⟩
  cases path with
  | nil => rfl
  | cons a t =>
    by_contra hp
    have ha : inElem a = true := by
      have ha' : a ≠ '/' := fun h' => h (by rw [h']; rfl)
      simp [inElem, ha', peek] at hp ⊢
      exact hp
    rw [elems_of_inElem rfl ha] at he
    exact List.cons_ne_nil _ _ he

/-! ### One call of `skipelem` -/

/-- The copy holds the element. -/
theorem copied_copyName (name : Fin DIRSIZ → Char) (s : List Char) :
    Copied (copyName name s s.length) s := by
  unfold copyName
  split_ifs with h
  · -- the element fills the buffer; no terminator is written
    refine ⟨fun i _ => ?_, fun i hi => absurd hi (by have := i.isLt; omega)⟩
    rw [memmove, if_pos i.isLt]
  · refine ⟨fun i hi => ?_, fun i hi => if_pos hi⟩
    show (if (i : ℕ) = s.length then '\x00' else memmove name s s.length i) = _
    rw [if_neg (Nat.ne_of_lt hi), memmove, if_pos hi]

/-- A buffer that holds a copy of `e`, which has no `0`, reads as the first `DIRSIZ` characters
of `e`. -/
theorem nameStr_of_copied {name : Fin DIRSIZ → Char} {e : List Char} (h : Copied name e)
    (he : ∀ ch ∈ e, ch ≠ '\x00') : nameStr name = e.take DIRSIZ := by
  have htake : (List.ofFn name).take (min e.length DIRSIZ) = e.take DIRSIZ := by
    apply List.ext_getElem
    · simp only [List.length_take, List.length_ofFn]
      omega
    · intro i h₁ _
      simp only [List.length_take, List.length_ofFn] at h₁
      rw [List.getElem_take, List.getElem_take, List.getElem_ofFn, h.1 ⟨i, by omega⟩ (by simp only; omega)]
      simp [show i < e.length by omega]
  -- past the copy the buffer reads a `0`, or it is over
  have hrest : ((List.ofFn name).drop (min e.length DIRSIZ)).takeWhile (· != '\x00') = [] := by
    by_cases hlt : e.length < DIRSIZ
    · have hlen : min e.length DIRSIZ < (List.ofFn name).length := by
        simp only [List.length_ofFn]
        omega
      rw [List.drop_eq_getElem_cons hlen, List.takeWhile_cons, List.getElem_ofFn]
      simp [min_eq_left hlt.le, h.2 ⟨e.length, hlt⟩ rfl]
    · rw [List.drop_eq_nil_of_le (by simp only [List.length_ofFn]; omega)]
      rfl
  have hpos : ∀ x ∈ e.take DIRSIZ, (x != '\x00') = true := fun x hx => by
    simpa using he x (List.mem_of_mem_take hx)
  rw [nameStr, ← List.take_append_drop (min e.length DIRSIZ) (List.ofFn name), htake,
    List.takeWhile_append_of_pos hpos, hrest, List.append_nil]

/-- `skipelem` returns `0` only when no element is left. -/
theorem skipelem_none {path : List Char} {name : Fin DIRSIZ → Char}
    (h : skipelem path name = none) : elems path = [] := by
  simp only [skipelem] at h
  split_ifs at h with hp
  rw [← elems_dropWhile_slash]
  exact elems_of_peek hp

/-- One call of `skipelem` takes the first element off the path: it copies it into the buffer,
where `namecmp` reads its first `DIRSIZ` characters, and returns a shorter remainder with no
leading `/` that holds the other elements. -/
theorem skipelem_some {path rest : List Char} {name name' : Fin DIRSIZ → Char}
    (h : skipelem path name = some (rest, name')) :
    ∃ e, elems path = e :: elems rest ∧ Copied name' e ∧ nameStr name' = e.take DIRSIZ ∧
      rest.head? ≠ some '/' ∧ rest.length < path.length := by
  simp only [skipelem] at h
  split_ifs at h with hp
  obtain ⟨rfl, rfl⟩ := Prod.mk.inj (Option.some.inj h)
  -- the first character left is in an element: not `/`, as the slashes were skipped, nor `0`
  cases hd : path.dropWhile (· == '/') with
  | nil => rw [hd] at hp; exact absurd rfl hp
  | cons ch t =>
    have hslash : ch ≠ '/' := by
      simpa [hd] using List.head?_dropWhile_not (· == '/') path
    have hch : inElem ch = true := by
      have hnul : ch ≠ '\x00' := by rw [hd] at hp; exact hp
      simp [inElem, hslash, hnul]
    have hall : ∀ x ∈ (ch :: t).takeWhile inElem, x ≠ '\x00' := fun x hx => by
      have := List.mem_takeWhile_imp hx
      simp_all [inElem]
    refine ⟨(ch :: t).takeWhile inElem, ?_, copied_copyName name _,
      nameStr_of_copied (copied_copyName name _) hall, fun hr => ?_, ?_⟩
    · rw [← elems_dropWhile_slash path, hd, elems_of_inElem rfl hch, elems_dropWhile_slash]
    · have := List.head?_dropWhile_not (· == '/') ((ch :: t).dropWhile inElem)
      rw [hr] at this
      simp at this
    · calc _ ≤ ((ch :: t).dropWhile inElem).length := List.length_dropWhile_le _ _
        _ = (t.dropWhile inElem).length := by rw [List.dropWhile_cons, if_pos hch]
        _ ≤ t.length := List.length_dropWhile_le _ _
        _ < (ch :: t).length := Nat.lt_succ_self _
        _ = (path.dropWhile (· == '/')).length := by rw [hd]
        _ ≤ path.length := List.length_dropWhile_le _ _

theorem skipelem_length_lt {path rest : List Char} {name name' : Fin DIRSIZ → Char}
    (h : skipelem path name = some (rest, name')) : rest.length < path.length := by
  obtain ⟨_, _, _, _, _, hlt⟩ := skipelem_some h
  exact hlt

/-! ### The calls until `skipelem` returns `0` -/

/-- The calls of `skipelem` one after another until it returns `0`: the buffer and the
remainder after each call. -/
def skipelems (path : List Char) (name : Fin DIRSIZ → Char) :
    List ((Fin DIRSIZ → Char) × List Char) :=
  match h : skipelem path name with
  | none => []
  | some (rest, name') => (name', rest) :: skipelems rest name'
termination_by path.length
decreasing_by exact skipelem_length_lt h

theorem skipelems_of_none {path : List Char} {name : Fin DIRSIZ → Char}
    (h : skipelem path name = none) : skipelems path name = [] := by
  rw [skipelems]
  split
  · rfl
  · next h' => rw [h] at h'; cases h'

theorem skipelems_of_some {path rest : List Char} {name name' : Fin DIRSIZ → Char}
    (h : skipelem path name = some (rest, name')) :
    skipelems path name = (name', rest) :: skipelems rest name' := by
  rw [skipelems]
  split
  · next h' => rw [h] at h'; cases h'
  · next h' => rw [h] at h'; cases h'; rfl

/-- The calls until `skipelem` returns `0` copy the elements of the path in order, one call per
element, each followed by a remainder with no leading `/` that holds the elements after it. -/
theorem skipelems_elems (path : List Char) (name : Fin DIRSIZ → Char) :
    List.Forall₂ (fun x e => Copied x.1 e ∧ x.2.head? ≠ some '/') (skipelems path name)
        (elems path) ∧
      (skipelems path name).map (fun x => elems x.2) = (elems path).tails.tail := by
  -- on the length of the path, which every call shortens
  induction hn : path.length using Nat.strong_induction_on generalizing path name with
  | _ n ih =>
  cases hs : skipelem path name with
  | none =>
    rw [skipelems_of_none hs, skipelem_none hs]
    exact ⟨List.Forall₂.nil, rfl⟩
  | some r =>
    obtain ⟨rest, name'⟩ := r
    obtain ⟨e, he, hc, -, hh, hlt⟩ := skipelem_some hs
    obtain ⟨ih₁, ih₂⟩ := ih rest.length (hn ▸ hlt) rest name' rfl
    rw [skipelems_of_some hs, he]
    refine ⟨List.Forall₂.cons ⟨hc, hh⟩ ih₁, ?_⟩
    rw [List.map_cons, ih₂]
    cases elems rest <;> rfl

/-- The examples of the source's comment: `skipelem("a/bb/c")` is `"bb/c"` with `a` in the
buffer, and `skipelem("///a//bb")` is `"bb"` with `a`. -/
example : (skipelem ['a', '/', 'b', 'b', '/', 'c'] fun _ => 'x').map (fun r => (r.1, nameStr r.2)) =
    some (['b', 'b', '/', 'c'], ['a']) := by decide
example : (skipelem ['/', '/', '/', 'a', '/', '/', 'b', 'b'] fun _ => 'x').map
    (fun r => (r.1, nameStr r.2)) = some (['b', 'b'], ['a']) := by decide

/-! ### `namex` -/

section Namex

variable {I : Type*} (isDir : I → Bool) (dirlookup : I → List Char → Option I)

/-- The loop of `namex(path, nameiparent, name)` from the inode `ip`: the inode it returns
(`none` for `0`) and the buffer. -/
def namexLoop (nameiparent : Bool) (ip : I) (path : List Char) (name : Fin DIRSIZ → Char) :
    Option I × (Fin DIRSIZ → Char) :=
  match h : skipelem path name with
  | none => (if nameiparent then none else some ip, name)
  | some (rest, name') =>
    if !isDir ip then (none, name')
    -- stop one level early
    else if nameiparent && peek rest == '\x00' then (some ip, name')
    else
      match dirlookup ip (nameStr name') with
      | none => (none, name')
      | some next => namexLoop nameiparent next rest name'
termination_by path.length
decreasing_by exact skipelem_length_lt h

/-- `namex(path, nameiparent, name)`: from the root directory for a path that starts with `/`,
from the current directory otherwise. -/
def namex (root cwd : I) (path : List Char) (nameiparent : Bool) (name : Fin DIRSIZ → Char) :
    Option I × (Fin DIRSIZ → Char) :=
  namexLoop isDir dirlookup nameiparent (if peek path = '/' then root else cwd) path name

/-- The inode reached from `ip` by looking the names `es` up one after another, each in a
directory. -/
def lookup (ip : I) : List (List Char) → Option I
  | [] => some ip
  | e :: es => if isDir ip then (dirlookup ip e).bind fun next => lookup next es else none

variable {isDir dirlookup}

theorem namexLoop_of_none {b : Bool} {ip : I} {path : List Char} {name : Fin DIRSIZ → Char}
    (h : skipelem path name = none) :
    namexLoop isDir dirlookup b ip path name = (if b then none else some ip, name) := by
  rw [namexLoop]
  split
  · rfl
  · next h' => rw [h] at h'; cases h'

theorem namexLoop_of_some {b : Bool} {ip : I} {path rest : List Char}
    {name name' : Fin DIRSIZ → Char} (h : skipelem path name = some (rest, name')) :
    namexLoop isDir dirlookup b ip path name =
      if !isDir ip then (none, name')
      else if b && peek rest == '\x00' then (some ip, name')
      else
        match dirlookup ip (nameStr name') with
        | none => (none, name')
        | some next => namexLoop isDir dirlookup b next rest name' := by
  rw [namexLoop]
  split
  · next h' => rw [h] at h'; cases h'
  · next h' => rw [h] at h'; cases h'; rfl

/-- A lookup from an inode that is not a directory, up to the last directory, finds none. -/
theorem lookup_filter_of_not_dir {ip : I} (h : isDir ip = false) (es : List (List Char)) :
    (lookup isDir dirlookup ip es).filter isDir = none := by
  cases es with
  | nil => simp [lookup, Option.filter, h]
  | cons e es => simp [lookup, h]

/-- Without `nameiparent`, the loop of `namex` looks the elements of the path up one after
another, by their first `DIRSIZ` characters. -/
theorem namexLoop_lookup (ip : I) (path : List Char) (name : Fin DIRSIZ → Char) :
    (namexLoop isDir dirlookup false ip path name).1 =
      lookup isDir dirlookup ip ((elems path).map (·.take DIRSIZ)) := by
  induction hn : path.length using Nat.strong_induction_on generalizing ip path name with
  | _ n ih =>
  cases hs : skipelem path name with
  | none => rw [namexLoop_of_none hs, skipelem_none hs]; rfl
  | some r =>
    obtain ⟨rest, name'⟩ := r
    obtain ⟨e, he, -, hname, -, hlt⟩ := skipelem_some hs
    rw [namexLoop_of_some hs, he, List.map_cons, lookup, hname]
    cases hd : isDir ip with
    | false => rfl
    | true =>
      simp only [Bool.not_true, Bool.false_and, Bool.false_eq_true, if_false, if_true]
      cases dirlookup ip (e.take DIRSIZ) with
      | none => rfl
      | some next => exact ih rest.length (hn ▸ hlt) next rest name' rfl

/-- With `nameiparent`, the loop of `namex` looks up every element but the last and returns the
directory reached, or `0` when the path has no element; when it returns a directory, the last
element is in the buffer. -/
theorem namexLoop_parent (ip : I) (path : List Char) (name : Fin DIRSIZ → Char) :
    (namexLoop isDir dirlookup true ip path name).1 =
        (if elems path = [] then none
        else (lookup isDir dirlookup ip ((elems path).map (·.take DIRSIZ)).dropLast).filter isDir) ∧
      ∀ dp, (namexLoop isDir dirlookup true ip path name).1 = some dp →
        ∃ e, (elems path).getLast? = some e ∧
          nameStr (namexLoop isDir dirlookup true ip path name).2 = e.take DIRSIZ := by
  induction hn : path.length using Nat.strong_induction_on generalizing ip path name with
  | _ n ih =>
  cases hs : skipelem path name with
  | none =>
    rw [namexLoop_of_none hs, skipelem_none hs]
    exact ⟨rfl, fun _ h => by cases h⟩
  | some r =>
    obtain ⟨rest, name'⟩ := r
    obtain ⟨e, he, -, hname, hh, hlt⟩ := skipelem_some hs
    rw [namexLoop_of_some hs, he, if_neg (List.cons_ne_nil _ _), List.map_cons]
    cases hd : isDir ip with
    | false =>
      -- not a directory: `0`, and the lookup up to the parent fails too
      refine ⟨?_, fun _ h => by simp at h⟩
      exact (lookup_filter_of_not_dir hd _).symm
    | true =>
      simp only [Bool.not_true, Bool.false_eq_true, if_false, Bool.true_and]
      by_cases hlast : elems rest = []
      · -- the element is the last one: the loop stops at its directory
        have hp : (peek rest == '\x00') = true := by simpa using (elems_eq_nil_iff hh).1 hlast
        rw [if_pos hp, hlast]
        exact ⟨by simp [lookup, Option.filter, hd], fun _ _ => ⟨e, rfl, hname⟩⟩
      · have hp : (peek rest == '\x00') = false := by simpa using mt (elems_eq_nil_iff hh).2 hlast
        have hmap : (elems rest).map (·.take DIRSIZ) ≠ [] := by simpa using hlast
        rw [if_neg (by simp [hp]), List.dropLast_cons_of_ne_nil hmap, lookup, if_pos hd, hname]
        cases dirlookup ip (e.take DIRSIZ) with
        | none => exact ⟨rfl, fun _ h => by cases h⟩
        | some next =>
          obtain ⟨ih₁, ih₂⟩ := ih rest.length (hn ▸ hlt) next rest name' rfl
          rw [if_neg hlast] at ih₁
          refine ⟨ih₁, fun dp h => ?_⟩
          obtain ⟨e', he', hname'⟩ := ih₂ dp h
          exact ⟨e', by rw [List.getLast?_cons, he']; rfl, hname'⟩

end Namex

/-- **Path elements.**  For every path and every buffer: the calls of `skipelem` until it
returns `0` copy the maximal non-empty runs of characters other than `/` of the path's string,
in order and one call per run, each truncated to `DIRSIZ` characters and `0`-terminated when
shorter, each followed by a remainder with no leading `/` that holds the runs after it.  So the
loop of `namex` ends: without `nameiparent` it looks every element up from the start directory,
and with it, it stops before the last element and leaves that one in the buffer. -/
theorem path_elements (path : List Char) (name : Fin DIRSIZ → Char) :
    List.Forall₂ (fun x e => Copied x.1 e ∧ x.2.head? ≠ some '/') (skipelems path name)
        (elems path) ∧
      (skipelems path name).map (fun x => elems x.2) = (elems path).tails.tail ∧
      (skipelems path name).length = (elems path).length ∧
      ∀ {I : Type} (isDir : I → Bool) (dirlookup : I → List Char → Option I) (root cwd : I),
        (namex isDir dirlookup root cwd path false name).1 =
            lookup isDir dirlookup (if peek path = '/' then root else cwd)
              ((elems path).map (·.take DIRSIZ)) ∧
          (namex isDir dirlookup root cwd path true name).1 =
            (if elems path = [] then none
            else (lookup isDir dirlookup (if peek path = '/' then root else cwd)
              ((elems path).map (·.take DIRSIZ)).dropLast).filter isDir) ∧
          ∀ dp, (namex isDir dirlookup root cwd path true name).1 = some dp →
            ∃ e, (elems path).getLast? = some e ∧
              nameStr (namex isDir dirlookup root cwd path true name).2 = e.take DIRSIZ := by
  obtain ⟨hcopy, hrest⟩ := skipelems_elems path name
  refine ⟨hcopy, hrest, hcopy.length_eq, fun isDir dirlookup root cwd => ?_⟩
  obtain ⟨hparent, hname⟩ :=
    @namexLoop_parent _ isDir dirlookup (if peek path = '/' then root else cwd) path name
  exact ⟨namexLoop_lookup _ path name, hparent, hname⟩

end Path

end Xv6Kernel
