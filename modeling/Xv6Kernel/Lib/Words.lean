import Mathlib.Computability.Language

/-!
# Words of a list between separators

`pieces c l` cuts a list at every occurrence of the separator `c`, empty pieces included, and
`words c l` keeps its non-empty pieces: the maximal non-empty runs of elements other than `c`.
Two rules compute the words of a list from the left:

* `words_sep_append` : a run of separators adds no word;
* `words_word_append` : a non-empty run without `c`, followed by the end of the list or by `c`,
  is the first word.

A text of lines, each ended by `c`, then a tail, cut anywhere, is cut in one of its lines or in
its tail (`split_lines`).

As a language, `letters P` holds the one-letter words whose letter satisfies `P`, and its Kleene
star the words all of whose letters do (`mem_kstar_letters`).
-/

namespace Xv6Kernel

namespace Words

variable {α : Type*} [DecidableEq α] (c : α)

/-- The pieces of `l` between the occurrences of `c`, empty ones included. -/
def pieces : List α → List (List α)
  | [] => [[]]
  | a :: l => if a = c then [] :: pieces l else (pieces l).modifyHead (a :: ·)

/-- The words of `l`: its non-empty pieces. -/
def words (l : List α) : List (List α) :=
  (pieces c l).filter fun w => !w.isEmpty

variable {c}

@[simp] theorem words_nil : words c [] = [] := rfl

/-- A run of separators before a list adds no word. -/
theorem words_sep_append {s : List α} (hs : ∀ x ∈ s, x = c) (l : List α) :
    words c (s ++ l) = words c l := by
  induction s with
  | nil => rfl
  | cons a s ih =>
    have ha : a = c := hs a List.mem_cons_self
    rw [List.cons_append, words, pieces, if_pos ha, List.filter_cons_of_neg (by simp)]
    exact ih fun x hx => hs x (List.mem_cons_of_mem a hx)

/-- A run without separators is glued to the front of the first piece. -/
theorem pieces_append {w : List α} (hw : c ∉ w) (l : List α) :
    pieces c (w ++ l) = (pieces c l).modifyHead (w ++ ·) := by
  induction w with
  | nil =>
    rw [List.nil_append]
    cases pieces c l <;> rfl
  | cons a w ih =>
    have ha : a ≠ c := fun h => hw (h ▸ List.mem_cons_self)
    rw [List.cons_append, pieces, if_neg ha, ih (fun h => hw (List.mem_cons_of_mem a h)),
      List.modifyHead_modifyHead]
    rfl

/-- A list that is empty or starts with a separator has the empty first piece. -/
theorem pieces_of_head {l : List α} (hl : ∀ x ∈ l.head?, x = c) :
    ∃ t, pieces c l = [] :: t := by
  cases l with
  | nil => exact ⟨[], rfl⟩
  | cons a l =>
    have ha : a = c := hl a rfl
    exact ⟨pieces c l, by rw [pieces, if_pos ha]⟩

/-- A non-empty run without separators, followed by the end of the list or by a separator, is
the first word. -/
theorem words_word_append {w l : List α} (hne : w ≠ []) (hw : c ∉ w)
    (hl : ∀ x ∈ l.head?, x = c) : words c (w ++ l) = w :: words c l := by
  obtain ⟨t, ht⟩ := pieces_of_head hl
  rw [words, words, pieces_append hw, ht, List.modifyHead_cons, List.append_nil]
  -- the first piece is `w`, which is kept; the empty piece after it is dropped
  simp [hne]

/-! ### Lines -/

section Lines

variable {β : Type*} {c : β}

/-- A text made of `lines`, each ended by the separator `c`, then a `tail` without it, cut anywhere
into `x ++ y`: the cut falls in a line or in the tail, so `x` is some of the lines, whole, then the
start `t` of what follows them. -/
theorem split_lines {lines : List (List β)} {tail : List β} (hl : ∀ l ∈ lines, c ∉ l)
    (ht : c ∉ tail) {x y : List β} (h : lines.flatMap (· ++ [c]) ++ tail = x ++ y) :
    ∃ L₁ L₂ t, lines = L₁ ++ L₂ ∧ x = L₁.flatMap (· ++ [c]) ++ t ∧ c ∉ t ∧
      t ++ y = L₂.flatMap (· ++ [c]) ++ tail := by
  induction lines generalizing x with
  | nil =>
    simp only [List.flatMap_nil, List.nil_append] at h
    exact ⟨[], [], x, rfl, rfl, fun hx => ht (h ▸ List.mem_append_left y hx), h.symm⟩
  | cons l ls ih =>
    have hl₀ : c ∉ l := hl l List.mem_cons_self
    have h' := h
    rw [List.flatMap_cons, List.append_assoc, List.append_assoc, List.append_eq_append_iff] at h'
    rcases h' with ⟨a, rfl, ha⟩ | ⟨b, rfl, -⟩
    · cases a with
      | nil => exact ⟨[], l :: ls, l, rfl, by simp, hl₀, by simpa using h.symm⟩
      | cons d a =>
        -- the cut is past the separator that ends `l`
        simp only [List.cons_append, List.cons.injEq] at ha
        obtain ⟨rfl, ha⟩ := ha
        obtain ⟨L₁, L₂, t, rfl, rfl, htc, hty⟩ :=
          ih (fun l' hl' => hl l' (List.mem_cons_of_mem l hl')) ha
        exact ⟨l :: L₁, L₂, t, rfl, by simp, htc, hty⟩
    · -- the cut is inside `l`
      exact ⟨[], _ :: ls, x, rfl, by simp, fun hx => hl₀ (List.mem_append_left b hx), by simpa using h.symm⟩

/-- A start of such a text without the separator lies within its first line. -/
theorem length_le_of_prefix {l : List β} {ls : List (List β)} {tail t y : List β} (ht : c ∉ t)
    (h : (l :: ls).flatMap (· ++ [c]) ++ tail = t ++ y) : t.length ≤ l.length := by
  rw [List.flatMap_cons, List.append_assoc, List.append_assoc, List.append_eq_append_iff] at h
  rcases h with ⟨a, rfl, ha⟩ | ⟨b, rfl, -⟩
  · cases a with
    | nil => simp
    | cons d a =>
      simp only [List.cons_append, List.cons.injEq] at ha
      obtain ⟨rfl, -⟩ := ha
      exact absurd (List.mem_append_right l List.mem_cons_self) ht
  · simp

end Lines

/-! ### Words of letters -/

section Letters

open Computability

variable {β : Type*}

/-- The one-letter words whose letter satisfies `P`. -/
def letters (P : β → Prop) : Language β := {w | ∃ a, P a ∧ w = [a]}

variable {P : β → Prop}

theorem mem_letters {w : List β} : w ∈ letters P ↔ ∃ a, P a ∧ w = [a] := Iff.rfl

/-- The words of the Kleene star of `letters P` are those all of whose letters satisfy `P`. -/
theorem mem_kstar_letters {w : List β} : w ∈ (letters P)∗ ↔ ∀ a ∈ w, P a := by
  rw [Language.mem_kstar]
  constructor
  · rintro ⟨L, rfl, hL⟩ a ha
    obtain ⟨y, hy, hay⟩ := List.mem_flatten.1 ha
    obtain ⟨b, hb, rfl⟩ := hL y hy
    rwa [List.mem_singleton.1 hay]
  · intro h
    refine ⟨w.map fun a => [a], (List.flatMap_singleton' w).symm, fun y hy => ?_⟩
    obtain ⟨a, ha, rfl⟩ := List.mem_map.1 hy
    exact ⟨a, h a ha, rfl⟩

end Letters

end Words

end Xv6Kernel
