import Mathlib.Logic.Basic

/-!
# Computations in `Except`

The models of this development are written in `do` notation over `Except ε`.  These are the
rewriting rules that turn a hypothesis `prog = .ok b` into facts about the parts of `prog`:
`pure` and `throw` are `ok` and `error`, a `bind` succeeds exactly when both parts do
(`Except.bind_eq_ok`), and a `throw` never succeeds.

For the loops of the models, written as `List.foldlM`: the invariant rule `foldlM_inv`, the
congruence `foldlM_congr_inv` of two loops whose steps agree on the states of an invariant,
and `foldlM_flatMap`, a loop over a concatenation as a loop of loops.
-/

namespace Xv6Kernel

variable {ε α β : Type}

@[simp] theorem except_pure_eq (a : α) : (pure a : Except ε α) = .ok a := rfl

@[simp] theorem except_throw_eq (e : ε) : (throw e : Except ε α) = .error e := rfl

@[simp] theorem except_ok_bind (a : α) (f : α → Except ε β) : (Except.ok a >>= f) = f a := rfl

@[simp] theorem except_error_bind (e : ε) (f : α → Except ε β) :
    (Except.error e >>= f) = .error e := rfl

@[simp] theorem except_map_ok (f : α → β) (a : α) :
    (f <$> (Except.ok a : Except ε α)) = .ok (f a) := rfl

@[simp] theorem except_map_error (f : α → β) (e : ε) :
    (f <$> (Except.error e : Except ε α)) = .error e := rfl

@[simp] theorem except_bind_ok_right (x : Except ε α) : (x >>= fun a => Except.ok a) = x := by
  cases x <;> rfl

theorem Except.bind_eq_ok {x : Except ε α} {f : α → Except ε β} {b : β} :
    x >>= f = .ok b ↔ ∃ a, x = .ok a ∧ f a = .ok b := by
  cases x with
  | error e => simp
  | ok a => simp

theorem Except.map_eq_ok {x : Except ε α} {f : α → β} {b : β} :
    f <$> x = .ok b ↔ ∃ a, x = .ok a ∧ f a = b := by
  cases x with
  | error e => simp
  | ok a => simp

/-! ### Loops -/

/-- **The invariant rule for `foldlM`**: a property that every step keeps holds of the result. -/
theorem foldlM_inv {f : β → α → Except ε β} (I : β → Prop) :
    ∀ {l : List α} {b r : β}, (∀ b a b', a ∈ l → I b → f b a = .ok b' → I b') → I b →
      l.foldlM f b = .ok r → I r
  | [], b, r, _, hb, h => by
    cases h
    exact hb
  | a :: l, b, r, hs, hb, h => by
    rw [List.foldlM_cons] at h
    obtain ⟨b', h₁, h₂⟩ := Except.bind_eq_ok.1 h
    exact foldlM_inv I (fun b a' b'' ha => hs b a' b'' (List.mem_cons_of_mem _ ha))
      (hs b a b' List.mem_cons_self hb h₁) h₂

/-- Two loops are equal when their steps agree on the states of an invariant that the second
keeps. -/
theorem foldlM_congr_inv {f g : β → α → Except ε β} (I : β → Prop) :
    ∀ {l : List α} {b : β}, (∀ b a, a ∈ l → I b → f b a = g b a) →
      (∀ b a b', a ∈ l → I b → g b a = .ok b' → I b') → I b → l.foldlM f b = l.foldlM g b
  | [], _, _, _, _ => rfl
  | a :: l, b, hfg, hg, hb => by
    rw [List.foldlM_cons, List.foldlM_cons, hfg b a List.mem_cons_self hb]
    cases h : g b a with
    | error e => rfl
    | ok b' =>
      exact foldlM_congr_inv I (fun b a' ha => hfg b a' (List.mem_cons_of_mem _ ha))
        (fun b a' b'' ha => hg b a' b'' (List.mem_cons_of_mem _ ha)) (hg b a b' List.mem_cons_self hb h)

/-- A loop over a concatenation is a loop of loops. -/
theorem foldlM_flatMap {γ : Type} (f : β → α → Except ε β) (g : γ → List α) :
    ∀ (l : List γ) (b : β), (l.flatMap g).foldlM f b = l.foldlM (fun b c => (g c).foldlM f b) b
  | [], _ => rfl
  | c :: l, b => by
    rw [List.flatMap_cons, List.foldlM_append, List.foldlM_cons]
    congr 1
    funext b'
    exact foldlM_flatMap f g l b'

end Xv6Kernel
