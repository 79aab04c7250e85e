import Secretov.Lib.Prog

/-! Two computations that throw together, with whatever errors, and else return
related values. -/

universe u

namespace Prog

variable {ε ε' α β γ δ : Type u}

def Agree (R : α → β → Prop) : Except ε α → Except ε' β → Prop
  | .ok a, .ok b => R a b
  | .error _, .error _ => True
  | _, _ => False

namespace Agree

variable {R : α → β → Prop} {Q : γ → δ → Prop}

theorem ok {a : α} {b : β} (h : R a b) : Agree R (.ok a : Except ε α) (.ok b : Except ε' β) := h

theorem error (e : ε) (e' : ε') : Agree R (.error e) (.error e') := trivial

theorem refl (r : Except ε α) : Agree Eq r r := by
  cases r with
  | ok a => exact ok rfl
  | error e => exact error e e

theorem bind {r : Except ε α} {r' : Except ε' β} {f : α → Except ε γ} {g : β → Except ε' δ} (h : Agree R r r')
    (hnext : ∀ a b, R a b → Agree Q (f a) (g b)) : Agree Q (r >>= f) (r' >>= g) := by
  cases r with
  | ok a =>
    cases r' with
    | ok b => exact hnext a b h
    | error e => exact h.elim
  | error e =>
    cases r' with
    | ok b => exact h.elim
    | error e' => exact error e e'

/-- The sequel depends on nothing but the value. -/
theorem bind_eq {r : Except ε α} {r' : Except ε' α} {f : α → Except ε γ} {g : α → Except ε' δ} (h : Agree Eq r r')
    (hnext : ∀ a, Agree Q (f a) (g a)) : Agree Q (r >>= f) (r' >>= g) :=
  h.bind fun a _ hab => hab ▸ hnext a

theorem throwIf (c : Prop) [Decidable c] (e : ε) (e' : ε') : Agree Eq (Prog.throwIf c e) (Prog.throwIf c e') := by
  unfold Prog.throwIf
  split_ifs
  · exact error e e'
  · exact ok rfl

theorem forM {f : γ → Except ε PUnit.{u + 1}} {g : γ → Except ε' PUnit.{u + 1}} (h : ∀ a, Agree Eq (f a) (g a))
    (l : List γ) : Agree Eq (l.forM f) (l.forM g) := by
  induction l with
  | nil => exact ok rfl
  | cons a l ih => exact (h a).bind_eq fun _ => ih

theorem mapM {f : γ → Except ε α} {g : γ → Except ε' α} (h : ∀ a, Agree Eq (f a) (g a)) (l : List γ) :
    Agree Eq (l.mapM f) (l.mapM g) := by
  induction l with
  | nil => exact ok rfl
  | cons a l ih =>
    rw [List.mapM_cons, List.mapM_cons]
    exact (h a).bind_eq fun _ => ih.bind_eq fun _ => ok rfl

theorem foldlM {f : α → γ → Except ε α} {g : β → γ → Except ε' β} (h : ∀ a b c, R a b → Agree R (f a c) (g b c))
    {a : α} {b : β} (hab : R a b) (l : List γ) : Agree R (l.foldlM f a) (l.foldlM g b) := by
  induction l generalizing a b with
  | nil => exact ok hab
  | cons c l ih =>
    rw [List.foldlM_cons, List.foldlM_cons]
    exact (h a b c hab).bind fun _ _ => ih

theorem mapError {ε'' : Type u} {r : Except ε α} {r' : Except ε' β} (h : Agree R r r') (f : ε → ε'')
    (g : ε' → ε'') : Agree R (r.mapError f) (r'.mapError g) := by
  cases r with
  | ok a =>
    cases r' with
    | ok b => exact h
    | error e => exact h.elim
  | error e =>
    cases r' with
    | ok b => exact h.elim
    | error e' => exact trivial

theorem of_ok {r : Except ε α} {r' : Except ε' β} {a : α} (h : Agree R r r') (hr : r = .ok a) :
    ∃ b, r' = .ok b ∧ R a b := by
  subst hr
  cases r' with
  | ok b => exact ⟨b, rfl, h⟩
  | error e => exact h.elim

end Agree

end Prog
