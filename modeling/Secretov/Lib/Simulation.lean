import Secretov.Lib.Prog

/-! Simulation between two computations with different states: the same outcome,
and related states stay related. -/

universe u

namespace Prog

variable {ε σ τ α β : Type u} {R : σ → τ → Prop}

theorem bind_assoc {γ : Type u} (m : Prog ε σ α) (f : α → Prog ε σ β) (g : β → Prog ε σ γ) :
    (m >>= f) >>= g = m >>= fun a => f a >>= g := by
  funext s
  rw [bind_apply, bind_apply, bind_apply]
  rcases m s with ⟨e | a, t⟩ <;> rfl

theorem ofExcept_bind (r : Except ε α) (f : α → Except ε β) :
    (ofExcept (r >>= f) : Prog ε σ β) = ofExcept r >>= fun a => ofExcept (f a) := by
  cases r <;> rfl

def Simulates (R : σ → τ → Prop) (m : Prog ε σ α) (n : Prog ε τ α) : Prop :=
  ∀ s t, R s t → (m s).1 = (n t).1 ∧ R (m s).2 (n t).2

namespace Simulates

theorem pure (a : α) : Simulates R (Pure.pure a : Prog ε σ α) (Pure.pure a) := fun _ _ h => ⟨rfl, h⟩

theorem throw (e : ε) : Simulates R (Prog.throw e : Prog ε σ α) (Prog.throw e) := fun _ _ h => ⟨rfl, h⟩

theorem ofExcept (r : Except ε α) : Simulates R (Prog.ofExcept r) (Prog.ofExcept r) := fun _ _ h => ⟨rfl, h⟩

theorem bind_of {m : Prog ε σ α} {n : Prog ε τ α} {f : α → Prog ε σ β} {g : α → Prog ε τ β}
    (h : Simulates R m n) (hnext : ∀ a, (∃ t, (n t).1 = .ok a) → Simulates R (f a) (g a)) :
    Simulates R (m >>= f) (n >>= g) := by
  intro s t hst
  obtain ⟨hresult, hstate⟩ := h s t hst
  rw [bind_apply, bind_apply]
  rcases hm : m s with ⟨r, s'⟩
  rcases hn : n t with ⟨r', t'⟩
  rw [hm, hn] at hresult hstate
  obtain rfl : r = r' := hresult
  cases r with
  | ok a => exact hnext a ⟨t, by rw [hn]⟩ s' t' hstate
  | error e => exact ⟨rfl, hstate⟩

theorem bind {m : Prog ε σ α} {n : Prog ε τ α} {f : α → Prog ε σ β} {g : α → Prog ε τ β}
    (h : Simulates R m n) (hnext : ∀ a, Simulates R (f a) (g a)) : Simulates R (m >>= f) (n >>= g) :=
  h.bind_of fun a _ => hnext a

/-- A step of the first computation that the second does not take. -/
theorem skip {m : Prog ε σ α} {a : α} {f : α → Prog ε σ β} {n : Prog ε τ β}
    (h : ∀ s t, R s t → ∃ s', m s = (.ok a, s') ∧ R s' t) (hnext : Simulates R (f a) n) :
    Simulates R (m >>= f) n := by
  intro s t hst
  obtain ⟨s', hm, hst'⟩ := h s t hst
  rw [bind_of_ok hm]
  exact hnext s' t hst'

/-- The same where the second computation ends in what it has made of its first result. -/
theorem bind_map {γ : Type u} {m : Prog ε σ γ} {r : Except ε α} {h : α → γ} {f : γ → Prog ε σ β}
    {g : α → Prog ε τ β} (hm : Simulates R m (Prog.ofExcept r >>= fun a => Pure.pure (h a)))
    (hnext : ∀ a, r = .ok a → Simulates R (f (h a)) (g a)) : Simulates R (m >>= f) (Prog.ofExcept r >>= g) := by
  intro s t hst
  obtain ⟨hresult, hstate⟩ := hm s t hst
  rw [bind_apply, bind_apply]
  rcases hs : m s with ⟨outcome, s'⟩
  rw [hs] at hresult hstate
  cases r with
  | ok a =>
    obtain rfl : outcome = .ok (h a) := hresult
    exact hnext a rfl s' t hstate
  | error e =>
    obtain rfl : outcome = .error e := hresult
    exact ⟨rfl, hstate⟩

/-- A computation on the part of the state that the relation ties to the other state. -/
theorem zoom {part : σ → τ} {put : τ → σ → σ} {n : Prog ε τ α} (hpart : ∀ s t, R s t → part s = t)
    (hput : ∀ s t t', R s t → R (put t' s) t') : Simulates R (Prog.zoom part put n) n := by
  intro s t hst
  obtain rfl := hpart s t hst
  exact ⟨rfl, hput s _ _ hst⟩

end Simulates

end Prog
