import Secretov.Lib.Prog

/-! A computation with one outcome, from every state of a kind that it does not leave. -/

universe u

namespace Prog

variable {ε σ α β : Type u} {P : σ → Prop}

def Yields (P : σ → Prop) (m : Prog ε σ α) (r : Except ε α) : Prop :=
  ∀ s, P s → ∃ s', m s = (r, s') ∧ P s'

namespace Yields

theorem pure (a : α) : Yields P (Pure.pure a : Prog ε σ α) (.ok a) := fun s h => ⟨s, rfl, h⟩

theorem throw (e : ε) : Yields P (Prog.throw e : Prog ε σ α) (.error e) := fun s h => ⟨s, rfl, h⟩

theorem ofExcept (r : Except ε α) : Yields P (Prog.ofExcept r) r := fun s h => ⟨s, rfl, h⟩

variable {m : Prog ε σ α} {a : α} {e : ε}

theorem bind {f : α → Prog ε σ β} {r : Except ε β} (hm : Yields P m (.ok a)) (hf : Yields P (f a) r) :
    Yields P (m >>= f) r := by
  intro s hs
  obtain ⟨t, hmt, ht⟩ := hm s hs
  rw [bind_of_ok hmt]
  exact hf t ht

theorem bind_error {f : α → Prog ε σ β} (hm : Yields P m (.error e)) : Yields P (m >>= f) (.error e) := by
  intro s hs
  obtain ⟨t, hmt, ht⟩ := hm s hs
  exact ⟨t, bind_eq_error.mpr (.inl hmt), ht⟩

theorem tryCatch {handler : ε → Prog ε σ α} (hm : Yields P m (.ok a)) :
    Yields P (Prog.tryCatch m handler) (.ok a) := by
  intro s hs
  obtain ⟨t, hmt, ht⟩ := hm s hs
  exact ⟨t, by rw [Prog.tryCatch, hmt], ht⟩

theorem tryCatch_error {handler : ε → Prog ε σ α} {r : Except ε α} (hm : Yields P m (.error e))
    (hhandler : Yields P (handler e) r) : Yields P (Prog.tryCatch m handler) r := by
  intro s hs
  obtain ⟨t, hmt, ht⟩ := hm s hs
  obtain ⟨u, hu, hu'⟩ := hhandler t ht
  exact ⟨u, by rw [Prog.tryCatch, hmt]; exact hu, hu'⟩

theorem foldlM {f : β → α → Prog ε σ β} {g : β → α → β} {l : List α}
    (hf : ∀ b, ∀ a ∈ l, Yields P (f b a) (.ok (g b a))) (b : β) : Yields P (l.foldlM f b)
    (.ok (l.foldl g b)) := by
  induction l generalizing b with
  | nil => exact pure b
  | cons a l ih => exact (hf b a (by simp)).bind (ih (fun b a ha => hf b a (List.mem_cons_of_mem _ ha)) (g b a))

end Yields

end Prog
