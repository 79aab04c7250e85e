import Secretov.Lib.Prog

/-! What a computation keeps of its state, however it ends. -/

universe u

namespace Prog

variable {ε σ α β : Type u} {P : σ → Prop}

def Keeps (P : σ → Prop) (m : Prog ε σ α) : Prop := ∀ s, P s → P (m s).2

namespace Keeps

theorem pure (a : α) : Keeps P (Pure.pure a : Prog ε σ α) := fun _ h => h

theorem throw (e : ε) : Keeps P (Prog.throw e : Prog ε σ α) := fun _ h => h

theorem ofExcept (r : Except ε α) : Keeps P (Prog.ofExcept r) := fun _ h => h

theorem bind {m : Prog ε σ α} {f : α → Prog ε σ β} (hm : Keeps P m) (hf : ∀ a, Keeps P (f a)) :
    Keeps P (m >>= f) := by
  intro s hs
  have ht := hm s hs
  rw [bind_apply]
  rcases hrun : m s with ⟨e | a, t⟩ <;> rw [hrun] at ht
  · exact ht
  · exact hf a t ht

theorem tryCatch {m : Prog ε σ α} {handler : ε → Prog ε σ α} (hm : Keeps P m)
    (hhandler : ∀ e, Keeps P (handler e)) : Keeps P (Prog.tryCatch m handler) := by
  intro s hs
  have ht := hm s hs
  unfold Prog.tryCatch
  rcases hrun : m s with ⟨e | a, t⟩ <;> rw [hrun] at ht
  · exact hhandler e t ht
  · exact ht

theorem foldlM {f : β → α → Prog ε σ β} (hf : ∀ b a, Keeps P (f b a)) (l : List α) (b : β) :
    Keeps P (l.foldlM f b) := by
  induction l generalizing b with
  | nil => exact pure b
  | cons a l ih => exact (hf b a).bind ih

end Keeps

end Prog
