import Mathlib.Tactic.ByCases
import Secretov.Lib.Since

/-! The history of a map that several parties write: the last write of a key tells
whether the key is present. -/

/-- How entries of a history tell what they found and left, and the key they wrote,
with whether it is present after that. -/
structure Keeping (ε σ κ : Type*) where
  present : σ → κ → Prop
  before : ε → σ
  after : ε → σ
  write : ε → Option (κ × Bool)

namespace Keeping

variable {ε σ κ : Type*} (k : Keeping ε σ κ)

/-- An entry changes the presence of the key that it writes, and of no other. -/
structure Faithful (e : ε) : Prop where
  written : ∀ key left, k.write e = some (key, left) → (k.present (k.after e) key ↔ left = true)
  others : ∀ key, (∀ left, k.write e ≠ some (key, left)) →
    (k.present (k.after e) key ↔ k.present (k.before e) key)

/-- A history, latest first, from a start to where it has come. -/
inductive History (start : σ) : List ε → σ → Prop
  | nil : History start [] start
  | cons {earlier : List ε} (e : ε) (h : History start earlier (k.before e)) (hfaithful : k.Faithful e) :
      History start (e :: earlier) (k.after e)

variable {k} {start mid s : σ} {log recent old earlier : List ε} {e : ε}

namespace History

theorem split (h : k.History start (recent ++ old) s) :
    ∃ mid, k.History start old mid ∧ k.History mid recent s := by
  induction recent generalizing s with
  | nil => exact ⟨s, h, .nil⟩
  | cons e recent ih =>
    cases h with
    | cons _ h hfaithful =>
      obtain ⟨mid, hold, hrecent⟩ := ih h
      exact ⟨mid, hold, .cons e hrecent hfaithful⟩

theorem at_suffix (h : k.History start log s) (hsuffix : e :: earlier <:+ log) :
    k.History start earlier (k.before e) ∧ k.Faithful e := by
  obtain ⟨later, rfl⟩ := hsuffix
  obtain ⟨mid, hold, -⟩ := h.split
  cases hold with
  | cons _ h hfaithful => exact ⟨h, hfaithful⟩

end History

variable (k) in
def Writes (key : κ) (e : ε) : Prop := ∃ left, k.write e = some (key, left)

/-- After a history, a key is as its last write has left it, or as it was at the start. -/
theorem History.present_iff (h : k.History start log s) (key : κ) : k.present s key ↔
    (∃ e, Since (¬k.Writes key ·) log e ∧ k.write e = some (key, true)) ∨
      (∀ e ∈ log, ¬k.Writes key e) ∧ k.present start key := by
  induction h with
  | nil => simp [not_since_nil]
  | @cons earlier e h hfaithful ih =>
    by_cases hwrites : k.Writes key e
    · obtain ⟨left, hleft⟩ := hwrites
      rw [hfaithful.written key left hleft]
      constructor
      · rintro rfl
        exact .inl ⟨e, .now e earlier, hleft⟩
      · rintro (⟨w, hsince, hw⟩ | ⟨hnone, -⟩)
        · cases hsince with
          | now => exact (Prod.mk.inj (Option.some.inj (hleft.symm.trans hw))).2
          | later hnot _ => exact absurd ⟨left, hleft⟩ hnot
        · exact absurd ⟨left, hleft⟩ (hnone e (by simp))
    · rw [hfaithful.others key fun left hleft => hwrites ⟨left, hleft⟩, ih]
      refine or_congr ⟨?_, ?_⟩ (and_congr_left fun _ => ?_)
      · rintro ⟨w, hsince, hw⟩
        exact ⟨w, .later hwrites hsince, hw⟩
      · rintro ⟨w, hsince, hw⟩
        cases hsince with
        | now => exact absurd ⟨true, hw⟩ hwrites
        | later _ hsince => exact ⟨w, hsince, hw⟩
      · rw [List.forall_mem_cons]
        exact ⟨fun h => ⟨hwrites, h⟩, And.right⟩

/-- A key that a look at it has found absent is present where it has been put since. -/
theorem History.present_since {check : ε} (h : k.History start (recent ++ check :: old) s) {key : κ}
    (hread : ∀ key, ¬k.Writes key check) (habsent : ¬k.present (k.before check) key) :
    k.present s key ↔ ∃ e, Since (¬k.Writes key ·) recent e ∧ k.write e = some (key, true) := by
  obtain ⟨mid, hold, hrecent⟩ := h.split
  cases hold with
  | cons _ _ hfaithful =>
    have hmid : ¬k.present (k.after check) key := by
      rw [hfaithful.others key fun left hleft => hread key ⟨left, hleft⟩]
      exact habsent
    rw [hrecent.present_iff]
    simp [hmid]

end Keeping
