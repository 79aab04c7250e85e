import Mathlib.Data.List.Basic

/-! Patterns that are a sequence of character classes, each repeated between two
bounds: the anchored regular expressions without a choice. -/

/-- `[allowed]{least,most}`. -/
structure Piece (α : Type*) where
  allowed : α → Prop
  least : Nat
  most : Nat

namespace Pattern

variable {α : Type*}

/-- The whole string is a match. -/
def Matches : List (Piece α) → List α → Prop
  | [], s => s = []
  | piece :: pieces, s => ∃ front back, s = front ++ back ∧ (∀ c ∈ front, piece.allowed c) ∧
      piece.least ≤ front.length ∧ front.length ≤ piece.most ∧ Matches pieces back

def literal (t : List α) : List (Piece α) := t.map fun c => ⟨(· = c), 1, 1⟩

theorem matches_append {pieces pieces' : List (Piece α)} {s : List α} :
    Matches (pieces ++ pieces') s ↔ ∃ front back, s = front ++ back ∧ Matches pieces front ∧
    Matches pieces' back := by
  induction pieces generalizing s with
  | nil => simp [Matches]
  | cons piece pieces ih =>
    constructor
    · rintro ⟨first, rest, rfl, hallowed, hleast, hmost, hrest⟩
      obtain ⟨front, back, rfl, hfront, hback⟩ := ih.mp hrest
      exact ⟨first ++ front, back, by simp, ⟨first, front, rfl, hallowed, hleast, hmost, hfront⟩, hback⟩
    · rintro ⟨_, back, rfl, ⟨first, front, rfl, hallowed, hleast, hmost, hfront⟩, hback⟩
      exact ⟨first, front ++ back, by simp, hallowed, hleast, hmost, ih.mpr ⟨front, back, rfl, hfront, hback⟩⟩

theorem matches_singleton {piece : Piece α} {s : List α} :
    Matches [piece] s ↔ (∀ c ∈ s, piece.allowed c) ∧ piece.least ≤ s.length ∧ s.length ≤ piece.most := by
  constructor
  · rintro ⟨front, back, rfl, hallowed, hleast, hmost, rfl⟩
    rw [List.append_nil]
    exact ⟨hallowed, hleast, hmost⟩
  · rintro ⟨hallowed, hleast, hmost⟩
    exact ⟨s, [], by simp, hallowed, hleast, hmost, rfl⟩

theorem matches_literal {t s : List α} : Matches (literal t) s ↔ s = t := by
  induction t generalizing s with
  | nil => rfl
  | cons c t ih =>
    constructor
    · rintro ⟨front, back, rfl, hallowed, hleast, hmost, hback⟩
      obtain ⟨d, rfl⟩ := List.length_eq_one_iff.mp (Nat.le_antisymm hmost hleast)
      obtain rfl := hallowed d (List.mem_singleton_self d)
      rw [ih.mp hback]
      rfl
    · rintro rfl
      exact ⟨[c], t, rfl, by simp, by simp, by simp, ih.mpr rfl⟩

theorem matches_literal_append {t s : List α} {pieces : List (Piece α)} :
    Matches (literal t ++ pieces) s ↔ ∃ back, s = t ++ back ∧ Matches pieces back := by
  simp [matches_append, matches_literal]

end Pattern
