import Mathlib.Data.List.Basic
import Mathlib.Data.List.Infix

/-! Records over an arbitrary alphabet, each closed by one separator. A stream
is its closed records and an open tail. -/

namespace Framing

variable {α : Type*} {sep : α}

def frame (sep : α) (ls : List (List α)) : List α :=
  ls.flatMap (· ++ [sep])

@[simp] theorem frame_nil : frame sep [] = [] := rfl

@[simp] theorem frame_cons (l : List α) (ls : List (List α)) :
    frame sep (l :: ls) = l ++ sep :: frame sep ls := by
  simp [frame]

theorem cut_unique {x y u v : List α} (hx : sep ∉ x) (hy : sep ∉ y)
    (h : x ++ sep :: u = y ++ sep :: v) : x = y ∧ u = v := by
  induction x generalizing y with
  | nil =>
    cases y with
    | nil => simpa using h
    | cons b y =>
      obtain ⟨hb, -⟩ := List.cons.inj h
      exact absurd (by simp [hb]) hy
  | cons a x ih =>
    cases y with
    | nil =>
      obtain ⟨ha, -⟩ := List.cons.inj h
      exact absurd (by simp [ha]) hx
    | cons b y =>
      obtain ⟨rfl, ht⟩ := List.cons.inj h
      obtain ⟨rfl, rfl⟩ := ih (fun hm => hx (by simp [hm])) (fun hm => hy (by simp [hm])) ht
      exact ⟨rfl, rfl⟩

variable [DecidableEq α]

def unframe (sep : α) : List α → List (List α) × List α
  | [] => ([], [])
  | a :: l =>
    if a = sep then ([] :: (unframe sep l).1, (unframe sep l).2)
    else match unframe sep l with
      | ([], r) => ([], a :: r)
      | (x :: xs, r) => ((a :: x) :: xs, r)

theorem frame_unframe (l : List α) : frame sep (unframe sep l).1 ++ (unframe sep l).2 = l := by
  induction l with
  | nil => rfl
  | cons a l ih =>
    unfold unframe
    split_ifs with ha
    · simpa [ha] using ih
    · split <;> simp_all

theorem unframe_free (l : List α) : (∀ x ∈ (unframe sep l).1, sep ∉ x) ∧ sep ∉ (unframe sep l).2 := by
  induction l with
  | nil => simp [unframe]
  | cons a l ih =>
    unfold unframe
    split_ifs with ha
    · simpa using ih
    · have hne : sep ≠ a := fun e => ha e.symm
      split <;> simp_all

end Framing
