import Mathlib.Data.List.Basic

/-! Lists with elements put in: deleting the added ones leaves the others, in their
order. -/

namespace Insertion

variable {α : Type}

/-- The added elements, the kept ones, and the list that has both. -/
inductive Inserted : List α → List α → List α → Prop
  | nil : Inserted [] [] []
  | add {a : α} {added kept all : List α} : Inserted added kept all → Inserted (a :: added) kept (a :: all)
  | keep {a : α} {added kept all : List α} : Inserted added kept all → Inserted added (a :: kept) (a :: all)

theorem Inserted.refl (kept : List α) : Inserted [] kept kept := by
  induction kept with
  | nil => exact .nil
  | cons a kept ih => exact .keep ih

theorem Inserted.added (all : List α) : Inserted all [] all := by
  induction all with
  | nil => exact .nil
  | cons a all ih => exact .add ih

theorem Inserted.append {added added' kept kept' all all' : List α} (h : Inserted added kept all)
    (h' : Inserted added' kept' all') : Inserted (added ++ added') (kept ++ kept') (all ++ all') := by
  induction h with
  | nil => exact h'
  | add _ ih => exact .add ih
  | keep _ ih => exact .keep ih

theorem Inserted.mem {added kept all : List α} (h : Inserted added kept all) {a : α} (ha : a ∈ all) :
    a ∈ added ∨ a ∈ kept := by
  induction h with
  | nil => cases ha
  | add _ ih =>
    obtain rfl | ha := List.mem_cons.mp ha
    · exact .inl List.mem_cons_self
    · exact (ih ha).imp_left (List.mem_cons_of_mem _)
  | keep _ ih =>
    obtain rfl | ha := List.mem_cons.mp ha
    · exact .inr List.mem_cons_self
    · exact (ih ha).imp_right (List.mem_cons_of_mem _)

end Insertion
