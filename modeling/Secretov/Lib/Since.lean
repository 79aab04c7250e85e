import Mathlib.Data.List.Infix

/-! What has held since an event of a history, the latest event first. -/

variable {α : Type*} {p q : α → Prop} {past : List α} {d m : α}

/-- `d` has happened, and every event since then satisfies `p`. -/
inductive Since (p : α → Prop) : List α → α → Prop
  | now (d : α) (past : List α) : Since p (d :: past) d
  | later {m d : α} {past : List α} : p m → Since p past d → Since p (m :: past) d

theorem not_since_nil : ¬Since p [] d := nofun

namespace Since

theorem append (h : Since p past d) (older : List α) : Since p (past ++ older) d := by
  induction h with
  | now d past => exact .now d (past ++ older)
  | later hm _ ih => exact .later hm ih

/-- There is one latest event of a kind. -/
theorem unique {d' : α} (h : Since (¬q ·) past d) (h' : Since (¬q ·) past d') (hd : q d) (hd' : q d') :
    d = d' := by
  induction h with
  | now d past =>
    cases h' with
    | now => rfl
    | later hnot _ => exact absurd hd hnot
  | later hm _ ih =>
    cases h' with
    | now => exact absurd hd' hm
    | later _ h' => exact ih h' hd

end Since
