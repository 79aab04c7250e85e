import Mathlib.Data.List.Infix
import Mathlib.Data.List.Perm.Basic

/-! Lists in lexicographic order: a list comes before those it is a prefix of, and what
starts with it lies together. -/

namespace PrefixOrder

variable {α : Type*}

section

variable [Ord α] [Std.LawfulEqOrd α]

theorem isLE_of_prefix {s t : List α} (h : s <+: t) : (compare s t).isLE = true := by
  induction s generalizing t with
  | nil => exact List.isLE_compareLex_nil_left
  | cons x s ih =>
    obtain ⟨rest, rfl⟩ := h
    have hself : compare x x = .eq := Std.ReflOrd.compare_self
    rw [List.compare_eq_compareLex, List.cons_append, List.compareLex_cons_cons, hself]
    exact ih (List.prefix_append s rest)

theorem lt_of_prefix {s t : List α} (h : s <+: t) (hne : s ≠ t) : compare s t = .lt := by
  cases hc : compare s t with
  | lt => rfl
  | eq => exact absurd (Std.LawfulEqOrd.eq_of_compare hc) hne
  | gt =>
    have hle := isLE_of_prefix h
    rw [hc] at hle
    cases hle

/-- A list between two that start with `p` starts with `p`. -/
theorem prefix_of_between [Std.OrientedOrd α] {p s t u : List α} (hst : (compare s t).isLE = true)
    (htu : (compare t u).isLE = true) (hs : p <+: s) (hu : p <+: u) : p <+: t := by
  induction p generalizing s t u with
  | nil => exact List.nil_prefix
  | cons x p ih =>
    obtain ⟨s, rfl⟩ := hs
    obtain ⟨u, rfl⟩ := hu
    cases t with
    | nil => cases hst
    | cons y t =>
      rw [List.compare_eq_compareLex, List.cons_append, List.compareLex_cons_cons,
        Ordering.isLE_then_iff_and] at hst htu
      have heq : compare x y = .eq := Std.OrientedCmp.isLE_antisymm hst.1 htu.1
      obtain rfl : x = y := Std.LawfulEqOrd.eq_of_compare heq
      have hrest := hst.2.resolve_left (by rw [heq]; decide)
      have hrest' := htu.2.resolve_left (by rw [heq]; decide)
      obtain ⟨more, rfl⟩ := ih hrest hrest' (List.prefix_append p s) (List.prefix_append p u)
      exact ⟨more, rfl⟩

end

/-- Two lists in one strict order are the same where they have the same members. -/
theorem eq_of_pairwise {r : α → α → Prop} (hasymm : ∀ a b, r a b → ¬r b a) {l l' : List α} (hl : l.Pairwise r)
    (hl' : l'.Pairwise r) (h : ∀ a, a ∈ l ↔ a ∈ l') : l = l' := by
  have hnodup {l : List α} (hl : l.Pairwise r) : l.Nodup := by
    refine hl.imp ?_
    rintro a _ hr rfl
    exact hasymm a a hr hr
  refine List.Perm.eq_of_pairwise ?_ hl hl' ((List.perm_ext_iff_of_nodup (hnodup hl) (hnodup hl')).mpr h)
  intro a b _ _ hab hba
  exact absurd hba (hasymm a b hab)

theorem inits_pairwise (l : List α) : l.inits.Pairwise fun s t => s <+: t ∧ s ≠ t := by
  induction l with
  | nil => exact List.pairwise_singleton _ _
  | cons x l ih =>
    rw [List.inits_cons, List.pairwise_cons, List.pairwise_map]
    refine ⟨?_, ih.imp ?_⟩
    · intro t ht
      obtain ⟨s, -, rfl⟩ := List.mem_map.mp ht
      exact ⟨List.nil_prefix, nofun⟩
    · rintro s t ⟨hst, hne⟩
      refine ⟨(List.prefix_append_right_inj [x]).mpr hst, ?_⟩
      intro heq
      exact hne (List.cons.inj heq).2

end PrefixOrder
