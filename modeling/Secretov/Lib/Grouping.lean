import Mathlib.Data.List.Induction
import Mathlib.Data.List.Nodup
import Std.Data.ExtTreeMap

/-! A list grouped by a key: the groups of a map, each with its items once. -/

namespace Grouping

variable {α κ : Type*} {cmp : κ → κ → Ordering} (key : α → κ)

/-- The list holds what has the property, each once. -/
structure Once (p : α → Prop) (l : List α) : Prop where
  mem : ∀ a, a ∈ l ↔ p a
  nodup : l.Nodup

namespace Once

variable {p q : α → Prop} {l : List α}

theorem nil (h : ∀ a, ¬p a) : Once p [] :=
  ⟨fun a => ⟨fun hmem => absurd hmem List.not_mem_nil, fun hp => absurd hp (h a)⟩, List.nodup_nil⟩

theorem congr (h : Once p l) (hpq : ∀ a, p a ↔ q a) : Once q l :=
  ⟨fun a => (h.mem a).trans (hpq a), h.nodup⟩

theorem eq_nil_iff (h : Once p l) : l = [] ↔ ∀ a, ¬p a := by
  rw [List.eq_nil_iff_forall_not_mem]
  exact forall_congr' fun a => not_congr (h.mem a)

end Once

section

variable [DecidableEq α]

def pushNew (group : List α) (a : α) : List α :=
  if a ∈ group then group else group ++ [a]

theorem mem_pushNew {group : List α} {a b : α} : b ∈ pushNew group a ↔ b ∈ group ∨ b = a := by
  unfold pushNew
  split_ifs with ha
  · constructor
    · exact Or.inl
    · rintro (hb | rfl)
      · exact hb
      · exact ha
  · rw [List.mem_append, List.mem_singleton]

theorem nodup_pushNew {group : List α} (h : group.Nodup) (a : α) : (pushNew group a).Nodup := by
  unfold pushNew
  split_ifs with ha
  · exact h
  · refine List.nodup_append.mpr ⟨h, List.nodup_singleton a, fun b hb c hc => ?_⟩
    rintro rfl
    exact ha (List.mem_singleton.mp hc ▸ hb)

theorem Once.pushNew {p : α → Prop} {l : List α} (h : Once p l) (a : α) :
    Once (fun b => p b ∨ b = a) (pushNew l a) := by
  refine ⟨fun b => ?_, nodup_pushNew h.nodup a⟩
  rw [mem_pushNew, h.mem]

def add [Std.TransCmp cmp] (groups : Std.ExtTreeMap κ (List α) cmp) (a : α) : Std.ExtTreeMap κ (List α) cmp :=
  groups.insert (key a) (pushNew (groups.getD (key a) []) a)

def groupBy [Std.TransCmp cmp] (l : List α) : Std.ExtTreeMap κ (List α) cmp :=
  l.foldl (add key) ∅

end

variable [Std.TransCmp cmp]

structure Grouped (l : List α) (groups : Std.ExtTreeMap κ (List α) cmp) : Prop where
  mem : ∀ k a, a ∈ groups.getD k [] ↔ a ∈ l ∧ key a = k
  nodup : ∀ k, (groups.getD k []).Nodup

variable {key} [Std.LawfulEqCmp cmp] {l : List α} {groups : Std.ExtTreeMap κ (List α) cmp}

theorem Grouped.add [DecidableEq α] (h : Grouped key l groups) (a : α) :
    Grouped key (l ++ [a]) (add key groups a) := by
  have hself : (Grouping.add key groups a).getD (key a) [] = pushNew (groups.getD (key a) []) a :=
    Std.ExtTreeMap.getD_insert_self
  have hother {k : κ} (hk : key a ≠ k) : (Grouping.add key groups a).getD k [] = groups.getD k [] := by
    rw [Grouping.add, Std.ExtTreeMap.getD_insert, if_neg (mt Std.LawfulEqCmp.eq_of_compare hk)]
  constructor
  · intro k b
    rw [List.mem_append, List.mem_singleton]
    by_cases hk : key a = k
    · subst hk
      rw [hself, mem_pushNew, h.mem]
      constructor
      · rintro (⟨hb, hkey⟩ | rfl)
        · exact ⟨.inl hb, hkey⟩
        · exact ⟨.inr rfl, rfl⟩
      · rintro ⟨hb | rfl, hkey⟩
        · exact .inl ⟨hb, hkey⟩
        · exact .inr rfl
    · rw [hother hk, h.mem]
      constructor
      · rintro ⟨hb, hkey⟩
        exact ⟨.inl hb, hkey⟩
      · rintro ⟨hb | rfl, hkey⟩
        · exact ⟨hb, hkey⟩
        · exact absurd hkey hk
  · intro k
    by_cases hk : key a = k
    · subst hk
      rw [hself]
      exact nodup_pushNew (h.nodup _) a
    · rw [hother hk]
      exact h.nodup k

theorem groupBy_grouped [DecidableEq α] (l : List α) :
    Grouped key l (groupBy key l : Std.ExtTreeMap κ (List α) cmp) := by
  induction l using List.reverseRecOn with
  | nil => exact ⟨by simp [groupBy], by simp [groupBy]⟩
  | append_singleton l a ih =>
    rw [groupBy, List.foldl_append]
    exact ih.add a

theorem Grouped.of_toList (h : Grouped key l groups) {k : κ} {group : List α}
    (hmem : (k, group) ∈ groups.toList) : group.Nodup ∧ ∀ a, a ∈ group ↔ a ∈ l ∧ key a = k := by
  have hget : groups.getD k [] = group := by
    rw [Std.ExtTreeMap.getD_eq_getD_getElem?, Std.ExtTreeMap.mem_toList_iff_getElem?_eq_some.mp hmem,
      Option.getD_some]
  rw [← hget]
  exact ⟨h.nodup k, h.mem k⟩

/-- The groups together hold the items of the list. -/
theorem Grouped.mem_flat (h : Grouped key l groups) (a : α) : a ∈ groups.toList.flatMap Prod.snd ↔ a ∈ l := by
  rw [List.mem_flatMap]
  constructor
  · rintro ⟨⟨k, group⟩, hmem, ha⟩
    exact (((h.of_toList hmem).2 a).mp ha).1
  · intro ha
    have hin := (h.mem (key a) a).mpr ⟨ha, rfl⟩
    cases hget : groups[key a]? with
    | none => simp [Std.ExtTreeMap.getD_eq_getD_getElem?, hget] at hin
    | some group =>
      rw [Std.ExtTreeMap.getD_eq_getD_getElem?, hget] at hin
      exact ⟨(key a, group), Std.ExtTreeMap.mem_toList_iff_getElem?_eq_some.mpr hget, hin⟩

end Grouping
