import Mathlib.Data.List.Infix
import Mathlib.Logic.Function.Iterate
import Secretov.Lines
import Secretov.TuiEdit

/-! Key names and revealed values as the TUI draws them (tui_edit.cpp): without the
control characters that would drive the terminal. -/

namespace Secretov

/-- `→`, encoded as UTF-8. -/
def kTabGlyph : Bytes := [0xE2, 0x86, 0x92]

/-- What an iteration of `printable_value` appends for the value that is left, and what it
leaves of that. -/
def showNext : Bytes → Bytes × Bytes
  | [] => ([], [])
  | b :: s =>
    if b = tab then (kTabGlyph, s)
    else if isC1At (b :: s) then ([63], s.tail)
    else if b < 0x20 ∧ b ≠ newline ∨ b = 0x7F then ([63], s)
    else ([b], s)

structure Showing where
  shown : Bytes
  rest : Bytes

def Showing.next (t : Showing) : Showing := ⟨t.shown ++ (showNext t.rest).1, (showNext t.rest).2⟩

/-- Every iteration takes at least a byte of the value. -/
def printableValue (value : Bytes) : Bytes := (Showing.next^[value.length] ⟨[], value⟩).shown

/-- What `printable_value` reserves. -/
def reserved (value : Bytes) : Nat := value.length + value.count tab * (kTabGlyph.length - 1)

/-- A control character is first. -/
def startsControl : Bytes → Bool
  | [] => false
  | b :: s => isControl b || isC1At (b :: s)

theorem isC1At_congr {b : UInt8} {s t : Bytes} (h : s.head? = t.head?) : isC1At (b :: s) = isC1At (b :: t) := by
  cases s with
  | nil =>
    cases t with
    | nil => rfl
    | cons c t => cases h
  | cons c s =>
    cases t with
    | nil => cases h
    | cons d t =>
      obtain rfl := Option.some.inj h
      rfl

theorem hasControlChar_cons {b : UInt8} {s : Bytes} (hb : isControl b = false) (hpair : isC1At (b :: s) = false)
    (hs : hasControlChar s = false) : hasControlChar (b :: s) = false := by
  rw [hasControlChar, hb, hpair, hs]
  rfl

theorem isC1At_of_head {b c : UInt8} {s : Bytes} (hhead : s.head? = some c) (hc : c < 0x80 ∨ 0x9F < c) :
    isC1At (b :: s) = false := by
  cases s with
  | nil => rfl
  | cons d s =>
    obtain rfl := Option.some.inj hhead
    simp only [isC1At, Bool.and_eq_false_iff, decide_eq_false_iff_not, UInt8.not_le]
    rcases hc with hlow | hhigh
    · exact Or.inl (Or.inr hlow)
    · exact Or.inr hhigh

/-! `printable`. -/

theorem printable_cons (b : UInt8) (s : Bytes) : printable (b :: s) =
    if isC1At (b :: s) then 63 :: printable s.tail else (if isControl b then 63 else b) :: printable s := by
  cases s with
  | nil => rfl
  | cons c s => rw [printable, List.tail_cons, isC1At, isC1At]

theorem printable_head (s : Bytes) : (printable s).head? = s.head? ∨ (printable s).head? = some 63 := by
  cases s with
  | nil => exact Or.inl rfl
  | cons b s =>
    rw [printable_cons]
    by_cases hpair : isC1At (b :: s) = true
    · rw [if_pos hpair]
      exact Or.inr rfl
    · rw [if_neg hpair]
      by_cases hb : isControl b = true
      · rw [if_pos hb]
        exact Or.inr rfl
      · rw [if_neg hb]
        exact Or.inl rfl

theorem hasControlChar_printable (s : Bytes) : hasControlChar (printable s) = false := by
  induction hn : s.length using Nat.strong_induction_on generalizing s with
  | _ n ih =>
    cases s with
    | nil => rfl
    | cons b s =>
      have hquestion {t : Bytes} (ht : hasControlChar t = false) : hasControlChar (63 :: t) = false :=
        hasControlChar_cons rfl (by cases t <;> rfl) ht
      have hrest := ih s.length (by rw [← hn]; exact Nat.lt_succ_self _) s rfl
      have htail := ih s.tail.length (by rw [← hn, List.length_tail, List.length_cons]; omega) s.tail rfl
      rw [printable_cons]
      by_cases hpair : isC1At (b :: s) = true
      · rw [if_pos hpair]
        exact hquestion htail
      · rw [if_neg hpair]
        by_cases hb : isControl b = true
        · rw [if_pos hb]
          exact hquestion hrest
        · -- the byte after it stays, or becomes a question mark
          rw [if_neg hb]
          have hshown : isC1At (b :: printable s) = false := by
            rcases printable_head s with hsame | hmark
            · rw [isC1At_congr hsame]
              exact Bool.eq_false_iff.mpr hpair
            · exact isC1At_of_head hmark (Or.inl (by decide))
          exact hasControlChar_cons (Bool.eq_false_iff.mpr hb) hshown hrest

theorem printable_of_clean {s : Bytes} (h : hasControlChar s = false) : printable s = s := by
  induction s with
  | nil => rfl
  | cons b s ih =>
    simp only [hasControlChar, Bool.or_eq_false_iff] at h
    obtain ⟨⟨hb, hpair⟩, hs⟩ := h
    rw [printable_cons, if_neg (Bool.eq_false_iff.mp hpair), if_neg (Bool.eq_false_iff.mp hb), ih hs]

/-! `printable_value`. -/

theorem next_shown (t : Showing) (n : Nat) :
    (Showing.next^[n] t).shown = t.shown ++ (Showing.next^[n] ⟨[], t.rest⟩).shown ∧
      (Showing.next^[n] t).rest = (Showing.next^[n] ⟨[], t.rest⟩).rest := by
  induction n generalizing t with
  | zero => exact ⟨(List.append_nil _).symm, rfl⟩
  | succ n ih =>
    obtain ⟨hshown, hrest⟩ := ih t.next
    obtain ⟨hshown', hrest'⟩ := ih (Showing.next ⟨[], t.rest⟩)
    rw [Function.iterate_succ_apply, Function.iterate_succ_apply, hshown, hrest, hshown', hrest']
    refine ⟨?_, rfl⟩
    simp only [Showing.next, List.nil_append, List.append_assoc]

theorem showNext_rest (b : UInt8) (s : Bytes) : (showNext (b :: s)).2 = s ∨ (showNext (b :: s)).2 = s.tail := by
  unfold showNext
  dsimp only
  split_ifs
  · exact Or.inl rfl
  · exact Or.inr rfl
  · exact Or.inl rfl
  · exact Or.inl rfl

theorem next_done (shown : Bytes) (n : Nat) : Showing.next^[n] ⟨shown, []⟩ = ⟨shown, []⟩ := by
  induction n with
  | zero => rfl
  | succ n ih =>
    have hstill : Showing.next ⟨shown, []⟩ = ⟨shown, []⟩ := by
      rw [Showing.next, showNext, List.append_nil]
    rw [Function.iterate_succ_apply, hstill, ih]

theorem next_rest_length (t : Showing) (n : Nat) : (Showing.next^[n] t).rest.length ≤ t.rest.length - n := by
  induction n generalizing t with
  | zero => exact Nat.le_refl _
  | succ n ih =>
    have hfirst : t.next.rest.length ≤ t.rest.length - 1 := by
      rw [Showing.next]
      cases t.rest with
      | nil => exact Nat.le_refl 0
      | cons b s =>
        rcases showNext_rest b s with hrest | hrest
        · rw [hrest, List.length_cons, Nat.add_sub_cancel]
        · rw [hrest, List.length_tail, List.length_cons]
          exact Nat.sub_le_sub_right (Nat.le_succ _) 1
    rw [Function.iterate_succ_apply]
    have hmore := ih t.next
    omega

theorem next_length {value : Bytes} {n : Nat} (h : value.length ≤ n) :
    (Showing.next^[n] ⟨[], value⟩).shown = printableValue value := by
  obtain ⟨k, rfl⟩ := Nat.exists_eq_add_of_le' h
  have hlength := next_rest_length ⟨[], value⟩ value.length
  rw [Nat.sub_self] at hlength
  have hrest := List.eq_nil_of_length_eq_zero (Nat.le_zero.mp hlength)
  have hend : Showing.next^[value.length] ⟨[], value⟩ = ⟨printableValue value, []⟩ :=
    congrArg (Showing.mk (printableValue value)) hrest
  rw [Function.iterate_add_apply, hend, next_done]

theorem printableValue_cons (b : UInt8) (s : Bytes) :
    printableValue (b :: s) = (showNext (b :: s)).1 ++ printableValue (showNext (b :: s)).2 := by
  have hrest : (showNext (b :: s)).2.length ≤ s.length := by
    have hlength := next_rest_length ⟨[], b :: s⟩ 1
    simp only [Function.iterate_one, List.length_cons, Nat.add_sub_cancel] at hlength
    exact hlength
  rw [printableValue, List.length_cons, Function.iterate_succ_apply, (next_shown _ _).1]
  exact congrArg _ (next_length hrest)

theorem printableValue_tab (s : Bytes) : printableValue (tab :: s) = kTabGlyph ++ printableValue s := by
  rw [printableValue_cons]
  rfl

theorem isC1At_first {b : UInt8} {s : Bytes} (h : isC1At (b :: s) = true) : b = 0xC2 := by
  cases s with
  | nil => cases h
  | cons c s =>
    simp only [isC1At, Bool.and_eq_true, beq_iff_eq] at h
    exact h.1.1

theorem printableValue_c1 {b : UInt8} {s : Bytes} (h : isC1At (b :: s) = true) :
    printableValue (b :: s) = 63 :: printableValue s.tail := by
  have htab : b ≠ tab := by
    rw [isC1At_first h]
    decide
  rw [printableValue_cons, showNext, if_neg htab, if_pos h]
  rfl

theorem printableValue_single {b : UInt8} {s : Bytes} (htab : b ≠ tab) (hpair : isC1At (b :: s) = false) :
    printableValue (b :: s) = (if isControl b ∧ b ≠ newline then 63 else b) :: printableValue s := by
  rw [printableValue_cons, showNext, if_neg htab, if_neg (Bool.eq_false_iff.mp hpair)]
  have hcontrol : (b < 0x20 ∧ b ≠ newline ∨ b = 0x7F) ↔ (isControl b = true ∧ b ≠ newline) := by
    rw [isControl, Bool.or_eq_true, decide_eq_true_iff, beq_iff_eq]
    refine ⟨?_, ?_⟩
    · rintro (⟨hlow, hne⟩ | rfl)
      · exact ⟨Or.inl hlow, hne⟩
      · exact ⟨Or.inr rfl, by decide⟩
    · rintro ⟨hlow | hdel, hne⟩
      · exact Or.inl ⟨hlow, hne⟩
      · exact Or.inr hdel
  rw [if_congr hcontrol rfl rfl]
  split_ifs <;> rfl

/-- What is shown starts with what is left of the value, a question mark or the glyph. -/
theorem printableValue_head (s : Bytes) : (printableValue s).head? = s.head? ∨
    (printableValue s).head? = some 63 ∨ (printableValue s).head? = some 0xE2 := by
  cases s with
  | nil => exact Or.inl rfl
  | cons b s =>
    by_cases htab : b = tab
    · rw [htab, printableValue_tab]
      exact Or.inr (Or.inr rfl)
    · by_cases hpair : isC1At (b :: s) = true
      · rw [printableValue_c1 hpair]
        exact Or.inr (Or.inl rfl)
      · rw [printableValue_single htab (Bool.eq_false_iff.mpr hpair)]
        by_cases hb : isControl b = true ∧ b ≠ newline
        · rw [if_pos hb]
          exact Or.inr (Or.inl rfl)
        · rw [if_neg hb]
          exact Or.inl rfl

theorem isC1At_printableValue {b : UInt8} {s : Bytes} (h : isC1At (b :: s) = false) :
    isC1At (b :: printableValue s) = false := by
  rcases printableValue_head s with hsame | hmark | hglyph
  · rw [isC1At_congr hsame, h]
  · exact isC1At_of_head hmark (Or.inl (by decide))
  · exact isC1At_of_head hglyph (Or.inr (by decide))

/-- An induction over the iterations: the tab, the pair and the single byte. -/
theorem showing_induction {P : Bytes → Prop} (hnil : P []) (htab : ∀ s, P s → P (tab :: s))
    (hpair : ∀ b s, isC1At (b :: s) = true → P s.tail → P (b :: s))
    (hsingle : ∀ b s, b ≠ tab → isC1At (b :: s) = false → P s → P (b :: s)) (s : Bytes) : P s := by
  induction hn : s.length using Nat.strong_induction_on generalizing s with
  | _ n ih =>
    cases s with
    | nil => exact hnil
    | cons b s =>
      rw [List.length_cons] at hn
      have hs := ih s.length (by omega) s rfl
      by_cases hb : b = tab
      · rw [hb]
        exact htab s hs
      · by_cases hc1 : isC1At (b :: s) = true
        · have htail := ih s.tail.length (by rw [List.length_tail]; omega) s.tail rfl
          exact hpair b s hc1 htail
        · exact hsingle b s hb (Bool.eq_false_iff.mpr hc1) hs

/-- Newlines are the only control characters. -/
def OnlyNewlines (s : Bytes) : Prop := ∀ t, t <:+ s → startsControl t = true → t.head? = some newline

theorem onlyNewlines_cons {b : UInt8} {s : Bytes} (hs : OnlyNewlines s)
    (hb : startsControl (b :: s) = true → b = newline) : OnlyNewlines (b :: s) := by
  intro t ht hcontrol
  rcases List.suffix_cons_iff.mp ht with rfl | hin
  · rw [hb hcontrol]
    rfl
  · exact hs t hin hcontrol

theorem onlyNewlines_printableValue (s : Bytes) : OnlyNewlines (printableValue s) := by
  have hplain {b : UInt8} {s : Bytes} (hs : OnlyNewlines s) (hb : isControl b = false)
      (hpair : isC1At (b :: s) = false) : OnlyNewlines (b :: s) := by
    apply onlyNewlines_cons hs
    intro hcontrol
    rw [startsControl, hb, hpair] at hcontrol
    cases hcontrol
  have hquestion {s : Bytes} (hs : OnlyNewlines s) : OnlyNewlines (63 :: s) :=
    hplain hs rfl (by cases s <;> rfl)
  induction s using showing_induction with
  | hnil =>
    intro t ht hcontrol
    rw [List.suffix_nil.mp ht] at hcontrol
    cases hcontrol
  | htab s ih =>
    rw [printableValue_tab]
    have hlast : isC1At (0x92 :: printableValue s) = false := by cases printableValue s <;> rfl
    exact hplain (hplain (hplain ih rfl hlast) rfl rfl) rfl rfl
  | hpair b s hpair ih =>
    rw [printableValue_c1 hpair]
    exact hquestion ih
  | hsingle b s hb hpair ih =>
    rw [printableValue_single hb hpair]
    by_cases hcontrol : isControl b = true ∧ b ≠ newline
    · rw [if_pos hcontrol]
      exact hquestion ih
    · rw [if_neg hcontrol]
      have hstill := isC1At_printableValue hpair
      apply onlyNewlines_cons ih
      intro hstarts
      rw [startsControl, hstill, Bool.or_false] at hstarts
      by_contra hne
      exact hcontrol ⟨hstarts, hne⟩

theorem isC1At_append_newline (b : UInt8) (s t : Bytes) :
    isC1At (b :: (s ++ newline :: t)) = isC1At (b :: s) := by
  cases s with
  | nil => exact isC1At_of_head rfl (Or.inl (by decide))
  | cons c s => rfl

theorem printableValue_append_newline (s t : Bytes) :
    printableValue (s ++ newline :: t) = printableValue s ++ newline :: printableValue t := by
  induction s using showing_induction with
  | hnil =>
    have hpair : isC1At (newline :: t) = false := by cases t <;> rfl
    rw [List.nil_append, printableValue_single (by decide) hpair]
    rfl
  | htab s ih =>
    rw [List.cons_append, printableValue_tab, printableValue_tab, ih, List.append_assoc]
  | hpair b s hpair ih =>
    have hs : s ≠ [] := by
      rintro rfl
      cases hpair
    rw [List.cons_append, printableValue_c1 (by rw [isC1At_append_newline, hpair]), printableValue_c1 hpair,
      List.tail_append_of_ne_nil hs, ih, List.cons_append]
  | hsingle b s hb hpair ih =>
    rw [List.cons_append, printableValue_single hb (by rw [isC1At_append_newline, hpair]),
      printableValue_single hb hpair, ih, List.cons_append]

theorem newline_mem_printableValue {s : Bytes} : newline ∈ printableValue s ↔ newline ∈ s := by
  induction s using showing_induction with
  | hnil => rfl
  | htab s ih =>
    have hglyph : newline ∉ kTabGlyph := by decide
    rw [printableValue_tab, List.mem_append, List.mem_cons, ih, or_iff_right hglyph, or_iff_right (by decide)]
  | hpair b s hpair ih =>
    rw [printableValue_c1 hpair, List.mem_cons, List.mem_cons, ih, or_iff_right (by decide),
      isC1At_first hpair, or_iff_right (by decide)]
    cases s with
    | nil => rfl
    | cons c s =>
      have hc : newline ≠ c := by
        rintro rfl
        rw [isC1At_of_head rfl (Or.inl (by decide))] at hpair
        cases hpair
      rw [List.tail_cons, List.mem_cons, or_iff_right hc]
  | hsingle b s hb hpair ih =>
    rw [printableValue_single hb hpair, List.mem_cons, List.mem_cons, ih]
    by_cases hcontrol : isControl b = true ∧ b ≠ newline
    · rw [if_pos hcontrol, or_iff_right (by decide), or_iff_right (Ne.symm hcontrol.2)]
    · rw [if_neg hcontrol]

/-- The lines of what is shown are the lines of the value, each shown. -/
theorem printableValue_splitOn (s : Bytes) :
    (printableValue s).splitOn newline = (s.splitOn newline).map printableValue := by
  induction hn : s.length using Nat.strong_induction_on generalizing s with
  | _ n ih =>
    by_cases hmem : newline ∈ s
    · obtain ⟨line, rest, rfl⟩ := List.append_of_mem hmem
      rw [List.length_append, List.length_cons] at hn
      have hline := ih line.length (by omega) line rfl
      have hrest := ih rest.length (by omega) rest rfl
      rw [printableValue_append_newline, List.splitOn_append_cons_self, List.splitOn_append_cons_self,
        hline, hrest, List.map_append]
    · have hshown : newline ∉ printableValue s := fun h => hmem (newline_mem_printableValue.mp h)
      rw [List.splitOn_eq_singleton hmem, List.splitOn_eq_singleton hshown]
      rfl

/-! What is shown never outgrows what was reserved for it. -/

theorem reserved_cons (b : UInt8) (s : Bytes) :
    reserved (b :: s) = reserved s + if b = tab then kTabGlyph.length else 1 := by
  have hglyph : kTabGlyph.length = 3 := rfl
  rw [reserved, reserved, List.length_cons, List.count_cons, hglyph]
  by_cases hb : b = tab
  · rw [if_pos (beq_iff_eq.mpr hb), if_pos hb]
    omega
  · rw [if_neg (by rw [beq_iff_eq]; exact hb), if_neg hb]
    omega

theorem reserved_tail (s : Bytes) : reserved s.tail ≤ reserved s := by
  cases s with
  | nil => exact Nat.le_refl _
  | cons b s =>
    rw [List.tail_cons, reserved_cons]
    exact Nat.le_add_right _ _

theorem showNext_reserved (s : Bytes) : (showNext s).1.length + reserved (showNext s).2 ≤ reserved s := by
  cases s with
  | nil => exact Nat.le_refl _
  | cons b s =>
    rw [reserved_cons, showNext]
    by_cases hb : b = tab
    · rw [if_pos hb, if_pos hb, Nat.add_comm]
    · rw [if_neg hb, if_neg hb]
      have htail := reserved_tail s
      split_ifs
      · exact (Nat.add_comm _ _).trans_le (Nat.add_le_add_right htail 1)
      · exact (Nat.add_comm _ _).le
      · exact (Nat.add_comm _ _).le

theorem next_reserved (t : Showing) (n : Nat) :
    (Showing.next^[n] t).shown.length + reserved (Showing.next^[n] t).rest ≤
    t.shown.length + reserved t.rest := by
  induction n with
  | zero => exact Nat.le_refl _
  | succ n ih =>
    have hstep := showNext_reserved (Showing.next^[n] t).rest
    rw [Function.iterate_succ_apply', Showing.next, List.length_append]
    dsimp only
    omega

theorem shown_without_controls (s : Bytes) :
    (hasControlChar (printable s) = false ∧ (hasControlChar s = false → printable s = s) ∧
      printable (printable s) = printable s) ∧
    (∀ t, t <:+ printableValue s → startsControl t = true → t.head? = some newline) ∧
    (printableValue s).splitOn newline = (s.splitOn newline).map printableValue ∧
    ∀ n, (Showing.next^[n] ⟨[], s⟩).shown.length ≤ reserved s := by
  refine ⟨⟨hasControlChar_printable s, printable_of_clean, printable_of_clean (hasControlChar_printable s)⟩,
    onlyNewlines_printableValue s, printableValue_splitOn s, ?_⟩
  intro n
  have hbound := next_reserved ⟨[], s⟩ n
  rw [List.length_nil, Nat.zero_add] at hbound
  exact (Nat.le_add_right _ _).trans hbound

end Secretov
