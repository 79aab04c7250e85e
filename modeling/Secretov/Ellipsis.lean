import Secretov.TextLayout

/-! Names cut to a width (tui_edit.cpp): `…` stands for what was cut, at the end or in the
middle. -/

namespace Secretov

/-- `…`, encoded as UTF-8. -/
def ellipsisMark : Bytes := [0xE2, 0x80, 0xA6]

def ellipsize (s : Bytes) (width : Int) : Bytes :=
  if textColumns s ≤ width then s
  else if width ≤ 0 then []
  else s.take (prefixBytes s (width - 1)) ++ ellipsisMark

def ellipsizeMiddle (s : Bytes) (width : Int) : Bytes :=
  let columns := textColumns s
  if columns ≤ width then s
  else if width ≤ 0 then []
  else
    let head := (width - 1) / 2
    let tail := width - 1 - head
    s.take (prefixBytes s head) ++ ellipsisMark ++ s.drop (prefixBytes s (columns - tail))

theorem columnCount_mark : columnCount ellipsisMark = 1 := rfl

theorem valid_mark : Utf8.Valid ellipsisMark := ⟨['…'], rfl⟩

theorem textColumns_le (s : Bytes) : textColumns s ≤ columnCount s := by
  rw [textColumns, asInt, Int.bmod_def]
  split <;> omega

/-- Fewer than `2^31` code points are counted right. -/
theorem textColumns_eq {s : Bytes} (h : columnCount s < 2 ^ 31) : textColumns s = columnCount s := by
  apply asInt_of_isInt
  rw [IsInt]
  omega

theorem exists_cut {s : Bytes} {width : Int} (hwidth : 0 ≤ width) (h : width ≤ columnCount s) :
    ∃ piece rest, s = piece ++ rest ∧ s.take (prefixBytes s width) = piece ∧
      s.drop (prefixBytes s width) = rest ∧ columnCount piece = width ∧ Utf8.Whole rest := by
  obtain ⟨piece, rest, rfl, hlength, hwhole, hfits, hexact, -⟩ := prefixBytes_spec hwidth s
  refine ⟨piece, rest, rfl, by rw [hlength, List.take_left], by rw [hlength, List.drop_left], ?_, hwhole⟩
  by_cases hrest : rest = []
  · rw [hrest, List.append_nil] at h
    exact Int.le_antisymm hfits h
  · exact hexact hrest

theorem ellipsize_cut {s : Bytes} {width : Int} (hwidth : 1 ≤ width) (h : width < textColumns s) :
    ∃ head rest, s = head ++ rest ∧ ellipsize s width = head ++ ellipsisMark ∧ columnCount head = width - 1 ∧
      Utf8.Whole rest := by
  have hcount := textColumns_le s
  obtain ⟨head, rest, hs, htake, -, hhead, hwhole⟩ :=
    exists_cut (by omega : 0 ≤ width - 1) (by omega : width - 1 ≤ columnCount s)
  refine ⟨head, rest, hs, ?_, hhead, hwhole⟩
  rw [ellipsize, if_neg (by omega), if_neg (by omega), htake]

/-- The tail is longer by as many columns as the count is short of. -/
theorem ellipsizeMiddle_cut {s : Bytes} {width : Int} (hwidth : 1 ≤ width) (h : width < textColumns s) :
    ∃ head gap tail, s = head ++ gap ++ tail ∧ ellipsizeMiddle s width = head ++ ellipsisMark ++ tail ∧
      columnCount head = (width - 1) / 2 ∧
      columnCount tail = width - 1 - (width - 1) / 2 + (columnCount s - textColumns s) ∧
      Utf8.Whole (gap ++ tail) ∧ Utf8.Whole tail := by
  have hcount := textColumns_le s
  obtain ⟨head, rest, hs, hheadTake, -, hhead, hrest⟩ :=
    exists_cut (by omega : 0 ≤ (width - 1) / 2) (by omega : (width - 1) / 2 ≤ columnCount s)
  obtain ⟨front, tail, hs', -, htailDrop, hfront, htail⟩ :=
    exists_cut (by omega : 0 ≤ textColumns s - (width - 1 - (width - 1) / 2))
      (by omega : textColumns s - (width - 1 - (width - 1) / 2) ≤ columnCount s)
  have hsplit : columnCount s = columnCount front + columnCount tail := by
    rw [← columnCount_append, ← hs']
  have hmiddle : ellipsizeMiddle s width = head ++ ellipsisMark ++ tail := by
    rw [ellipsizeMiddle, if_neg (by omega), if_neg (by omega)]
    dsimp only
    rw [hheadTake, htailDrop]
  -- the head ends before the tail starts: it has fewer columns than come before the tail
  rcases List.append_eq_append_iff.mp (hs.symm.trans hs') with ⟨gap, hgap, hrest'⟩ | ⟨longer, hover, -⟩
  · refine ⟨head, gap, tail, by rw [hs', hgap], hmiddle, hhead, by omega, ?_, htail⟩
    rw [← hrest']
    exact hrest
  · have hmore := congrArg columnCount hover
    rw [columnCount_append] at hmore
    omega

/-- What the two functions are for. -/
structure Ellipsized (s : Bytes) (width : Int) : Prop where
  fits : columnCount s ≤ width → ellipsize s width = s ∧ ellipsizeMiddle s width = s
  cutEnd : width < columnCount s → 1 ≤ width →
    columnCount (ellipsize s width) = width ∧ ∃ head, head <+: s ∧ ellipsize s width = head ++ ellipsisMark
  cutMiddle : width < columnCount s → 1 ≤ width →
    columnCount (ellipsizeMiddle s width) = width ∧
      ∃ head gap tail, s = head ++ gap ++ tail ∧ ellipsizeMiddle s width = head ++ ellipsisMark ++ tail ∧
        columnCount head = (width - 1) / 2 ∧ columnCount tail = width - 1 - (width - 1) / 2
  noRoom : width < columnCount s → width ≤ 0 → ellipsize s width = [] ∧ ellipsizeMiddle s width = []
  utf8 : Utf8.Valid s → Utf8.Valid (ellipsize s width) ∧ Utf8.Valid (ellipsizeMiddle s width)

theorem valid_ellipsize {s : Bytes} (hs : Utf8.Valid s) (width : Int) :
    Utf8.Valid (ellipsize s width) ∧ Utf8.Valid (ellipsizeMiddle s width) := by
  by_cases hfits : textColumns s ≤ width
  · rw [ellipsize, ellipsizeMiddle, if_pos hfits, if_pos hfits]
    exact ⟨hs, hs⟩
  · by_cases hwidth : width ≤ 0
    · rw [ellipsize, ellipsizeMiddle, if_neg hfits, if_neg hfits, if_pos hwidth, if_pos hwidth]
      exact ⟨Utf8.valid_nil, Utf8.valid_nil⟩
    · have hone : 1 ≤ width := by omega
      have hmore : width < textColumns s := by omega
      refine ⟨?_, ?_⟩
      · obtain ⟨head, rest, rfl, hshown, -, hrest⟩ := ellipsize_cut hone hmore
        rw [hshown]
        exact (hs.cut hrest).1.append valid_mark
      · obtain ⟨head, gap, tail, rfl, hshown, -, -, hrest, htail⟩ := ellipsizeMiddle_cut hone hmore
        rw [hshown]
        have htail := (hs.cut htail).2
        rw [List.append_assoc] at hs
        exact ((hs.cut hrest).1.append valid_mark).append htail

theorem ellipsize_noRoom {s : Bytes} {width : Int} (hnone : width ≤ 0) (h : width < textColumns s) :
    ellipsize s width = [] ∧ ellipsizeMiddle s width = [] := by
  have hmore : ¬textColumns s ≤ width := by omega
  rw [ellipsize, ellipsizeMiddle, if_neg hmore, if_pos hnone, if_neg hmore, if_pos hnone]
  exact ⟨rfl, rfl⟩

theorem ellipsized_of_exact {s : Bytes} {width : Int} (h : textColumns s = columnCount s) :
    Ellipsized s width := by
  refine ⟨?_, ?_, ?_, ?_, fun hs => valid_ellipsize hs width⟩
  · intro hfits
    rw [← h] at hfits
    rw [ellipsize, ellipsizeMiddle, if_pos hfits, if_pos hfits]
    exact ⟨rfl, rfl⟩
  · intro hmore hwidth
    rw [← h] at hmore
    obtain ⟨head, rest, rfl, hshown, hhead, -⟩ := ellipsize_cut hwidth hmore
    rw [hshown]
    refine ⟨?_, head, List.prefix_append _ _, rfl⟩
    rw [columnCount_append, columnCount_mark]
    push_cast
    omega
  · intro hmore hwidth
    rw [← h] at hmore
    obtain ⟨head, gap, tail, hs, hshown, hhead, htail, -⟩ := ellipsizeMiddle_cut hwidth hmore
    rw [h, Int.sub_self, Int.add_zero] at htail
    rw [hshown]
    refine ⟨?_, head, gap, tail, hs, rfl, hhead, htail⟩
    rw [columnCount_append, columnCount_append, columnCount_mark]
    push_cast
    omega
  · intro hmore hwidth
    rw [← h] at hmore
    exact ellipsize_noRoom hwidth hmore

/-- A count that comes out too small lets a text through that does not fit. -/
theorem not_ellipsized_of_wrapped {s : Bytes} {width : Int} (h : textColumns s ≤ width)
    (hmore : width < columnCount s) : ¬Ellipsized s width := by
  intro hell
  have hshown : ellipsize s width = s := by rw [ellipsize, if_pos h]
  by_cases hwidth : 1 ≤ width
  · have hcut := (hell.cutEnd hmore hwidth).1
    rw [hshown] at hcut
    omega
  · have hnone := (hell.noRoom hmore (by omega)).1
    rw [hshown] at hnone
    rw [hnone] at h hmore
    have hzero : textColumns [] = 0 := rfl
    have hcount : columnCount [] = 0 := rfl
    omega

theorem ellipsized_iff {width : Int} (hwidth : IsInt width) (s : Bytes) :
    Ellipsized s width ↔ columnCount s < 2 ^ 31 ∨ width ≤ 0 ∧ width < textColumns s := by
  have hint : IsInt (textColumns s) := isInt_asInt _
  have hcount := textColumns_le s
  rw [IsInt] at hwidth hint
  refine ⟨?_, ?_⟩
  · intro hell
    by_contra hnot
    rw [not_or, not_and, Nat.not_lt] at hnot
    obtain ⟨hmany, hroom⟩ := hnot
    have hmore : width < columnCount s := by omega
    by_cases hshort : textColumns s ≤ width
    · exact not_ellipsized_of_wrapped hshort hmore hell
    · -- the tail is too long by what the count is short of
      have hwidth : 1 ≤ width := by
        by_contra hnone
        exact hroom (by omega) (by omega)
      have hroom : width < textColumns s := by omega
      obtain ⟨head, gap, tail, -, hshown, hhead, htail, -⟩ := ellipsizeMiddle_cut hwidth hroom
      have hexact := (hell.cutMiddle hmore hwidth).1
      rw [hshown, columnCount_append, columnCount_append, columnCount_mark] at hexact
      push_cast at hexact
      omega
  · rintro (hfew | ⟨hnone, hroom⟩)
    · exact ellipsized_of_exact (textColumns_eq hfew)
    · refine ⟨fun hfits => absurd hroom ?_, fun _ hone => absurd hone (by omega),
        fun _ hone => absurd hone (by omega), fun _ _ => ?_, fun hs => valid_ellipsize hs width⟩
      · have hzero : textColumns s = columnCount s := textColumns_eq (by omega)
        omega
      · exact ellipsize_noRoom hnone hroom

theorem ellipsized_staging : IsInt 4 ∧ Ellipsized (text "staging") 4 :=
  ⟨by decide, (ellipsized_iff (by decide) (text "staging")).mpr (Or.inl (by decide))⟩

/-- A text of `2^31` ASCII characters counts as `-2^31` columns, and is taken to fit. -/
theorem not_ellipsized_long : ¬Ellipsized (List.replicate (2 ^ 31) 97) 10 := by
  have hcount : columnCount (List.replicate (2 ^ 31) 97) = 2 ^ 31 := by
    rw [columnCount, List.countP_replicate]
    rfl
  have hwrapped : textColumns (List.replicate (2 ^ 31) 97) = -2 ^ 31 := by
    rw [textColumns, hcount]
    rfl
  apply not_ellipsized_of_wrapped
  · rw [hwrapped]
    decide
  · rw [hcount]
    decide

end Secretov
