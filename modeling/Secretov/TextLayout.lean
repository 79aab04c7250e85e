import Mathlib.Algebra.Group.Int.Defs
import Mathlib.Algebra.GroupWithZero.Nat
import Mathlib.Data.List.Forall2
import Secretov.Lib.Utf8
import Secretov.Lines
import Secretov.TuiEdit

/-! Text cut to the terminal's columns (tui_edit.cpp): a column for each code point, none
for the bytes that go on with one. -/

namespace Secretov

/-- Code points of the text. -/
def columnCount (s : Bytes) : Nat := s.countP startsCodePoint

def IsInt (n : Int) : Prop := -2 ^ 31 ≤ n ∧ n < 2 ^ 31

instance (n : Int) : Decidable (IsInt n) := inferInstanceAs (Decidable (_ ∧ _))

def textColumns (s : Bytes) : Int := asInt (columnCount s)

/-- The loop of `prefix_bytes`, after `columns` of them. -/
def prefixFrom (width : Int) : Int → Bytes → Nat
  | _, [] => 0
  | columns, b :: s =>
    if !startsCodePoint b then prefixFrom width columns s + 1
    else if columns = width then 0
    else prefixFrom width (columns + 1) s + 1

def prefixBytes (s : Bytes) (width : Int) : Nat := prefixFrom width 0 s

theorem startsCodePoint_eq (b : UInt8) : startsCodePoint b = !Utf8.continues b := rfl

theorem columnCount_cons (b : UInt8) (s : Bytes) :
    columnCount (b :: s) = columnCount s + if startsCodePoint b then 1 else 0 := List.countP_cons

theorem columnCount_append (s t : Bytes) : columnCount (s ++ t) = columnCount s + columnCount t :=
  List.countP_append

theorem asInt_of_isInt {n : Int} (h : IsInt n) : asInt n = n := by
  rw [asInt, Int.bmod_def]
  rw [IsInt] at h
  split <;> omega

theorem asInt_natCast {n : Nat} (h : n < 2 ^ 31) : asInt n = n := by
  apply asInt_of_isInt
  rw [IsInt]
  omega

theorem isInt_asInt (n : Int) : IsInt (asInt n) := by
  rw [asInt, IsInt, Int.bmod_def]
  split <;> omega

/-- The text is cut where a code point starts, or not at all. -/
theorem prefixFrom_spec {width columns : Int} (h : columns ≤ width) (s : Bytes) :
    ∃ piece rest, s = piece ++ rest ∧ prefixFrom width columns s = piece.length ∧ Utf8.Whole rest ∧
      columnCount piece ≤ width - columns ∧ (rest ≠ [] → columnCount piece = width - columns) ∧
      (columns < width → s ≠ [] → piece ≠ []) := by
  induction s generalizing columns with
  | nil => exact ⟨[], [], rfl, rfl, Utf8.whole_nil, by simp [columnCount, h], nofun, nofun⟩
  | cons b s ih =>
    rw [prefixFrom]
    by_cases hb : startsCodePoint b = true
    · rw [if_neg (by rw [hb]; decide)]
      have hcount (piece : Bytes) : columnCount (b :: piece) = columnCount piece + 1 := by
        rw [columnCount_cons, if_pos hb]
      by_cases hfull : columns = width
      · rw [if_pos hfull, hfull]
        have hwhole : Utf8.Whole (b :: s) := Utf8.whole_cons (by rw [startsCodePoint_eq] at hb; simpa using hb)
        exact ⟨[], b :: s, rfl, rfl, hwhole, by simp [columnCount], by simp [columnCount], by omega⟩
      · rw [if_neg hfull]
        have hnext : columns + 1 ≤ width := by omega
        obtain ⟨piece, rest, rfl, hlength, hwhole, hfits, hexact, -⟩ := ih hnext
        refine ⟨b :: piece, rest, rfl, by rw [hlength, List.length_cons], hwhole, ?_, ?_, fun _ _ => nofun⟩
        · rw [hcount]
          push_cast
          omega
        · intro hrest
          have hsame := hexact hrest
          rw [hcount]
          push_cast
          omega
    · rw [if_pos (by simpa using hb)]
      have hcount (piece : Bytes) : columnCount (b :: piece) = columnCount piece := by
        rw [columnCount_cons, if_neg hb, Nat.add_zero]
      obtain ⟨piece, rest, rfl, hlength, hwhole, hfits, hexact, -⟩ := ih h
      refine ⟨b :: piece, rest, rfl, by rw [hlength, List.length_cons], hwhole, ?_, ?_, fun _ _ => nofun⟩
      · rw [hcount]
        exact hfits
      · rw [hcount]
        exact hexact

theorem prefixBytes_spec {width : Int} (h : 0 ≤ width) (s : Bytes) :
    ∃ piece rest, s = piece ++ rest ∧ prefixBytes s width = piece.length ∧ Utf8.Whole rest ∧
      columnCount piece ≤ width ∧ (rest ≠ [] → columnCount piece = width) ∧
      (1 ≤ width → s ≠ [] → piece ≠ []) := by
  obtain ⟨piece, rest, hs, hlength, hwhole, hfits, hexact, hpos⟩ := prefixFrom_spec h s
  rw [Int.sub_zero] at hfits hexact
  exact ⟨piece, rest, hs, hlength, hwhole, hfits, hexact, fun hwidth => hpos (by omega)⟩

/-- A width with room for a column. -/
abbrev Width := {width : Int // 1 ≤ width}

/-- `std::max(width, 1)`. -/
def Width.of (width : Int) : Width := ⟨max width 1, Int.le_max_right _ _⟩

theorem prefixBytes_pos (width : Width) {s : Bytes} (h : s ≠ []) : 0 < prefixBytes s width := by
  have hwidth := width.2
  obtain ⟨piece, rest, -, hlength, -, -, -, hpos⟩ := prefixBytes_spec (by omega : (0 : Int) ≤ width) s
  rw [hlength]
  exact List.length_pos_iff.mpr (hpos hwidth h)

theorem columnCount_take_prefixBytes (width : Width) (s : Bytes) :
    columnCount (s.take (prefixBytes s width)) ≤ width.1 := by
  have hwidth := width.2
  obtain ⟨piece, rest, hs, hlength, -, hfits, -⟩ := prefixBytes_spec (by omega : (0 : Int) ≤ width) s
  rw [hlength, hs, List.take_left]
  exact hfits

theorem columnCount_drop_prefixBytes (width : Width) {s : Bytes} (h : width.1 < columnCount s) :
    (columnCount (s.drop (prefixBytes s width)) : Int) = columnCount s - width.1 := by
  have hwidth := width.2
  obtain ⟨piece, rest, hs, hlength, -, hfits, hexact, -⟩ := prefixBytes_spec (by omega : (0 : Int) ≤ width) s
  have hcount : columnCount s = columnCount piece + columnCount rest := by rw [hs, columnCount_append]
  rw [hlength, hs, List.drop_left]
  rw [← hs]
  by_cases hrest : rest = []
  · rw [hrest, List.append_nil] at hs
    rw [← hs] at hfits
    omega
  · have hfull := hexact hrest
    omega

theorem drop_prefixBytes_length (width : Width) {s : Bytes} (h : s ≠ []) :
    (s.drop (prefixBytes s width)).length < s.length := by
  have hpos := prefixBytes_pos width h
  have hs := List.length_pos_iff.mpr h
  rw [List.length_drop]
  omega

/-- The inner loop of `wrap_lines`, which cuts at least one piece. -/
def cutLine (width : Width) (line : Bytes) : List Bytes :=
  line.take (prefixBytes line width) ::
    if line.drop (prefixBytes line width) = [] then [] else cutLine width (line.drop (prefixBytes line width))
termination_by line.length
decreasing_by
  apply drop_prefixBytes_length
  rintro rfl
  contradiction

def wrapLines (s : Bytes) (width : Int) : List Bytes := (s.splitOn newline).flatMap (cutLine (Width.of width))

/-- A line and the pieces it is shown in. -/
structure CutLine (width : Int) (line : Bytes) (pieces : List Bytes) : Prop where
  lossless : pieces.flatten = line
  fits : ∀ piece ∈ pieces, columnCount piece ≤ width
  full : pieces.IsChain fun piece next =>
    columnCount piece = width ∧ ∃ b, next.head? = some b ∧ startsCodePoint b = true
  emptyLine : [] ∈ pieces → line = []

theorem cutLine_cut (width : Width) (line : Bytes) : CutLine width line (cutLine width line) := by
  have hwidth := width.2
  induction hn : line.length using Nat.strong_induction_on generalizing line with
  | _ n ih =>
    obtain ⟨piece, rest, hline, hlength, hwhole, hfits, hexact, hpos⟩ :=
      prefixBytes_spec (by omega : (0 : Int) ≤ width) line
    have hpiece : line.take (prefixBytes line width) = piece := by
      rw [hlength, hline, List.take_left]
    have hrest : line.drop (prefixBytes line width) = rest := by
      rw [hlength, hline, List.drop_left]
    rw [cutLine, hpiece, hrest]
    by_cases hmore : rest = []
    · rw [if_pos hmore]
      rw [hmore, List.append_nil] at hline
      refine ⟨?_, ?_, List.IsChain.singleton _, ?_⟩
      · rw [hline, List.flatten_singleton]
      · intro p hp
        rw [List.mem_singleton.mp hp]
        exact hfits
      · intro hempty
        rw [hline, List.mem_singleton.mp hempty]
    · rw [if_neg hmore]
      have hne : piece ≠ [] := hpos hwidth (by rw [hline]; simp [hmore])
      have hshort : rest.length < n := by
        have hpositive := List.length_pos_iff.mpr hne
        rw [← hn, hline, List.length_append]
        omega
      obtain ⟨hlossless, hall, hchain, hempty⟩ := ih rest.length hshort rest rfl
      refine ⟨?_, ?_, ?_, ?_⟩
      · rw [List.flatten_cons, hlossless, hline]
      · intro p hp
        rcases List.mem_cons.mp hp with rfl | hp
        · exact hfits
        · exact hall p hp
      · -- the next piece starts where this one was cut
        cases hcut : cutLine width rest with
        | nil => exact List.IsChain.singleton _
        | cons next more =>
          rw [hcut] at hlossless hchain hempty
          refine List.isChain_cons_cons.mpr ⟨⟨hexact hmore, ?_⟩, hchain⟩
          cases next with
          | nil => exact absurd (hempty List.mem_cons_self) hmore
          | cons b next =>
            have hb := hwhole b (by rw [← hlossless]; rfl)
            exact ⟨b, rfl, by rw [startsCodePoint_eq, hb]; rfl⟩
      · intro hmem
        rcases List.mem_cons.mp hmem with hp | hp
        · exact absurd hp.symm hne
        · exact absurd (hempty hp) hmore

theorem wrapLines_lossless (s : Bytes) (width : Int) : ∃ cuts : List (List Bytes),
    wrapLines s width = cuts.flatten ∧ List.Forall₂ (CutLine (max width 1)) (s.splitOn newline) cuts ∧
      [newline].intercalate (cuts.map List.flatten) = s := by
  have hcuts : ((s.splitOn newline).map (cutLine (Width.of width))).map List.flatten = s.splitOn newline := by
    rw [List.map_map]
    apply List.map_id''
    intro line
    exact (cutLine_cut (Width.of width) line).lossless
  refine ⟨(s.splitOn newline).map (cutLine (Width.of width)), List.flatMap_def, ?_, ?_⟩
  · rw [List.forall₂_map_right_iff, List.forall₂_same]
    intro line _
    exact cutLine_cut (Width.of width) line
  · rw [hcuts, List.intercalate_splitOn]

end Secretov
