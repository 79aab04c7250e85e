import Secretov.TextLayout

/-! Edits of a form field (tui_edit.cpp). Its cursor is an `int`, and right as long as sizes
and offsets fit one: then the text stays UTF-8, and the cursor between code points. -/

namespace Secretov

inductive FormEdit
  | insert (inserted : Bytes)
  | eraseToLineStart
  | eraseWordBefore
  | lineStart
  | lineEnd

def FormEdit.apply (field : Bytes × Int) : FormEdit → Bytes × Int
  | .insert inserted => insertAtCursor field.1 field.2 inserted
  | .eraseToLineStart => Secretov.eraseToLineStart field.1 field.2
  | .eraseWordBefore => Secretov.eraseWordBefore field.1 field.2
  | .lineStart => (field.1, Secretov.lineStart field.1 field.2)
  | .lineEnd => (field.1, Secretov.lineEnd field.1 field.2)

/-- What is inserted is UTF-8. -/
def FormEdit.Typed : FormEdit → Prop
  | .insert inserted => Utf8.Valid inserted
  | _ => True

/-- Where the cursor is: outside of the text, at its nearer end. -/
def cursorAt (s : Bytes) (cursor : Int) : Nat := (max 0 (min cursor s.length)).toNat

/-- The size is an `int`, and so is the offset behind what is inserted. -/
def FormEdit.Fits (field : Bytes × Int) : FormEdit → Prop
  | .insert inserted => field.1.length < 2 ^ 31 ∧ cursorAt field.1 field.2 + inserted.length < 2 ^ 31
  | _ => field.1.length < 2 ^ 31

instance (field : Bytes × Int) (edit : FormEdit) : Decidable (edit.Fits field) :=
  match edit with
  | .insert _ => inferInstanceAs (Decidable (_ ∧ _))
  | .eraseToLineStart | .eraseWordBefore | .lineStart | .lineEnd => inferInstanceAs (Decidable (_ < _))

/-- Each edit fits the field that the edits before it leave. -/
def EditsFit : Bytes × Int → List FormEdit → Prop
  | _, [] => True
  | field, edit :: edits => edit.Fits field ∧ EditsFit (edit.apply field) edits

/-- The cursor is in the text, and not inside a code point. -/
def OnBoundary (s : Bytes) (cursor : Int) : Prop :=
  0 ≤ cursor ∧ cursor ≤ s.length ∧ ∀ b, s[cursor.toNat]? = some b → startsCodePoint b = true

theorem FormEdit.Fits.size {field : Bytes × Int} {edit : FormEdit} (h : edit.Fits field) :
    field.1.length < 2 ^ 31 := by
  cases edit with
  | insert inserted => exact h.1
  | _ => exact h

theorem cursorAt_le (s : Bytes) (cursor : Int) : cursorAt s cursor ≤ s.length := by
  rw [cursorAt]
  omega

theorem cursorAt_of_inside {s : Bytes} {cursor : Int} (hlow : 0 ≤ cursor) (hhigh : cursor ≤ s.length) :
    cursorAt s cursor = cursor.toNat := by
  rw [cursorAt]
  omega

theorem clamped_eq {s : Bytes} (h : s.length < 2 ^ 31) (cursor : Int) : clamped s cursor = cursorAt s cursor := by
  rw [clamped, cursorAt, asInt_natCast h]
  split
  · omega
  · split <;> omega

theorem onBoundary_iff {s : Bytes} {n : Nat} : OnBoundary s n ↔ n ≤ s.length ∧ Utf8.Whole (s.drop n) := by
  rw [OnBoundary, Utf8.Whole, List.head?_drop, Int.toNat_natCast]
  simp only [startsCodePoint_eq, Bool.not_eq_true', Int.natCast_nonneg, true_and, Int.ofNat_le]

theorem onBoundary_append {s t : Bytes} (ht : Utf8.Whole t) : OnBoundary (s ++ t) s.length := by
  rw [onBoundary_iff, List.drop_left, List.length_append]
  exact ⟨Nat.le_add_right _ _, ht⟩

/-- The cursor may be outside the text, where it is clamped. -/
theorem whole_cursorAt {s : Bytes} {cursor : Int} (hs : Utf8.Valid s)
    (h : OnBoundary s cursor ∨ cursor < 0 ∨ s.length < cursor) : Utf8.Whole (s.drop (cursorAt s cursor)) := by
  rcases h with hin | hlow | hhigh
  · obtain ⟨hlow, hhigh, -⟩ := id hin
    rw [cursorAt_of_inside hlow hhigh]
    rw [← Int.toNat_of_nonneg hlow] at hin
    exact (onBoundary_iff.mp hin).2
  · have hstart : cursorAt s cursor = 0 := by
      rw [cursorAt]
      omega
    rw [hstart]
    exact hs.whole
  · have hend : cursorAt s cursor = s.length := by
      rw [cursorAt]
      omega
    rw [hend, List.drop_length]
    exact Utf8.whole_nil

theorem rdropWhile_split (p : UInt8 → Bool) (s : Bytes) :
    ∃ erased, s = s.rdropWhile p ++ erased ∧ (∀ b ∈ erased, p b = true) ∧
      (s.rdropWhile p = [] ∨ ∃ kept b, s.rdropWhile p = kept ++ [b] ∧ p b = false) := by
  refine ⟨s.rtakeWhile p, (List.rdropWhile_append_rtakeWhile).symm, fun b hb => List.mem_rtakeWhile_imp hb, ?_⟩
  cases hkept : s.rdropWhile p using List.reverseRecOn with
  | nil => exact Or.inl rfl
  | append_singleton kept b =>
    have hlast := List.rdropWhile_last_not p s (by rw [hkept]; simp)
    simp only [hkept, List.getLast_append_singleton, Bool.not_eq_true] at hlast
    exact Or.inr ⟨kept, b, rfl, hlast⟩

/-- Where the loop stops at ASCII bytes only, it stops where a code point starts. -/
theorem whole_after_rdropWhile {p : UInt8 → Bool} (hp : ∀ b, p b = false → b < 0x80) {s t rest : Bytes}
    (hs : Utf8.Valid (s ++ t)) (hrest : s ++ t = s.rdropWhile p ++ rest) : Utf8.Whole rest := by
  obtain ⟨erased, -, -, hstart | ⟨kept, b, hkept, hb⟩⟩ := rdropWhile_split p s
  · rw [hstart, List.nil_append] at hrest
    rw [← hrest]
    exact hs.whole
  · rw [hrest, hkept, List.append_assoc, List.singleton_append] at hs
    exact hs.after_ascii (hp b hb)

theorem ascii_newline (b : UInt8) (h : decide (b ≠ newline) = false) : b < 0x80 := by
  simp only [ne_eq, decide_not, Bool.not_eq_false', decide_eq_true_eq] at h
  rw [h]
  decide

theorem ascii_separator (b : UInt8) (h : (!isWordSeparator b) = false) : b < 0x80 := by
  rw [Bool.not_eq_false', isWordSeparator, isSpace] at h
  simp only [Bool.or_eq_true, beq_iff_eq, Bool.and_eq_true, decide_eq_true_eq] at h
  rcases h with (rfl | ⟨-, hle⟩) | rfl
  · decide
  · exact UInt8.lt_of_le_of_lt hle (by decide)
  · decide

/-- The text before the cursor, and what a word erase keeps of it. -/
def beforeCursor (s : Bytes) (cursor : Int) : Bytes := s.take (cursorAt s cursor)

def wordKept (before : Bytes) : Bytes := (before.rdropWhile isWordSeparator).rdropWhile (!isWordSeparator ·)

theorem length_beforeCursor (s : Bytes) (cursor : Int) : (beforeCursor s cursor).length = cursorAt s cursor := by
  have hle := cursorAt_le s cursor
  rw [beforeCursor, List.length_take]
  omega

theorem wordKept_split (before : Bytes) : ∃ word seps, before = wordKept before ++ word ++ seps ∧
    (∀ b ∈ word, isWordSeparator b = false) ∧ (∀ b ∈ seps, isWordSeparator b = true) ∧
      (wordKept before = [] ∨
        word ≠ [] ∧ ∃ kept b, wordKept before = kept ++ [b] ∧ isWordSeparator b = true) := by
  obtain ⟨seps, hseps, hall, hend⟩ := rdropWhile_split isWordSeparator before
  obtain ⟨word, hword, hall', hstart⟩ := rdropWhile_split (!isWordSeparator ·) (before.rdropWhile isWordSeparator)
  refine ⟨word, seps, ?_, ?_, hall, ?_⟩
  · rw [wordKept, ← hword]
    exact hseps
  · intro b hb
    have hnot := hall' b hb
    rwa [Bool.not_eq_true'] at hnot
  · rcases hstart with hnil | ⟨kept, b, hkept, hb⟩
    · exact Or.inl hnil
    · rw [Bool.not_eq_false'] at hb
      refine Or.inr ⟨?_, kept, b, hkept, hb⟩
      -- a word that is empty would leave a separator that the first loop stopped at
      rintro rfl
      rw [hkept, List.append_nil] at hword
      rcases hend with hnil | ⟨kept', c, hkept', hc⟩
      · rw [hword] at hnil
        simp at hnil
      · rw [hword] at hkept'
        have hsame : b = c := by simpa using congrArg List.getLast? hkept'
        rw [hsame, hc] at hb
        cases hb

/-- An edit erased the bytes between `start` and the cursor, nothing else, and left the
cursor at `start`. -/
structure Erased (s : Bytes) (cursor : Int) (after : Bytes × Int) (start : Nat) (erased : Bytes) : Prop where
  le : start ≤ cursorAt s cursor
  erased : (s.take (cursorAt s cursor)).drop start = erased
  after : after = (s.take start ++ s.drop (cursorAt s cursor), (start : Int))

theorem erased_of_split {s kept erased : Bytes} {cursor : Int} (h : beforeCursor s cursor = kept ++ erased) :
    Erased s cursor (kept ++ s.drop (cursorAt s cursor), kept.length) kept.length erased ∧
      s.take kept.length = kept := by
  have hlength := length_beforeCursor s cursor
  rw [h, List.length_append] at hlength
  rw [beforeCursor] at h
  have htake : s.take kept.length = kept := by
    rw [← List.take_append_drop (cursorAt s cursor) s, h, List.append_assoc, List.take_left]
  refine ⟨⟨by omega, ?_, ?_⟩, htake⟩
  · rw [h, List.drop_left]
  · rw [htake]

/-- A move went to the start of the cursor's line. -/
structure StartsLine (s : Bytes) (cursor : Int) (start : Nat) : Prop where
  le : start ≤ cursorAt s cursor
  line : newline ∉ (s.take (cursorAt s cursor)).drop start
  starts : start = 0 ∨ (s.take start).getLast? = some newline

/-- A move went to the end of the cursor's line. -/
structure EndsLine (s : Bytes) (cursor : Int) (stop : Nat) : Prop where
  le : cursorAt s cursor ≤ stop
  inside : stop ≤ s.length
  line : newline ∉ (s.take stop).drop (cursorAt s cursor)
  ends : stop = s.length ∨ s[stop]? = some newline

/-! What the edits do where sizes and offsets fit an `int`. -/

def lineKept (before : Bytes) : Bytes := before.rdropWhile (· ≠ newline)

def lineRest (s : Bytes) (cursor : Int) : Bytes := (s.drop (cursorAt s cursor)).takeWhile (· ≠ newline)

section

variable {s : Bytes} (h : s.length < 2 ^ 31) (cursor : Int)

include h

theorem insertAtCursor_eq {inserted : Bytes} (hin : cursorAt s cursor + inserted.length < 2 ^ 31) :
    insertAtCursor s cursor inserted = (s.take (cursorAt s cursor) ++ inserted ++ s.drop (cursorAt s cursor),
      ((cursorAt s cursor + inserted.length : Nat) : Int)) := by
  rw [insertAtCursor, clamped_eq h, ← Int.natCast_add, asInt_natCast hin]

theorem lineStart_eq : lineStart s cursor = ((lineKept (beforeCursor s cursor)).length : Int) := by
  have hle : (lineKept (beforeCursor s cursor)).length ≤ (beforeCursor s cursor).length :=
    (List.rdropWhile_prefix _ _).length_le
  have hbefore := cursorAt_le s cursor
  rw [length_beforeCursor] at hle
  have hint : (lineKept (beforeCursor s cursor)).length < 2 ^ 31 := by omega
  rw [lineStart, clamped_eq h]
  exact asInt_natCast hint

theorem lineEnd_eq : lineEnd s cursor = ((cursorAt s cursor + (lineRest s cursor).length : Nat) : Int) := by
  have hle : (lineRest s cursor).length ≤ (s.drop (cursorAt s cursor)).length :=
    (List.takeWhile_prefix _).length_le
  have hbefore := cursorAt_le s cursor
  rw [List.length_drop] at hle
  have hint : cursorAt s cursor + (lineRest s cursor).length < 2 ^ 31 := by omega
  rw [lineEnd, clamped_eq h, ← Int.natCast_add]
  exact asInt_natCast hint

theorem eraseToLineStart_eq : eraseToLineStart s cursor =
    (lineKept (beforeCursor s cursor) ++ s.drop (cursorAt s cursor),
      ((lineKept (beforeCursor s cursor)).length : Int)) := by
  obtain ⟨erased, hsplit, -⟩ := rdropWhile_split (· ≠ newline) (beforeCursor s cursor)
  have htake : s.take (lineKept (beforeCursor s cursor)).length = lineKept (beforeCursor s cursor) :=
    (erased_of_split hsplit).2
  have hstart := lineStart_eq h cursor
  rw [eraseToLineStart, hstart, clamped_eq h, Int.toNat_natCast, htake, ← hstart, lineStart]
  exact congrArg _ (asInt_of_isInt (isInt_asInt _))

theorem eraseWordBefore_eq : eraseWordBefore s cursor =
    (wordKept (beforeCursor s cursor) ++ s.drop (cursorAt s cursor),
      ((wordKept (beforeCursor s cursor)).length : Int)) := by
  have hle : (wordKept (beforeCursor s cursor)).length ≤ (beforeCursor s cursor).length :=
    ((List.rdropWhile_prefix _ _).trans (List.rdropWhile_prefix _ _)).length_le
  have hbefore := cursorAt_le s cursor
  rw [length_beforeCursor] at hle
  have hint : (wordKept (beforeCursor s cursor)).length < 2 ^ 31 := by omega
  rw [eraseWordBefore, clamped_eq h]
  exact congrArg _ (asInt_natCast hint)

theorem lineStart_spec : ∃ start : Nat, lineStart s cursor = start ∧ StartsLine s cursor start ∧
    Erased s cursor (eraseToLineStart s cursor) start ((s.take (cursorAt s cursor)).drop start) := by
  obtain ⟨erased, hsplit, hall, hend⟩ := rdropWhile_split (· ≠ newline) (beforeCursor s cursor)
  obtain ⟨herased, htake⟩ := erased_of_split hsplit
  have hline : newline ∉ erased := fun hmem => absurd (hall newline hmem) (by decide)
  refine ⟨_, lineStart_eq h cursor, ⟨herased.le, ?_, ?_⟩, ?_⟩
  · rw [lineKept, herased.erased]
    exact hline
  · rw [lineKept, htake]
    rcases hend with hnil | ⟨kept, b, hkept, hb⟩
    · rw [hnil]
      exact Or.inl rfl
    · rw [hkept, List.getLast?_concat]
      refine Or.inr (congrArg some ?_)
      simpa using hb
  · rw [eraseToLineStart_eq h, lineKept, herased.erased]
    exact herased

theorem lineEnd_spec : ∃ stop : Nat, lineEnd s cursor = stop ∧ EndsLine s cursor stop := by
  have hle := cursorAt_le s cursor
  have hrest : lineRest s cursor ++ (s.drop (cursorAt s cursor)).dropWhile (· ≠ newline) =
      s.drop (cursorAt s cursor) := List.takeWhile_append_dropWhile
  have hlength := congrArg List.length hrest
  rw [List.length_append, List.length_drop] at hlength
  refine ⟨_, lineEnd_eq h cursor, by omega, by omega, ?_, ?_⟩
  · rw [List.drop_take, Nat.add_sub_cancel_left, ← hrest, List.take_left]
    intro hmem
    simpa using List.mem_takeWhile_imp hmem
  · rw [← List.getElem?_drop, ← hrest, List.getElem?_append_right (le_refl _),
      Nat.sub_self, ← List.head?_eq_getElem?]
    have hstop := List.head?_dropWhile_not (· ≠ newline) (s.drop (cursorAt s cursor))
    cases hmore : (s.drop (cursorAt s cursor)).dropWhile (· ≠ newline) with
    | nil =>
      rw [hmore, List.length_nil] at hlength
      exact Or.inl (by omega)
    | cons b more =>
      rw [hmore] at hstop
      refine Or.inr (congrArg some ?_)
      simpa using hstop

theorem eraseWordBefore_erased : ∃ start word seps,
    Erased s cursor (eraseWordBefore s cursor) start (word ++ seps) ∧
      (∀ b ∈ word, isWordSeparator b = false) ∧ (∀ b ∈ seps, isWordSeparator b = true) ∧
      (start = 0 ∨ word ≠ [] ∧ ∃ b, (s.take start).getLast? = some b ∧ isWordSeparator b = true) := by
  obtain ⟨word, seps, hsplit, hword, hseps, hstart⟩ := wordKept_split (beforeCursor s cursor)
  rw [List.append_assoc] at hsplit
  obtain ⟨herased, htake⟩ := erased_of_split hsplit
  rw [← eraseWordBefore_eq h] at herased
  refine ⟨_, word, seps, herased, hword, hseps, ?_⟩
  rcases hstart with hnil | ⟨hne, kept, b, hkept, hb⟩
  · rw [hnil]
    exact Or.inl rfl
  · rw [htake, hkept]
    exact Or.inr ⟨hne, b, List.getLast?_concat, hb⟩

end

/-- Texts and cursors as the form keeps them. -/
def FieldOk (field : Bytes × Int) : Prop := Utf8.Valid field.1 ∧ OnBoundary field.1 field.2

theorem fieldOk_append {s t : Bytes} (hs : Utf8.Valid s) (ht : Utf8.Valid t) : FieldOk (s ++ t, s.length) :=
  ⟨hs.append ht, onBoundary_append ht.whole⟩

/-- A loop that stops where a code point starts leaves the cursor there. -/
theorem fieldOk_kept {s kept erased : Bytes} {cursor : Int} (hs : Utf8.Valid s)
    (hcursor : Utf8.Whole (s.drop (cursorAt s cursor))) (hsplit : beforeCursor s cursor = kept ++ erased)
    (hrest : Utf8.Whole (erased ++ s.drop (cursorAt s cursor))) :
    FieldOk (kept ++ s.drop (cursorAt s cursor), kept.length) ∧ FieldOk (s, kept.length) := by
  have htext : s = kept ++ (erased ++ s.drop (cursorAt s cursor)) := by
    rw [← List.append_assoc, ← hsplit, beforeCursor, List.take_append_drop]
  have hafter : Utf8.Valid (s.drop (cursorAt s cursor)) := by
    have hcut := hs
    rw [← List.take_append_drop (cursorAt s cursor) s] at hcut
    exact (hcut.cut hcursor).2
  have hwhole := hs
  rw [htext] at hwhole
  refine ⟨fieldOk_append (hwhole.cut hrest).1 hafter, hs, ?_⟩
  dsimp only
  rw [htext]
  exact onBoundary_append hrest

theorem fieldOk_apply {s : Bytes} {cursor : Int} {edit : FormEdit} (hs : Utf8.Valid s)
    (hcursor : Utf8.Whole (s.drop (cursorAt s cursor))) (hedit : edit.Typed) (hfits : edit.Fits (s, cursor)) :
    FieldOk (edit.apply (s, cursor)) := by
  have htext : beforeCursor s cursor ++ s.drop (cursorAt s cursor) = s := List.take_append_drop _ _
  have hlength := length_beforeCursor s cursor
  have hsize : s.length < 2 ^ 31 := hfits.size
  have hvalid := hs
  rw [← htext] at hvalid
  obtain ⟨hbefore, hafter⟩ := hvalid.cut hcursor
  -- the line before the cursor
  obtain ⟨erased, hline, -⟩ := rdropWhile_split (· ≠ newline) (beforeCursor s cursor)
  have hlineRest : Utf8.Whole (erased ++ s.drop (cursorAt s cursor)) :=
    whole_after_rdropWhile ascii_newline hvalid (by rw [← List.append_assoc, ← hline])
  have hlineStart := fieldOk_kept hs hcursor hline hlineRest
  cases edit with
  | insert inserted =>
    have hinserted := fieldOk_append (hbefore.append hedit) hafter
    rw [List.length_append, hlength] at hinserted
    rw [FormEdit.apply, insertAtCursor_eq hsize cursor hfits.2]
    exact hinserted
  | eraseToLineStart =>
    rw [FormEdit.apply, eraseToLineStart_eq hsize]
    exact hlineStart.1
  | eraseWordBefore =>
    obtain ⟨word, seps, hword, -⟩ := wordKept_split (beforeCursor s cursor)
    obtain ⟨seps', hseps, -⟩ := rdropWhile_split isWordSeparator (beforeCursor s cursor)
    rw [List.append_assoc] at hword
    have hstop : (beforeCursor s cursor).rdropWhile isWordSeparator ++ (seps' ++ s.drop (cursorAt s cursor)) =
        wordKept (beforeCursor s cursor) ++ (word ++ seps ++ s.drop (cursorAt s cursor)) := by
      rw [← List.append_assoc, ← hseps, ← List.append_assoc, ← hword]
    have hwordRest : Utf8.Whole (word ++ seps ++ s.drop (cursorAt s cursor)) := by
      refine whole_after_rdropWhile ascii_separator ?_ hstop
      rw [← List.append_assoc, ← hseps]
      exact hvalid
    rw [FormEdit.apply, eraseWordBefore_eq hsize]
    exact (fieldOk_kept hs hcursor hword hwordRest).1
  | lineStart =>
    rw [FormEdit.apply, lineStart_eq hsize]
    exact hlineStart.2
  | lineEnd =>
    rw [FormEdit.apply, lineEnd_eq hsize]
    refine ⟨hs, ?_⟩
    have hend : Utf8.Whole ((s.drop (cursorAt s cursor)).dropWhile (· ≠ newline)) := by
      intro b hb
      have hstop := List.head?_dropWhile_not (· ≠ newline) (s.drop (cursorAt s cursor))
      rw [hb] at hstop
      exact Utf8.continues_ascii (ascii_newline b hstop)
    have hsplit : beforeCursor s cursor ++ lineRest s cursor ++
        (s.drop (cursorAt s cursor)).dropWhile (· ≠ newline) = s := by
      rw [lineRest, List.append_assoc, List.takeWhile_append_dropWhile, htext]
    have hboundary := onBoundary_append (s := beforeCursor s cursor ++ lineRest s cursor) hend
    rw [hsplit, List.length_append, hlength] at hboundary
    exact hboundary

theorem fieldOk_foldl {edits : List FormEdit} (hedits : ∀ edit ∈ edits, edit.Typed) {field : Bytes × Int}
    (hfits : EditsFit field edits) (h : FieldOk field) : FieldOk (edits.foldl FormEdit.apply field) := by
  induction edits generalizing field with
  | nil => exact h
  | cons edit edits ih =>
    have hcursor := whole_cursorAt h.1 (Or.inl h.2)
    exact ih (fun e he => hedits e (List.mem_cons_of_mem _ he)) hfits.2
      (fieldOk_apply h.1 hcursor (hedits edit List.mem_cons_self) hfits.1)

/-- Where the offset is no `int`, the cursor wraps to the front of the text. -/
theorem insert_wraps {s inserted : Bytes} {cursor : Int} (hs : s.length < 2 ^ 31)
    (hinserted : inserted.length < 2 ^ 31)
    (hover : 2 ^ 31 ≤ cursorAt s cursor + inserted.length) : (insertAtCursor s cursor inserted).2 < 0 := by
  have hle := cursorAt_le s cursor
  rw [insertAtCursor, clamped_eq hs, asInt, Int.bmod_def]
  dsimp only
  split <;> omega

theorem rdropWhile_stop {p : UInt8 → Bool} {s more : Bytes} {b : UInt8} (hb : p b = false)
    (hmore : ∀ c ∈ more, p c = true) : (s ++ b :: more).rdropWhile p = s ++ [b] := by
  induction more using List.reverseRecOn with
  | nil => exact List.rdropWhile_concat_neg p s b (Bool.eq_false_iff.mp hb)
  | append_singleton more c ih =>
    have hlast := List.rdropWhile_concat_pos p (s ++ b :: more) c (hmore c (by simp))
    rw [List.append_assoc, List.cons_append] at hlast
    rw [hlast, ih fun d hd => hmore d (List.mem_append_left _ hd)]

theorem eraseLastCodePoint_encoded (cs : List Char) (c : Char) :
    eraseLastCodePoint ((cs ++ [c]).flatMap String.utf8EncodeChar) = cs.flatMap String.utf8EncodeChar := by
  obtain ⟨b, more, hshape, hb, hmore, -⟩ := Utf8.encode_shape c
  have hstop : ((cs ++ [c]).flatMap String.utf8EncodeChar).rdropWhile (!startsCodePoint ·) =
      cs.flatMap String.utf8EncodeChar ++ [b] := by
    rw [List.flatMap_append, List.flatMap_singleton, hshape]
    apply rdropWhile_stop
    · rw [startsCodePoint_eq, hb]
      rfl
    · intro d hd
      rw [startsCodePoint_eq, hmore d hd]
      rfl
  rw [eraseLastCodePoint, hstop, List.dropLast_concat]

theorem form_edits_keep_utf8 (s : Bytes) (cursor : Int) :
    (∀ edits : List FormEdit, Utf8.Valid s → OnBoundary s cursor ∨ cursor < 0 ∨ s.length < cursor →
      (∀ edit ∈ edits, edit.Typed) → edits ≠ [] → EditsFit (s, cursor) edits →
        Utf8.Valid (edits.foldl FormEdit.apply (s, cursor)).1 ∧
          OnBoundary (edits.foldl FormEdit.apply (s, cursor)).1 (edits.foldl FormEdit.apply (s, cursor)).2) ∧
    (s.length < 2 ^ 31 →
      (∀ inserted : Bytes, cursorAt s cursor + inserted.length < 2 ^ 31 → insertAtCursor s cursor inserted =
        (s.take (cursorAt s cursor) ++ inserted ++ s.drop (cursorAt s cursor),
          ((cursorAt s cursor + inserted.length : Nat) : Int))) ∧
      (∀ inserted : Bytes, inserted.length < 2 ^ 31 → 2 ^ 31 ≤ cursorAt s cursor + inserted.length →
        (insertAtCursor s cursor inserted).2 < 0) ∧
      (∃ start : Nat, lineStart s cursor = start ∧ StartsLine s cursor start ∧
        Erased s cursor (eraseToLineStart s cursor) start ((s.take (cursorAt s cursor)).drop start)) ∧
      (∃ stop : Nat, lineEnd s cursor = stop ∧ EndsLine s cursor stop) ∧
      ∃ start word seps, Erased s cursor (eraseWordBefore s cursor) start (word ++ seps) ∧
        (∀ b ∈ word, isWordSeparator b = false) ∧ (∀ b ∈ seps, isWordSeparator b = true) ∧
        (start = 0 ∨ word ≠ [] ∧ ∃ b, (s.take start).getLast? = some b ∧ isWordSeparator b = true)) ∧
    ∀ (cs : List Char) (c : Char),
      eraseLastCodePoint ((cs ++ [c]).flatMap String.utf8EncodeChar) = cs.flatMap String.utf8EncodeChar := by
  refine ⟨?_, ?_, eraseLastCodePoint_encoded⟩
  · intro edits hs hcursor hedits hne hfits
    cases edits with
    | nil => exact absurd rfl hne
    | cons edit edits =>
      have hfirst := fieldOk_apply hs (whole_cursorAt hs hcursor) (hedits edit List.mem_cons_self) hfits.1
      exact fieldOk_foldl (fun e he => hedits e (List.mem_cons_of_mem _ he)) hfits.2 hfirst
  · intro hs
    exact ⟨fun inserted => insertAtCursor_eq hs cursor, fun inserted => insert_wraps hs, lineStart_spec hs cursor,
      lineEnd_spec hs cursor, eraseWordBefore_erased hs cursor⟩

/-- From behind the text: a line and two words are typed, the last word is erased, and the cursor
goes to the start of the line. -/
theorem form_edits_keep_utf8_sample : Utf8.Valid (text "a\nb ") ∧ OnBoundary (text "a\nb ") 2 := by
  have hvalid : Utf8.Valid (text "a") := ⟨['a'], by decide +kernel⟩
  have hinserted : Utf8.Valid (text "\nb c") := ⟨['\n', 'b', ' ', 'c'], by decide +kernel⟩
  have hafter : [.insert (text "\nb c"), .eraseWordBefore, .lineStart].foldl FormEdit.apply (text "a", 9) =
      (text "a\nb ", 2) := by decide +kernel
  have hfits : EditsFit (text "a", 9) [.insert (text "\nb c"), .eraseWordBefore, .lineStart] :=
    ⟨⟨by decide +kernel, by decide +kernel⟩, by decide +kernel, by decide +kernel, trivial⟩
  have hkept := (form_edits_keep_utf8 (text "a") 9).1 _ hvalid (Or.inr (Or.inr (by decide +kernel)))
    (by simp [FormEdit.Typed, hinserted]) (by simp) hfits
  rwa [hafter] at hkept

theorem valid_letters (n : Nat) : Utf8.Valid (List.replicate n 97) := by
  refine ⟨List.replicate n 'a', ?_⟩
  have hletter : String.utf8EncodeChar 'a' = [97] := by decide +kernel
  induction n with
  | zero => rfl
  | succ n ih => rw [List.replicate_succ, List.replicate_succ, List.flatMap_cons, ← ih, hletter,
      List.singleton_append]

/-- Each edit of a field shorter than `2^31` bytes leaves the cursor in it. -/
def KeepsCursor : Prop :=
  ∀ (s : Bytes) (cursor : Int) (edits : List FormEdit), Utf8.Valid s → s.length < 2 ^ 31 →
    OnBoundary s cursor ∨ cursor < 0 ∨ s.length < cursor → (∀ edit ∈ edits, edit.Typed) → edits ≠ [] →
      OnBoundary (edits.foldl FormEdit.apply (s, cursor)).1 (edits.foldl FormEdit.apply (s, cursor)).2

/-- A field of `2^31 - 1` letters, and one more typed behind them. -/
theorem not_keepsCursor : ¬KeepsCursor := by
  intro hclaim
  obtain ⟨n, hn⟩ : ∃ n, n + 1 = 2 ^ 31 := ⟨2 ^ 31 - 1, rfl⟩
  have hlength : (List.replicate n (97 : UInt8)).length = n := List.length_replicate
  have hcursor : cursorAt (List.replicate n 97) (n + 1) = n := by
    rw [cursorAt, hlength]
    omega
  have hsize : (List.replicate n (97 : UInt8)).length < 2 ^ 31 := by omega
  have htyped : ∀ edit ∈ [FormEdit.insert (List.replicate 1 97)], edit.Typed := by
    intro edit hedit
    rw [List.mem_singleton] at hedit
    subst hedit
    exact valid_letters 1
  have hkept := hclaim (List.replicate n 97) (n + 1) [.insert (List.replicate 1 97)] (valid_letters n) hsize
    (Or.inr (Or.inr (by omega))) htyped (List.cons_ne_nil _ _)
  have hover : 2 ^ 31 ≤ cursorAt (List.replicate n 97) (n + 1) + (List.replicate 1 (97 : UInt8)).length := by
    rw [hcursor, List.length_replicate, hn]
  have hwrapped : (insertAtCursor (List.replicate n 97) (n + 1) (List.replicate 1 97)).2 < 0 :=
    insert_wraps hsize (by decide) hover
  have hinside : 0 ≤ (insertAtCursor (List.replicate n 97) (n + 1) (List.replicate 1 97)).2 := hkept.1
  exact absurd hinside (Int.not_le.mpr hwrapped)

end Secretov
