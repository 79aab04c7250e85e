import Secretov.TextLayout

/-! Text split at spaces into lines of a width (tui_edit.cpp): a word that fits in a line
stays whole, a wider one is cut. -/

namespace Secretov

/-- The lines that are done, and the one being filled. -/
structure Wrapping where
  lines : List Bytes
  line : Bytes

/-- The columns `line` would take with a word after it, as an `int` has them. -/
def neededColumns (line word : Bytes) : Int :=
  asInt (textColumns line + (if line = [] then 0 else 1) + textColumns word)

/-- The inner loop of `word_wrap`: the word goes into the line, the line is done, or the line
is empty and the word too wide for it. -/
def placeWord (width : Width) (word : Bytes) (w : Wrapping) : Wrapping :=
  if word = [] then w
  else if neededColumns w.line word ≤ width then
    { w with line := (if w.line = [] then [] else w.line ++ [blank]) ++ word }
  else if w.line ≠ [] then placeWord width word ⟨w.lines ++ [w.line], []⟩
  else
    placeWord width (word.drop (prefixBytes word width)) ⟨w.lines ++ [word.take (prefixBytes word width)], []⟩
termination_by (word.length, w.line.length)
decreasing_by
  · rename_i hline
    exact Prod.Lex.right _ (List.length_pos_iff.mpr hline)
  · rename_i hword _ _
    exact Prod.Lex.left _ _ (drop_prefixBytes_length width hword)

def wordWrap (s : Bytes) (width : Int) : List Bytes :=
  let w := (s.splitOn blank).foldl (fun w word => placeWord (Width.of width) word w) ⟨[], []⟩
  if w.line ≠ [] ∨ w.lines = [] then w.lines ++ [w.line] else w.lines

/-- Words joined by single spaces. -/
def spaced (words : List Bytes) : Bytes := [blank].intercalate words

theorem spaced_append (words : List Bytes) (word : Bytes) :
    spaced (words ++ [word]) = (if words = [] then [] else spaced words ++ [blank]) ++ word := by
  induction words with
  | nil => exact List.intercalate_singleton
  | cons first words ih =>
    rw [if_neg (List.cons_ne_nil _ _)]
    cases words with
    | nil => simp [spaced]
    | cons next words =>
      have hmore : next :: words ++ [word] ≠ [] := List.cons_ne_nil _ _
      have hwords : next :: words ≠ [] := List.cons_ne_nil _ _
      rw [if_neg hwords] at ih
      rw [spaced] at ih
      rw [List.cons_append, spaced, spaced, List.intercalate_cons_of_ne_nil hmore, ih,
        List.intercalate_cons_of_ne_nil hwords, spaced]
      simp only [List.append_assoc]

/-- A word and the pieces it is laid out in. -/
structure CutWord (width : Int) (word : Bytes) (pieces : List Bytes) : Prop where
  lossless : pieces.flatten = word
  nonempty : [] ∉ pieces
  whole : columnCount word ≤ width → pieces.length ≤ 1

/-- What the result of `word_wrap` is for. -/
structure Wrapped (s : Bytes) (width : Int) (lines : List Bytes) : Prop where
  someLine : lines ≠ []
  fits : ∀ line ∈ lines, columnCount line ≤ max width 1
  lossless : lines.flatten.filter (· ≠ blank) = s.filter (· ≠ blank)
  trimmed : ∀ line ∈ lines, line.head? ≠ some blank ∧ line.getLast? ≠ some blank
  words : ∃ groups cuts : List (List Bytes), lines = groups.map spaced ∧ groups.flatten = cuts.flatten ∧
    List.Forall₂ (CutWord (max width 1)) (s.splitOn blank) cuts

/-- The columns a word takes on a line that goes on. -/
def room (word : Bytes) : Nat := if word = [] then 0 else columnCount word + 1

theorem columnCount_le_room (word : Bytes) : columnCount word ≤ room word := by
  rw [room]
  by_cases hword : word = []
  · rw [if_pos hword, hword]
    rfl
  · rw [if_neg hword]
    omega

theorem columnCount_joined (line word : Bytes) :
    columnCount ((if line = [] then [] else line ++ [blank]) ++ word) = room line + columnCount word := by
  rw [columnCount_append, room]
  by_cases hline : line = []
  · rw [if_pos hline, if_pos hline]
    rfl
  · rw [if_neg hline, if_neg hline, columnCount_append]
    rfl

theorem neededColumns_eq (line word : Bytes) :
    neededColumns line word = asInt (room line + columnCount word) := by
  have hline : columnCount line + (if line = [] then 0 else 1) = (room line : Int) := by
    rw [room]
    by_cases hempty : line = []
    · rw [if_pos hempty, if_pos hempty, hempty]
      rfl
    · rw [if_neg hempty, if_neg hempty]
      push_cast
      rfl
  rw [neededColumns, textColumns, textColumns, asInt, asInt, asInt, asInt, Int.add_bmod_bmod, add_assoc,
    Int.bmod_add_bmod, ← add_assoc, hline]

/-- What a line takes up once a word is laid out, from what the line before the word did. -/
def roomAfter (width taken : Nat) (word : Bytes) : Nat :=
  if word = [] then taken
  else if taken + columnCount word ≤ width then taken + columnCount word + 1
  else if columnCount word ≤ width then columnCount word + 1
  else (columnCount word - 1) % width + 2

/-- No word meets a line with which it has `2^31` columns. -/
def SumsFit (width : Nat) : Nat → List Bytes → Prop
  | _, [] => True
  | taken, word :: words =>
    (word ≠ [] → taken + columnCount word < 2 ^ 31) ∧ SumsFit width (roomAfter width taken word) words

theorem roomAfter_done {width taken : Nat} {word : Bytes} (hword : word ≠ [])
    (h : width < taken + columnCount word) : roomAfter width 0 word = roomAfter width taken word := by
  have hwide : ¬taken + columnCount word ≤ width := Nat.not_le.mpr h
  rw [roomAfter, roomAfter, if_neg hword, if_neg hword, if_neg hwide, Nat.zero_add]
  split <;> rfl

theorem roomAfter_cut {width : Nat} {word rest : Bytes} (hwidth : 0 < width) (h : width < columnCount word)
    (hrest : columnCount word = columnCount rest + width) : roomAfter width 0 rest = roomAfter width 0 word := by
  have hcut (cut : Bytes) (hcount : 0 < columnCount cut) :
      roomAfter width 0 cut = (columnCount cut - 1) % width + 2 := by
    have hne : cut ≠ [] := by
      rintro rfl
      exact absurd hcount (by decide)
    rw [roomAfter, if_neg hne, Nat.zero_add]
    by_cases hfits : columnCount cut ≤ width
    · rw [if_pos hfits, Nat.mod_eq_of_lt (by omega)]
      omega
    · rw [if_neg hfits, if_neg hfits]
  have hless : columnCount word - 1 = columnCount rest - 1 + width := by omega
  rw [hcut rest (by omega), hcut word (by omega), hless, Nat.add_mod_right]

section

variable {width : Width} {word : Bytes} {w : Wrapping}

theorem placeWord_nil : placeWord width [] w = w := by
  rw [placeWord, if_pos rfl]

theorem placeWord_fits (hword : word ≠ []) (h : neededColumns w.line word ≤ width) :
    placeWord width word w = { w with line := (if w.line = [] then [] else w.line ++ [blank]) ++ word } := by
  rw [placeWord, if_neg hword, if_pos h]

theorem placeWord_done (hword : word ≠ []) (h : ¬neededColumns w.line word ≤ width) (hline : w.line ≠ []) :
    placeWord width word w = placeWord width word ⟨w.lines ++ [w.line], []⟩ := by
  rw [placeWord, if_neg hword, if_neg h, if_pos hline]

theorem placeWord_cut (hword : word ≠ []) (h : ¬neededColumns w.line word ≤ width) (hline : w.line = []) :
    placeWord width word w = placeWord width (word.drop (prefixBytes word width))
      ⟨w.lines ++ [word.take (prefixBytes word width)], []⟩ := by
  rw [placeWord, if_neg hword, if_neg h, if_neg (not_not.mpr hline)]

/-- Nothing is wider than the lines are. -/
structure Fitted (width : Int) (w : Wrapping) : Prop where
  lines : ∀ line ∈ w.lines, columnCount line ≤ width
  line : columnCount w.line ≤ width

theorem Fitted.done {line : Bytes} (h : Fitted width w) (hline : columnCount line ≤ width.1) :
    Fitted width ⟨w.lines ++ [line], []⟩ := by
  have hwidth := width.2
  have hempty : (columnCount [] : Int) ≤ width.1 := by
    rw [columnCount, List.countP_nil]
    omega
  refine ⟨?_, hempty⟩
  intro line hmem
  rcases List.mem_append.mp hmem with hold | hnew
  · exact h.lines line hold
  · rw [List.mem_singleton.mp hnew]
    exact hline

theorem placeWord_fitted (hsum : word ≠ [] → room w.line + columnCount word < 2 ^ 31) (h : Fitted width w) :
    Fitted width (placeWord width word w) ∧
      room (placeWord width word w).line = roomAfter width.1.toNat (room w.line) word := by
  have hwidth := width.2
  induction word, w using placeWord.induct width with
  | case1 w =>
    rw [placeWord_nil]
    exact ⟨h, rfl⟩
  | case2 word w hword hfits =>
    rw [placeWord_fits hword hfits]
    rw [neededColumns_eq, ← Int.natCast_add, asInt_natCast (hsum hword)] at hfits
    have hjoined := columnCount_joined w.line word
    have hnew : (if w.line = [] then [] else w.line ++ [blank]) ++ word ≠ [] := by
      simp [hword]
    refine ⟨⟨h.lines, ?_⟩, ?_⟩
    · dsimp only
      rw [hjoined]
      exact hfits
    · dsimp only
      rw [room, if_neg hnew, hjoined, roomAfter, if_neg hword, if_pos (by omega)]
  | case3 word w hword hwide hline ih =>
    rw [placeWord_done hword hwide hline]
    rw [neededColumns_eq, ← Int.natCast_add, asInt_natCast (hsum hword)] at hwide
    have hempty : room [] = 0 := rfl
    have hnext : room [] + columnCount word < 2 ^ 31 := by
      have hfirst := hsum hword
      omega
    obtain ⟨hfitted, hroom⟩ := ih (fun _ => hnext) (h.done h.line)
    refine ⟨hfitted, hroom.trans ?_⟩
    exact roomAfter_done hword (by omega)
  | case4 word w hword hwide hline ih =>
    rw [not_not] at hline
    rw [placeWord_cut hword hwide hline]
    rw [neededColumns_eq, ← Int.natCast_add, asInt_natCast (hsum hword), hline] at hwide
    rw [hline] at hsum ⊢
    have hempty : room [] = 0 := rfl
    have hmany : width.1 < columnCount word := by omega
    have hrest := columnCount_drop_prefixBytes width hmany
    have hfirst := hsum hword
    have hnext : room [] + columnCount (word.drop (prefixBytes word width)) < 2 ^ 31 := by omega
    obtain ⟨hfitted, hroom⟩ := ih (fun _ => hnext) (h.done (columnCount_take_prefixBytes width word))
    refine ⟨hfitted, hroom.trans ?_⟩
    exact roomAfter_cut (by omega) (by omega) (by omega)

/-- The lines hold groups of pieces, each group joined by spaces. -/
structure Laid (groups : List (List Bytes)) (current : List Bytes) (w : Wrapping) : Prop where
  lines : w.lines = groups.map spaced
  line : w.line = spaced current
  nonempty : [] ∉ current

theorem spaced_eq_nil {pieces : List Bytes} (hne : [] ∉ pieces) : spaced pieces = [] ↔ pieces = [] := by
  refine ⟨?_, fun h => by rw [h]; rfl⟩
  intro h
  cases pieces using List.reverseRecOn with
  | nil => rfl
  | append_singleton pieces piece =>
    rw [spaced_append] at h
    have hpiece := (List.append_eq_nil_iff.mp h).2
    exact absurd (by simp [hpiece]) hne

theorem Laid.done {groups : List (List Bytes)} {current : List Bytes} (h : Laid groups current w) :
    Laid (groups ++ [current]) [] ⟨w.lines ++ [w.line], []⟩ :=
  ⟨by rw [h.lines, h.line, List.map_append]; rfl, rfl, List.not_mem_nil⟩

theorem placeWord_laid {groups : List (List Bytes)} {current : List Bytes}
    (hsum : word ≠ [] → room w.line + columnCount word < 2 ^ 31) (h : Laid groups current w) :
    ∃ groups' current' pieces, Laid groups' current' (placeWord width word w) ∧
      groups'.flatten ++ current' = groups.flatten ++ current ++ pieces ∧ CutWord width word pieces := by
  induction word, w using placeWord.induct width generalizing groups current with
  | case1 w =>
    rw [placeWord_nil]
    exact ⟨groups, current, [], h, (List.append_nil _).symm, rfl, List.not_mem_nil, fun _ => Nat.zero_le 1⟩
  | case2 word w hword hfits =>
    rw [placeWord_fits hword hfits]
    refine ⟨groups, current ++ [word], [word], ⟨h.lines, ?_, ?_⟩, by rw [List.append_assoc], ?_⟩
    · rw [spaced_append, h.line, if_congr (spaced_eq_nil h.nonempty) rfl rfl]
    · rw [List.mem_append, not_or, List.mem_singleton]
      exact ⟨h.nonempty, Ne.symm hword⟩
    · exact ⟨List.flatten_singleton, by simpa using Ne.symm hword, fun _ => Nat.le_refl 1⟩
  | case3 word w hword hwide hline ih =>
    rw [placeWord_done hword hwide hline]
    have hempty : room [] = 0 := rfl
    have hnext : room [] + columnCount word < 2 ^ 31 := by
      have hfirst := hsum hword
      omega
    obtain ⟨groups', current', pieces, hlaid, hflat, hcut⟩ := ih (fun _ => hnext) h.done
    refine ⟨groups', current', pieces, hlaid, ?_, hcut⟩
    rw [hflat, List.flatten_append, List.flatten_singleton, List.append_nil]
  | case4 word w hword hwide hline ih =>
    rw [not_not] at hline
    rw [placeWord_cut hword hwide hline]
    rw [neededColumns_eq, ← Int.natCast_add, asInt_natCast (hsum hword), hline] at hwide
    have hempty : room [] = 0 := rfl
    have hmany : width.1 < columnCount word := by omega
    have hrest := columnCount_drop_prefixBytes width hmany
    have hwidth := width.2
    have hfirst := hsum hword
    have hnext : room [] + columnCount (word.drop (prefixBytes word width)) < 2 ^ 31 := by omega
    have hcurrent : current = [] := by
      rw [← spaced_eq_nil h.nonempty, ← h.line, hline]
    have hpiece : Laid (groups ++ [[word.take (prefixBytes word width)]]) []
        ⟨w.lines ++ [word.take (prefixBytes word width)], []⟩ := by
      refine ⟨?_, rfl, List.not_mem_nil⟩
      rw [h.lines, List.map_append, List.map_singleton, spaced, List.intercalate_singleton]
    obtain ⟨groups', current', pieces, hlaid, hflat, hcut⟩ := ih (fun _ => hnext) hpiece
    refine ⟨groups', current', word.take (prefixBytes word width) :: pieces, hlaid, ?_, ?_, ?_, ?_⟩
    · rw [hflat, hcurrent]
      simp only [List.flatten_append, List.flatten_singleton, List.append_nil, List.append_assoc,
        List.singleton_append]
    · rw [List.flatten_cons, hcut.lossless, List.take_append_drop]
    · have hpositive := prefixBytes_pos width hword
      rw [List.mem_cons, not_or]
      refine ⟨?_, hcut.nonempty⟩
      intro htake
      rcases List.take_eq_nil_iff.mp htake.symm with hzero | hnil
      · omega
      · exact hword hnil
    · intro hnarrow
      omega

theorem foldl_placeWord {words : List Bytes} {groups : List (List Bytes)} {current : List Bytes}
    (hsums : SumsFit width.1.toNat (room w.line) words) (hfitted : Fitted width w)
    (hlaid : Laid groups current w) : Fitted width (words.foldl (fun w word => placeWord width word w) w) ∧
      ∃ groups' current' cuts, Laid groups' current' (words.foldl (fun w word => placeWord width word w) w) ∧
        groups'.flatten ++ current' = groups.flatten ++ current ++ cuts.flatten ∧
          List.Forall₂ (CutWord width) words cuts := by
  induction words generalizing w groups current with
  | nil => exact ⟨hfitted, groups, current, [], hlaid, (List.append_nil _).symm, .nil⟩
  | cons word words ih =>
    obtain ⟨hsum, hsums⟩ := hsums
    obtain ⟨hfitted', hroom⟩ := placeWord_fitted hsum hfitted
    obtain ⟨groups', current', pieces, hlaid', hflat, hcut⟩ := placeWord_laid hsum hlaid
    rw [← hroom] at hsums
    obtain ⟨hlast, groups'', current'', cuts, hlaid'', hflat', hcuts⟩ := ih hsums hfitted' hlaid'
    refine ⟨hlast, groups'', current'', pieces :: cuts, hlaid'', ?_, .cons hcut hcuts⟩
    rw [hflat', hflat, List.flatten_cons]
    simp only [List.append_assoc]

/-- Some line is too wide. None of those that are done is ever taken back. -/
def Overfull (width : Int) (w : Wrapping) : Prop :=
  (∃ line ∈ w.lines, width < columnCount line) ∨ width < columnCount w.line

theorem placeWord_overfull (h : Overfull width w) : Overfull width (placeWord width word w) := by
  have hwidth := width.2
  induction word, w using placeWord.induct width with
  | case1 w =>
    rw [placeWord_nil]
    exact h
  | case2 word w hword hfits =>
    rw [placeWord_fits hword hfits]
    refine h.imp id fun hline => ?_
    have hjoined := columnCount_joined w.line word
    have hroom := columnCount_le_room w.line
    dsimp only
    omega
  | case3 word w hword hwide hline ih =>
    rw [placeWord_done hword hwide hline]
    apply ih
    rcases h with ⟨line, hmem, hmore⟩ | hmore
    · exact Or.inl ⟨line, List.mem_append_left _ hmem, hmore⟩
    · exact Or.inl ⟨w.line, by simp, hmore⟩
  | case4 word w hword hwide hline ih =>
    rw [not_not] at hline
    rw [placeWord_cut hword hwide hline]
    apply ih
    rcases h with ⟨line, hmem, hmore⟩ | hmore
    · exact Or.inl ⟨line, List.mem_append_left _ hmem, hmore⟩
    · have hempty : columnCount [] = 0 := rfl
      rw [hline] at hmore
      omega

/-- The sum is at least `2^31`, and wraps to a negative number or is too great by `2^32`. A
word is cut until its columns wrap to few. -/
theorem placeWord_wraps (hint : width.1 < 2 ^ 31) (hword : word ≠ []) (hfitted : Fitted width w)
    (hsum : 2 ^ 31 ≤ room w.line + columnCount word) : Overfull width (placeWord width word w) := by
  have hwidth := width.2
  induction word, w using placeWord.induct width with
  | case1 w => exact absurd rfl hword
  | case2 word w _ hfits =>
    rw [placeWord_fits hword hfits]
    have hjoined := columnCount_joined w.line word
    refine Or.inr ?_
    dsimp only
    omega
  | case3 word w _ hwide hline ih =>
    rw [placeWord_done hword hwide hline]
    rw [neededColumns_eq, asInt, Int.bmod_def] at hwide
    have hroom : room w.line = columnCount w.line + 1 := by rw [room, if_neg hline]
    have hempty : room [] = 0 := rfl
    have hold := hfitted.line
    have hmany : 2 ^ 31 ≤ room [] + columnCount word := by
      split at hwide <;> omega
    exact ih hword (hfitted.done hold) hmany
  | case4 word w _ hwide hline ih =>
    rw [not_not] at hline
    rw [placeWord_cut hword hwide hline]
    rw [neededColumns_eq, hline, asInt, Int.bmod_def] at hwide
    rw [hline] at hsum
    have hempty : room [] = 0 := rfl
    have hrest := columnCount_drop_prefixBytes width (s := word) (by omega)
    have hmany : 2 ^ 31 ≤ room [] + columnCount (word.drop (prefixBytes word width)) := by
      split at hwide <;> omega
    have hne : word.drop (prefixBytes word width) ≠ [] := by
      intro hnil
      rw [hnil, columnCount, List.countP_nil] at hrest
      omega
    exact ih hne (hfitted.done (columnCount_take_prefixBytes width word)) hmany

theorem foldl_overfull {words : List Bytes} (hint : width.1 < 2 ^ 31) (hfitted : Fitted width w)
    (hsums : ¬SumsFit width.1.toNat (room w.line) words) :
    Overfull width (words.foldl (fun w word => placeWord width word w) w) := by
  have hkeeps (words : List Bytes) (w : Wrapping) (h : Overfull width w) :
      Overfull width (words.foldl (fun w word => placeWord width word w) w) := by
    induction words generalizing w with
    | nil => exact h
    | cons word words ih => exact ih _ (placeWord_overfull h)
  induction words generalizing w with
  | nil => exact absurd trivial hsums
  | cons word words ih =>
    rw [List.foldl_cons]
    by_cases hsum : word ≠ [] → room w.line + columnCount word < 2 ^ 31
    · obtain ⟨hfitted', hroom⟩ := placeWord_fitted hsum hfitted
      apply ih hfitted'
      rw [hroom]
      exact fun hmore => hsums ⟨hsum, hmore⟩
    · rw [Classical.not_imp, Nat.not_lt] at hsum
      obtain ⟨hword, hmany⟩ := hsum
      exact hkeeps words _ (placeWord_wraps hint hword hfitted hmany)

end

/-! The words of a text. -/

theorem blank_not_mem_splitOn (s : Bytes) : ∀ word ∈ s.splitOn blank, blank ∉ word := by
  induction s with
  | nil =>
    intro word hword
    rw [List.mem_singleton.mp hword]
    exact List.not_mem_nil
  | cons b s ih =>
    rw [List.splitOn_cons_eq_if_modifyHead]
    by_cases hb : (b == blank) = true
    · rw [if_pos hb]
      intro word hword
      rcases List.mem_cons.mp hword with rfl | hmore
      · exact List.not_mem_nil
      · exact ih word hmore
    · rw [if_neg hb]
      have hne : blank ≠ b := by
        rintro rfl
        exact hb rfl
      cases hs : s.splitOn blank with
      | nil => exact absurd hs (List.splitOn_ne_nil _ _)
      | cons first words =>
        rw [hs] at ih
        intro word hword
        rcases List.mem_cons.mp hword with rfl | hmore
        · rw [List.mem_cons, not_or]
          exact ⟨hne, ih first List.mem_cons_self⟩
        · exact ih word (List.mem_cons_of_mem _ hmore)

theorem filter_spaced {pieces : List Bytes} (h : ∀ piece ∈ pieces, blank ∉ piece) :
    (spaced pieces).filter (· ≠ blank) = pieces.flatten := by
  induction pieces using List.reverseRecOn with
  | nil => rfl
  | append_singleton pieces piece ih =>
    have hpiece : piece.filter (· ≠ blank) = piece := by
      apply List.filter_eq_self.mpr
      intro b hb
      have hblank := h piece (by simp)
      simp only [decide_eq_true_iff]
      rintro rfl
      exact hblank hb
    have hpieces := ih fun p hp => h p (List.mem_append_left _ hp)
    rw [spaced_append, List.filter_append, hpiece, List.flatten_append, List.flatten_singleton]
    by_cases hfirst : pieces = []
    · rw [if_pos hfirst, hfirst]
      rfl
    · rw [if_neg hfirst, List.filter_append, hpieces]
      simp

theorem filter_blank (s : Bytes) : s.filter (· ≠ blank) = (s.splitOn blank).flatten := by
  have hwords := filter_spaced (blank_not_mem_splitOn s)
  rw [spaced, List.intercalate_splitOn] at hwords
  exact hwords

/-- A line of pieces starts and ends with bytes of theirs. -/
theorem spaced_trimmed {pieces : List Bytes} (hne : [] ∉ pieces) (h : ∀ piece ∈ pieces, blank ∉ piece) :
    (spaced pieces).head? ≠ some blank ∧ (spaced pieces).getLast? ≠ some blank := by
  refine ⟨?_, ?_⟩
  · cases pieces with
    | nil => exact nofun
    | cons piece pieces =>
      cases piece with
      | nil => exact absurd List.mem_cons_self hne
      | cons b piece =>
        have hb := h (b :: piece) List.mem_cons_self
        have hhead : (spaced ((b :: piece) :: pieces)).head? = some b := by
          cases pieces with
          | nil => simp [spaced]
          | cons next pieces => simp [spaced]
        rw [hhead]
        intro hblank
        rw [Option.some.inj hblank] at hb
        exact hb List.mem_cons_self
  · cases pieces using List.reverseRecOn with
    | nil => exact nofun
    | append_singleton pieces piece =>
      have hpiece : piece ≠ [] := by
        rintro rfl
        exact hne (by simp)
      rw [spaced_append, List.getLast?_append_of_ne_nil _ hpiece]
      intro hblank
      exact h piece (by simp) (List.mem_of_getLast? hblank)

theorem mem_cuts {width : Int} {words : List Bytes} {cuts : List (List Bytes)}
    (h : List.Forall₂ (CutWord width) words cuts) (hwords : ∀ word ∈ words, blank ∉ word) :
    cuts.flatten.flatten = words.flatten ∧ ∀ piece ∈ cuts.flatten, piece ≠ [] ∧ blank ∉ piece := by
  induction h with
  | nil => exact ⟨rfl, nofun⟩
  | @cons word pieces words cuts hcut _ ih =>
    obtain ⟨hflat, hall⟩ := ih fun w hw => hwords w (List.mem_cons_of_mem _ hw)
    refine ⟨?_, ?_⟩
    · rw [List.flatten_cons, List.flatten_append, hcut.lossless, hflat, List.flatten_cons]
    · intro piece hpiece
      rw [List.flatten_cons] at hpiece
      rcases List.mem_append.mp hpiece with hfirst | hmore
      · refine ⟨?_, ?_⟩
        · rintro rfl
          exact hcut.nonempty hfirst
        · intro hblank
          have hmem : blank ∈ pieces.flatten := List.mem_flatten.mpr ⟨piece, hfirst, hblank⟩
          rw [hcut.lossless] at hmem
          exact hwords word List.mem_cons_self hmem
      · exact hall piece hmore

theorem filter_flatten_spaced {groups : List (List Bytes)}
    (h : ∀ group ∈ groups, ∀ piece ∈ group, blank ∉ piece) :
    (groups.map spaced).flatten.filter (· ≠ blank) = groups.flatten.flatten := by
  induction groups with
  | nil => rfl
  | cons group groups ih =>
    rw [List.map_cons, List.flatten_cons, List.filter_append, filter_spaced (h group List.mem_cons_self),
      ih fun g hg => h g (List.mem_cons_of_mem _ hg), List.flatten_cons, List.flatten_append]

theorem fitted_start (width : Width) : Fitted width ⟨[], []⟩ := by
  have hwidth := width.2
  refine ⟨nofun, ?_⟩
  dsimp only
  rw [columnCount, List.countP_nil]
  omega

theorem wordWrap_wrapped {s : Bytes} {width : Int} (hsums : SumsFit (max width 1).toNat 0 (s.splitOn blank)) :
    Wrapped s width (wordWrap s width) := by
  have hstart := fitted_start (Width.of width)
  have hnothing : Laid [] [] ⟨[], []⟩ := ⟨rfl, rfl, List.not_mem_nil⟩
  obtain ⟨hfitted, groups, current, cuts, hlaid, hflat, hcuts⟩ := foldl_placeWord hsums hstart hnothing
  rw [List.flatten_nil, List.nil_append, List.nil_append] at hflat
  obtain ⟨hwords, hpieces⟩ := mem_cuts hcuts (blank_not_mem_splitOn s)
  -- the groups, the one of the last line included
  obtain ⟨all, hlines, hall, hsome⟩ :
      ∃ all, wordWrap s width = all.map spaced ∧ all.flatten = cuts.flatten ∧ all ≠ [] := by
    rw [wordWrap]
    split
    · refine ⟨groups ++ [current], ?_, ?_, by simp⟩
      · rw [hlaid.lines, hlaid.line, List.map_append, List.map_singleton]
      · rw [List.flatten_append, List.flatten_singleton, hflat]
    · rename_i hnone
      rw [not_or, not_not] at hnone
      have hcurrent : current = [] := by
        rw [← spaced_eq_nil hlaid.nonempty, ← hlaid.line]
        exact hnone.1
      rw [hcurrent, List.append_nil] at hflat
      refine ⟨groups, hlaid.lines, hflat, ?_⟩
      rintro rfl
      exact hnone.2 hlaid.lines
  have hgroup : ∀ group ∈ all, ∀ piece ∈ group, piece ≠ [] ∧ blank ∉ piece := by
    intro group hgroup piece hpiece
    apply hpieces
    rw [← hall]
    exact List.mem_flatten.mpr ⟨group, hgroup, hpiece⟩
  refine ⟨?_, ?_, ?_, ?_, all, cuts, hlines, hall, hcuts⟩
  · rw [hlines]
    simpa using hsome
  · intro line hline
    rw [wordWrap] at hline
    split at hline
    · rcases List.mem_append.mp hline with hdone | hlast
      · exact hfitted.lines line hdone
      · rw [List.mem_singleton.mp hlast]
        exact hfitted.line
    · exact hfitted.lines line hline
  · rw [hlines, filter_flatten_spaced fun group hg piece hp => (hgroup group hg piece hp).2, hall, hwords,
      filter_blank]
  · intro line hline
    rw [hlines] at hline
    obtain ⟨group, hg, rfl⟩ := List.mem_map.mp hline
    have hne : [] ∉ group := fun hempty => (hgroup group hg [] hempty).1 rfl
    exact spaced_trimmed hne fun piece hp => (hgroup group hg piece hp).2

theorem wordWrap_overfull {s : Bytes} {width : Int} (h : IsInt width)
    (hsums : ¬SumsFit (max width 1).toNat 0 (s.splitOn blank)) :
    ∃ line ∈ wordWrap s width, max width 1 < columnCount line := by
  have hint : (Width.of width).1 < 2 ^ 31 := by
    have hmax : (Width.of width).1 = max width 1 := rfl
    rw [IsInt] at h
    omega
  have hwidth := (Width.of width).2
  have hover := foldl_overfull (w := ⟨[], []⟩) hint (fitted_start (Width.of width)) hsums
  rw [wordWrap]
  rcases hover with ⟨line, hline, hmore⟩ | hmore
  · refine ⟨line, ?_, hmore⟩
    split
    · exact List.mem_append_left _ hline
    · exact hline
  · refine ⟨_, ?_, hmore⟩
    rw [if_pos (Or.inl ?_)]
    · simp
    · intro hnil
      rw [hnil, columnCount, List.countP_nil] at hmore
      omega

theorem wordWrap_wrapped_iff (s : Bytes) {width : Int} (h : IsInt width) :
    Wrapped s width (wordWrap s width) ↔ SumsFit (max width 1).toNat 0 (s.splitOn blank) := by
  refine ⟨fun hwrapped => ?_, wordWrap_wrapped⟩
  by_contra hsums
  obtain ⟨line, hline, hmore⟩ := wordWrap_overfull h hsums
  exact absurd (hwrapped.fits line hline) (Int.not_le.mpr hmore)

/-- Two words of `2^30` letters, of `2^31 + 1` columns together. -/
theorem wordWrap_wrapped_iff_sample : IsInt 80 ∧
    Wrapped (List.replicate (2 ^ 30) 97 ++ blank :: List.replicate (2 ^ 30) 97) 80
      (wordWrap (List.replicate (2 ^ 30) 97 ++ blank :: List.replicate (2 ^ 30) 97) 80) := by
  have hcount : columnCount (List.replicate (2 ^ 30) 97) = 2 ^ 30 := by
    rw [columnCount, List.countP_replicate]
    rfl
  have hblank : blank ∉ List.replicate (2 ^ 30) (97 : UInt8) := fun h =>
    absurd (List.eq_of_mem_replicate h) (by decide)
  generalize List.replicate (2 ^ 30) (97 : UInt8) = word at hcount hblank
  have hwords : (word ++ blank :: word).splitOn blank = [word, word] := by
    rw [List.splitOn_append_cons_self_of_not_mem hblank, List.splitOn_eq_singleton hblank]
  have hword : word ≠ [] := by
    rintro rfl
    cases hcount
  refine ⟨by decide, (wordWrap_wrapped_iff _ (by decide)).mpr ?_⟩
  have hroom : roomAfter 80 0 word = (2 ^ 30 - 1) % 80 + 2 := by
    rw [roomAfter, if_neg hword, hcount]
    rfl
  have hwidth : (max (80 : Int) 1).toNat = 80 := rfl
  rw [hwords, hwidth, SumsFit, SumsFit, hroom, hcount]
  exact ⟨fun _ => by decide, fun _ => by decide, trivial⟩

/-- A word of `2^31` ASCII characters counts as `-2^31` columns, and is taken to fit. -/
theorem not_wrapped_long : ¬Wrapped (List.replicate (2 ^ 31) 97) 80
    (wordWrap (List.replicate (2 ^ 31) 97) 80) := by
  have hcount : columnCount (List.replicate (2 ^ 31) 97) = 2 ^ 31 := by
    rw [columnCount, List.countP_replicate]
    rfl
  have hblank : blank ∉ List.replicate (2 ^ 31) (97 : UInt8) := fun h =>
    absurd (List.eq_of_mem_replicate h) (by decide)
  generalize List.replicate (2 ^ 31) (97 : UInt8) = word at hcount hblank
  have hword : word ≠ [] := by
    rintro rfl
    cases hcount
  have hneeded : neededColumns [] word = -2 ^ 31 := by
    rw [neededColumns, textColumns, textColumns, hcount, if_pos rfl]
    rfl
  have hfits : neededColumns (Wrapping.mk [] []).line word ≤ Width.of 80 := by
    rw [hneeded]
    decide
  have hplaced : wordWrap word 80 = [word] := by
    rw [wordWrap, List.splitOn_eq_singleton hblank, List.foldl_cons, List.foldl_nil, placeWord_fits hword hfits]
    exact if_pos (Or.inr rfl)
  intro hwrapped
  have hcolumns := hwrapped.fits word (by rw [hplaced]; exact List.mem_cons_self)
  have hwidest : max (80 : Int) 1 = 80 := rfl
  omega

end Secretov
