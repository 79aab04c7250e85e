import Secretov.Dotenv
import Secretov.Lib.Framing

/-! What `parse_dotenv` takes for a trailing comment (manifest.cpp). The leading
blanks are cut first, so a comment right after them is kept as the value. -/

namespace Secretov

def kComment : Bytes := [blank, hash]

/-- `before` is what stands before the first ` #`. -/
def CommentAfter (before s : Bytes) : Prop :=
  ¬kComment <:+: before ++ [blank] ∧ ∃ comment, s = before ++ kComment ++ comment

def trimmed (s : Bytes) : Bytes := (s.dropWhile isBlank).rdropWhile isBlank

/-- The right-hand side does not start with a quote. -/
def Unquoted (raw : Bytes) : Prop :=
  ∀ c s, raw.dropWhile isBlank = c :: s → c ≠ doubleQuote ∧ c ≠ singleQuote

/-- The line assigns `raw`, all that stands after its `=`. -/
def AssignsRaw (line key raw : Bytes) : Prop :=
  ∃ blanks, dropExport (stripLine line) = key ++ (blanks ++ equals :: raw) ∧ Identifier key ∧ Blank blanks

def AssignsAt (s : Bytes) (lineno : Nat) (key raw : Bytes) : Prop :=
  ∃ i line, lineno = i + 1 ∧ (splitLines s)[i]? = some line ∧ AssignsRaw line key raw

def warningStart (lineno : Nat) : Bytes := text "warning: dotenv line " ++ decimal lineno ++ text ": "

def commentWarning (lineno : Nat) (key : Bytes) : Bytes :=
  text "warning: dotenv line " ++ decimal lineno ++ text ": stripped a trailing ' #' comment from '" ++ key ++
    text "'; quote the value if '#' belongs to it"

/-- The warnings that name the line. -/
def warningsOn (lineno : Nat) (warnings : Bytes) : List Bytes :=
  (splitLines warnings).filter (warningStart lineno).isPrefixOf

/-- An unquoted value loses its trailing comment and a warning says so, or it has none. -/
def LosesComments (s : Bytes) (pairs : KeyValues) (warnings : Bytes) : Prop :=
  ∀ lineno key raw, AssignsAt s lineno key raw → Unquoted raw →
    (∀ before, CommentAfter before raw →
      pairs.lookup key = some (trimmed before) ∧ warningsOn lineno warnings = [commentWarning lineno key]) ∧
    (¬kComment <:+: raw → pairs.lookup key = some (trimmed raw) ∧ warningsOn lineno warnings = [])

/-- Only blanks stand before a ` #`. -/
def HidesComment (raw : Bytes) : Prop := ∃ blanks comment, Blank blanks ∧ raw = blanks ++ kComment ++ comment

/-! The first ` #`. -/

theorem commentAfter_cons {c : UInt8} {before s : Bytes} (h : ¬kComment <+: c :: s) :
    CommentAfter (c :: before) (c :: s) ↔ CommentAfter before s := by
  have hhead (hrest : ∃ comment, s = before ++ kComment ++ comment) :
      ¬kComment <+: c :: (before ++ [blank]) := by
    obtain ⟨comment, rfl⟩ := hrest
    intro hstarts
    apply h
    have hlonger : c :: (before ++ [blank]) <+: c :: (before ++ kComment ++ comment) := by
      rw [List.cons_prefix_cons, List.append_assoc]
      exact ⟨rfl, (List.prefix_append_right_inj _).mpr ⟨hash :: comment, rfl⟩⟩
    exact hstarts.trans hlonger
  constructor
  · rintro ⟨hfirst, comment, hs⟩
    obtain ⟨-, rfl⟩ := List.cons.inj hs
    exact ⟨fun hwithin => hfirst (hwithin.trans (List.suffix_cons _ _).isInfix), comment, rfl⟩
  · rintro ⟨hfirst, comment, rfl⟩
    refine ⟨?_, comment, rfl⟩
    rw [List.cons_append, List.infix_cons_iff, not_or]
    exact ⟨hhead ⟨comment, rfl⟩, hfirst⟩

theorem beforeComment_cons (c : UInt8) (s : Bytes) :
    beforeComment (c :: s) = if kComment <+: c :: s then some [] else (beforeComment s).map (c :: ·) :=
  rfl

theorem beforeComment_iff {s before : Bytes} : beforeComment s = some before ↔ CommentAfter before s := by
  induction s generalizing before with
  | nil =>
    constructor
    · intro h
      cases h
    · rintro ⟨-, comment, hs⟩
      simp [kComment] at hs
  | cons c s ih =>
    rw [beforeComment_cons]
    by_cases hstarts : kComment <+: c :: s
    · rw [if_pos hstarts, Option.some.injEq]
      obtain ⟨comment, hs⟩ := hstarts
      constructor
      · rintro rfl
        refine ⟨?_, comment, hs.symm⟩
        decide
      · rintro ⟨hfirst, comment', hs'⟩
        cases before with
        | nil => rfl
        | cons d before =>
          exfalso
          apply hfirst
          obtain ⟨rfl, hs₁⟩ := List.cons.inj (hs.trans hs')
          cases before with
          | nil => exact absurd hs₁ (by simp [kComment, hash, blank])
          | cons e before =>
            obtain ⟨rfl, -⟩ := List.cons.inj hs₁
            exact ⟨[], before ++ [blank], rfl⟩
    · rw [if_neg hstarts, Option.map_eq_some_iff]
      constructor
      · rintro ⟨tail, htail, rfl⟩
        exact (commentAfter_cons hstarts).mpr (ih.mp htail)
      · intro h
        cases before with
        | nil =>
          obtain ⟨-, comment, hs⟩ := h
          exact absurd ⟨comment, hs.symm⟩ hstarts
        | cons d before =>
          obtain ⟨-, comment, hs⟩ := id h
          obtain ⟨rfl, -⟩ := List.cons.inj hs
          exact ⟨before, ih.mpr ((commentAfter_cons hstarts).mp h), rfl⟩

theorem beforeComment_eq_none {s : Bytes} : beforeComment s = none ↔ ¬kComment <:+: s := by
  induction s with
  | nil => simp [beforeComment, kComment]
  | cons c s ih =>
    rw [beforeComment_cons, List.infix_cons_iff, not_or, ← ih]
    by_cases hstarts : kComment <+: c :: s
    · simp [hstarts]
    · simp [hstarts]

/-! One right-hand side. -/

theorem rdropWhile_ne_nil {c : UInt8} {s : Bytes} (hc : isBlank c = false) (hmem : c ∈ s) :
    s.rdropWhile isBlank ≠ [] := by
  intro hnil
  have hblank := List.rdropWhile_eq_nil_iff.mp hnil c hmem
  rw [hc] at hblank
  cases hblank

theorem trimmed_blank {blanks : Bytes} (h : Blank blanks) : trimmed blanks = [] := by
  have hdrop : blanks.dropWhile isBlank = [] := List.dropWhile_eq_nil_iff.mpr h
  rw [trimmed, hdrop]
  rfl

theorem trimmed_append {blanks s : Bytes} (hblanks : Blank blanks)
    (hs : ∀ c rest, s = c :: rest → isBlank c = false) : trimmed (blanks ++ s) = s.rdropWhile isBlank := by
  rw [trimmed, dropWhile_blank hblanks]
  cases s with
  | nil => rfl
  | cons c rest => rw [List.dropWhile_cons_of_neg (by simp [hs c rest rfl])]

/-- An unquoted value, whatever the blanks before it. -/
theorem dotenvValue_unquoted (lineno : Nat) (key : Bytes) {raw : Bytes} (h : Unquoted raw) :
    dotenvValue lineno key raw = .ok (match beforeComment (raw.dropWhile isBlank) with
      | some before => (before.rdropWhile isBlank, commentWarning lineno key ++ [newline])
      | none => ((raw.dropWhile isBlank).rdropWhile isBlank, [])) := by
  unfold dotenvValue
  cases hs : raw.dropWhile isBlank with
  | nil => rfl
  | cons c s =>
    obtain ⟨hdouble, hsingle⟩ := h c s hs
    dsimp only
    rw [if_neg (by simp [hdouble, hsingle])]
    cases beforeComment (c :: s) <;> rfl

theorem dotenvValue_quoted {lineno : Nat} {key raw value warning : Bytes} (h : ¬Unquoted raw)
    (hvalue : dotenvValue lineno key raw = .ok (value, warning)) : warning = [] := by
  unfold dotenvValue at hvalue
  cases hs : raw.dropWhile isBlank with
  | nil => exact absurd (fun c s hcons => by rw [hs] at hcons; cases hcons) h
  | cons c s =>
    by_cases hquote : c = doubleQuote ∨ c = singleQuote
    · rw [hs] at hvalue
      dsimp only at hvalue
      rw [if_pos hquote] at hvalue
      cases hscan : scanQuoted lineno key c s with
      | error e => simp [hscan, bind, Except.bind] at hvalue
      | ok scanned =>
        by_cases hrest : blankOrComment scanned.2
        · simp only [hscan, bind, Except.bind, hrest, Bool.not_true, Bool.false_eq_true, if_false,
            Except.ok.injEq, Prod.mk.injEq] at hvalue
          exact hvalue.2.symm
        · simp [hscan, bind, Except.bind, hrest] at hvalue
    · refine absurd (fun d t hcons => ?_) h
      rw [hs] at hcons
      obtain ⟨rfl, -⟩ := List.cons.inj hcons
      exact not_or.mp hquote

theorem HidesComment.dropWhile {raw : Bytes} (h : HidesComment raw) :
    ∃ comment, raw.dropWhile isBlank = hash :: comment := by
  obtain ⟨blanks, comment, hblanks, rfl⟩ := h
  refine ⟨comment, ?_⟩
  rw [List.append_assoc, dropWhile_blank hblanks]
  rfl

theorem HidesComment.unquoted {raw : Bytes} (h : HidesComment raw) : Unquoted raw := by
  intro c s hs
  obtain ⟨comment, hdrop⟩ := h.dropWhile
  obtain ⟨rfl, -⟩ := List.cons.inj (hdrop.symm.trans hs)
  decide

theorem HidesComment.commentAfter {raw : Bytes} (h : HidesComment raw) :
    ∃ blanks, Blank blanks ∧ CommentAfter blanks raw := by
  obtain ⟨blanks, comment, hblanks, rfl⟩ := h
  refine ⟨blanks, hblanks, fun hwithin => ?_, comment, rfl⟩
  have hmem : hash ∈ blanks ++ [blank] := hwithin.subset (by simp [kComment])
  rcases List.mem_append.mp hmem with hmem | hmem
  · exact absurd (hblanks hash hmem) (by decide)
  · exact absurd (List.mem_singleton.mp hmem) (by decide)

/-- The hidden comment's `#` is the value's first byte. -/
theorem HidesComment.value {raw : Bytes} (h : HidesComment raw) (lineno : Nat) (key : Bytes) :
    ∃ value warning, dotenvValue lineno key raw = .ok (value, warning) ∧ value ≠ [] := by
  obtain ⟨comment, hdrop⟩ := h.dropWhile
  have hplain : isBlank hash = false := by decide
  have hkept : ¬kComment <+: hash :: comment := by
    intro hstarts
    exact absurd (List.cons_prefix_cons.mp hstarts).1 (by decide)
  rw [dotenvValue_unquoted lineno key h.unquoted, hdrop, beforeComment_cons, if_neg hkept]
  cases beforeComment comment with
  | none => exact ⟨_, _, rfl, rdropWhile_ne_nil hplain List.mem_cons_self⟩
  | some before => exact ⟨_, _, rfl, rdropWhile_ne_nil hplain List.mem_cons_self⟩

/-- Blanks before the value do not move its first ` #`, unless they hide it. -/
theorem beforeComment_append {blanks s : Bytes} (hblanks : Blank blanks) (h : ¬HidesComment (blanks ++ s)) :
    beforeComment (blanks ++ s) = (beforeComment s).map (blanks ++ ·) := by
  induction blanks with
  | nil => simp
  | cons c blanks ih =>
    obtain ⟨hc, hrest⟩ := List.forall_mem_cons.mp hblanks
    have hlater : ¬HidesComment (blanks ++ s) := by
      rintro ⟨more, comment, hmore, hsame⟩
      refine h ⟨c :: more, comment, List.forall_mem_cons.mpr ⟨hc, hmore⟩, ?_⟩
      rw [List.cons_append, hsame]
      rfl
    have hfirst : ¬kComment <+: c :: (blanks ++ s) := by
      rintro ⟨comment, hsame⟩
      exact h ⟨[], comment, nofun, hsame.symm⟩
    rw [List.cons_append, beforeComment_cons, if_neg hfirst, ih hrest hlater, Option.map_map]
    rfl

theorem dotenvValue_shown (lineno : Nat) (key : Bytes) {raw : Bytes} (hunquoted : Unquoted raw)
    (h : ¬HidesComment raw) :
    (∀ before, CommentAfter before raw →
      dotenvValue lineno key raw = .ok (trimmed before, commentWarning lineno key ++ [newline])) ∧
    (¬kComment <:+: raw → dotenvValue lineno key raw = .ok (trimmed raw, [])) := by
  have hvalue := dotenvValue_unquoted lineno key hunquoted
  obtain ⟨blanks, hblanks, hraw⟩ := dropWhile_split raw
  have hcut := beforeComment_append hblanks (hraw ▸ h)
  rw [← hraw] at hcut
  constructor
  · intro before hbefore
    rw [beforeComment_iff.mpr hbefore] at hcut
    obtain ⟨value, hshown, rfl⟩ := Option.map_eq_some_iff.mp hcut.symm
    rw [hvalue, hshown]
    have hhead : ∀ c rest, value = c :: rest → isBlank c = false := by
      rintro c rest rfl
      obtain ⟨-, comment, hsame⟩ := beforeComment_iff.mp hshown
      exact dropWhile_head hsame
    rw [trimmed_append hblanks hhead]
  · intro hnone
    rw [beforeComment_eq_none.mpr hnone] at hcut
    rw [hvalue, Option.map_eq_none_iff.mp hcut.symm]
    rfl

/-! The warnings of the whole text. -/

theorem digit_byte {c : Char} (h : c.isDigit = true) :
    Char.ofNat (UInt8.ofNat c.toNat).toNat = c ∧ UInt8.ofNat c.toNat ≠ colon ∧ UInt8.ofNat c.toNat ≠ newline := by
  have hlow : 48 ≤ c.toNat ∧ c.toNat ≤ 57 := by
    simpa [Char.isDigit, UInt32.le_iff_toNat_le] using h
  have hsmall : (UInt8.ofNat c.toNat).toNat = c.toNat := by
    rw [UInt8.toNat_ofNat']
    omega
  refine ⟨by rw [hsmall, Char.ofNat_toNat], fun hcolon => ?_, fun hnewline => ?_⟩
  · rw [hcolon] at hsmall
    have hvalue : colon.toNat = 58 := rfl
    omega
  · rw [hnewline] at hsmall
    have hvalue : newline.toNat = 10 := rfl
    omega

theorem decimal_eq (n : Nat) : decimal n = (Nat.toDigits 10 n).map fun c => UInt8.ofNat c.toNat := by
  rw [decimal, text, Nat.toString_eq_ofList_toDigits, String.toList_ofList]

theorem decimal_chars (n : Nat) : ∀ c ∈ decimal n, c ≠ colon ∧ c ≠ newline := by
  intro c hc
  rw [decimal_eq] at hc
  obtain ⟨d, hd, rfl⟩ := List.mem_map.mp hc
  exact (digit_byte (Nat.isDigit_of_mem_toDigits (by decide) (by decide) hd)).2

theorem decimal_inj {m n : Nat} (h : decimal m = decimal n) : m = n := by
  have hback (k : Nat) : (decimal k).map (fun c => Char.ofNat c.toNat) = Nat.toDigits 10 k := by
    rw [decimal_eq, List.map_map]
    conv_rhs => rw [← List.map_id (Nat.toDigits 10 k)]
    apply List.map_congr_left
    intro c hc
    exact (digit_byte (Nat.isDigit_of_mem_toDigits (by decide) (by decide) hc)).1
  have hdigits : Nat.toDigits 10 m = Nat.toDigits 10 n := by rw [← hback, ← hback, h]
  rw [← Nat.ofDigitChars_toDigits (n := m) (by decide : 1 < 10) (by decide), hdigits,
    Nat.ofDigitChars_toDigits (by decide) (by decide)]

theorem warningStart_inj {m n : Nat} {key : Bytes} (h : warningStart m <+: commentWarning n key) : m = n := by
  obtain ⟨rest, hrest⟩ := h
  have hcolon (k : Nat) : colon ∉ decimal k := fun hmem => (decimal_chars k colon hmem).1 rfl
  have hends : text ": " = colon :: [blank] := rfl
  have hstripped : text ": stripped a trailing ' #' comment from '" =
      colon :: text " stripped a trailing ' #' comment from '" := rfl
  rw [warningStart, commentWarning, hends, hstripped] at hrest
  simp only [List.append_assoc, List.cons_append] at hrest
  exact decimal_inj (Framing.cut_unique (hcolon m) (hcolon n) (List.append_cancel_left hrest)).1

theorem newline_not_mem_commentWarning {key : Bytes} (h : Identifier key) (lineno : Nat) :
    newline ∉ commentWarning lineno key := by
  have hkey : newline ∉ key := fun hmem => (isAlnum_ne (identifier_chars h _ hmem)).2.2.2.1 rfl
  have hnumber : newline ∉ decimal lineno := fun hmem => (decimal_chars lineno newline hmem).2 rfl
  have hbefore : newline ∉ text "warning: dotenv line " := by decide
  have hstripped : newline ∉ text ": stripped a trailing ' #' comment from '" := by decide
  have hafter : newline ∉ text "'; quote the value if '#' belongs to it" := by decide
  simp only [commentWarning, List.mem_append, not_or]
  exact ⟨⟨⟨⟨hbefore, hnumber⟩, hstripped⟩, hkey⟩, hafter⟩

/-- What the parser has made of an assignment. -/
structure Assigned where
  lineno : Nat
  key : Bytes
  raw : Bytes
  value : Bytes
  warning : Bytes

def Assigned.Holds (a : Assigned) : Prop :=
  Identifier a.key ∧ dotenvValue a.lineno a.key a.raw = .ok (a.value, a.warning)

theorem Assigned.Holds.warning {a : Assigned} (h : a.Holds) :
    a.warning = [] ∨ a.warning = commentWarning a.lineno a.key ++ [newline] := by
  obtain ⟨-, hvalue⟩ := h
  by_cases hunquoted : Unquoted a.raw
  · rw [dotenvValue_unquoted a.lineno a.key hunquoted, Except.ok.injEq] at hvalue
    split at hvalue
    · exact Or.inr (congrArg Prod.snd hvalue).symm
    · exact Or.inl (congrArg Prod.snd hvalue).symm
  · exact Or.inl (dotenvValue_quoted hunquoted hvalue)

/-- The assignments of the lines, the first of which has the given number. -/
inductive Parsed : Nat → List Bytes → List Assigned → Prop
  | nil {lineno : Nat} : Parsed lineno [] []
  | ignored {lineno : Nat} {line : Bytes} {lines : List Bytes} {done : List Assigned} : dotenvBody line = none →
      Parsed (lineno + 1) lines done → Parsed lineno (line :: lines) done
  | assigned {a : Assigned} {line body : Bytes} {lines : List Bytes} {done : List Assigned} :
      dotenvBody line = some body → dotenvKey a.lineno body = .ok (a.key, a.raw) → a.Holds →
      Parsed (a.lineno + 1) lines done → Parsed a.lineno (line :: lines) (a :: done)

theorem parsed_of_parse {lines : List Bytes} {lineno : Nat} {seen : List (Bytes × Nat)} {pairs : KeyValues}
    {warnings : Bytes} (h : parseDotenvLines lineno seen lines = (.ok pairs, warnings)) :
    ∃ done, Parsed lineno lines done ∧ pairs = done.map (fun a => (a.key, a.value)) ∧
      warnings = done.flatMap Assigned.warning := by
  induction lines generalizing lineno seen pairs warnings with
  | nil =>
    obtain ⟨hpairs, rfl⟩ := Prod.mk.inj h
    exact ⟨[], .nil, (Except.ok.inj hpairs).symm, rfl⟩
  | cons line lines ih =>
    rw [parseDotenvLines] at h
    cases hbody : dotenvBody line with
    | none =>
      rw [hbody] at h
      obtain ⟨done, hdone, hrest⟩ := ih h
      exact ⟨done, .ignored hbody hdone, hrest⟩
    | some body =>
      rw [hbody] at h
      dsimp only at h
      cases hkey : dotenvKey lineno body with
      | error e => simp [hkey] at h
      | ok found =>
        obtain ⟨key, raw⟩ := found
        cases hseen : seen.lookup key with
        | some first => simp [hkey, hseen] at h
        | none =>
          cases hvalue : dotenvValue lineno key raw with
          | error e => simp [hkey, hseen, hvalue] at h
          | ok decoded =>
            obtain ⟨value, warning⟩ := decoded
            rcases hlater : parseDotenvLines (lineno + 1) ((key, lineno) :: seen) lines with ⟨_ | later, more⟩
            · simp [hkey, hseen, hvalue, hlater, Except.map] at h
            · simp only [hkey, hseen, hvalue, hlater, Except.map, Prod.mk.injEq, Except.ok.injEq] at h
              obtain ⟨rfl, rfl⟩ := h
              obtain ⟨done, hdone, rfl, rfl⟩ := ih hlater
              have hident : Identifier key := (dotenvKey_iff.mp hkey).1
              have hfirst : Assigned.Holds ⟨lineno, key, raw, value, warning⟩ := ⟨hident, hvalue⟩
              have hall := Parsed.assigned (a := ⟨lineno, key, raw, value, warning⟩) hbody hkey hfirst hdone
              exact ⟨_ :: done, hall, rfl, rfl⟩

section

variable {lineno : Nat} {lines : List Bytes} {done : List Assigned}

theorem Parsed.holds (h : Parsed lineno lines done) : ∀ a ∈ done, a.Holds := by
  induction h with
  | nil => exact nofun
  | ignored _ _ ih => exact ih
  | assigned _ _ hholds _ ih => exact List.forall_mem_cons.mpr ⟨hholds, ih⟩

theorem Parsed.lineno_le (h : Parsed lineno lines done) : ∀ a ∈ done, lineno ≤ a.lineno := by
  induction h with
  | nil => exact nofun
  | ignored _ _ ih => exact fun a ha => Nat.le_of_succ_le (ih a ha)
  | assigned _ _ _ _ ih => exact List.forall_mem_cons.mpr ⟨Nat.le_refl _, fun a ha => Nat.le_of_succ_le (ih a ha)⟩

theorem Parsed.nodup (h : Parsed lineno lines done) : (done.map Assigned.lineno).Nodup := by
  induction h with
  | nil => exact List.nodup_nil
  | ignored _ _ ih => exact ih
  | assigned _ _ _ hlater ih =>
    refine List.nodup_cons.mpr ⟨fun hmem => ?_, ih⟩
    obtain ⟨a, ha, hsame⟩ := List.mem_map.mp hmem
    have hle := hlater.lineno_le a ha
    omega

theorem AssignsRaw.dotenvKey {line key raw : Bytes} (h : AssignsRaw line key raw) :
    ∃ body, dotenvBody line = some body ∧ ∀ lineno, dotenvKey lineno body = .ok (key, raw) := by
  obtain ⟨blanks, hbody, hkey, hblanks⟩ := h
  exact ⟨_, dotenvBody_name hkey hbody, fun _ => dotenvKey_iff.mpr ⟨hkey, blanks, hblanks, rfl⟩⟩

/-- Every line that assigns is among them. -/
theorem Parsed.mem (h : Parsed lineno lines done) {i : Nat} {line key raw : Bytes} (hline : lines[i]? = some line)
    (hassigns : AssignsRaw line key raw) : ∃ a ∈ done, a.lineno = lineno + i ∧ a.key = key ∧ a.raw = raw := by
  obtain ⟨body, hbody, hkey⟩ := hassigns.dotenvKey
  induction h generalizing i with
  | nil => simp at hline
  | ignored hnone _ ih =>
    cases i with
    | zero =>
      obtain rfl := Option.some.inj hline
      rw [hbody] at hnone
      cases hnone
    | succ i =>
      obtain ⟨a, ha, hnumber, hrest⟩ := ih hline
      exact ⟨a, ha, by omega, hrest⟩
  | @assigned a _ _ _ _ hsome hfound _ _ ih =>
    cases i with
    | zero =>
      obtain rfl := Option.some.inj hline
      obtain rfl := Option.some.inj (hbody.symm.trans hsome)
      obtain ⟨hkeys, hraws⟩ := Prod.mk.inj (Except.ok.inj (hfound.symm.trans (hkey a.lineno)))
      exact ⟨a, List.mem_cons_self, rfl, hkeys, hraws⟩
    | succ i =>
      obtain ⟨b, hb, hnumber, hrest⟩ := ih hline
      exact ⟨b, List.mem_cons_of_mem _ hb, by omega, hrest⟩

theorem splitLines_warnings (hholds : ∀ a ∈ done, a.Holds) : splitLines (done.flatMap Assigned.warning) =
    done.flatMap fun a => splitLines a.warning := by
  induction done with
  | nil => rfl
  | cons a done ih =>
    obtain ⟨ha, hlater⟩ := List.forall_mem_cons.mp hholds
    rw [List.flatMap_cons, List.flatMap_cons, ← ih hlater]
    rcases ha.warning with hnone | hsome
    · rw [hnone]
      rfl
    · rw [hsome, List.append_assoc, List.singleton_append,
        splitLines_line (newline_not_mem_commentWarning ha.1 _),
        splitLines_line (newline_not_mem_commentWarning ha.1 _)]
      rfl

theorem filter_warning {a : Assigned} (h : a.Holds) (n : Nat) :
    (splitLines a.warning).filter (warningStart n).isPrefixOf =
      if a.lineno = n then splitLines a.warning else [] := by
  rcases h.warning with hnone | hsome
  · rw [hnone]
    exact (ite_self _).symm
  · have hsplit : splitLines a.warning = [commentWarning a.lineno a.key] := by
      rw [hsome, splitLines_line (newline_not_mem_commentWarning h.1 _)]
      rfl
    rw [hsplit, List.filter_singleton]
    by_cases hn : a.lineno = n
    · have hstarts : warningStart n <+: commentWarning a.lineno a.key := by
        rw [hn]
        exact ⟨text "stripped a trailing ' #' comment from '" ++ a.key ++
          text "'; quote the value if '#' belongs to it", by simp [warningStart, commentWarning, text]⟩
      rw [if_pos hn, List.isPrefixOf_iff_prefix.mpr hstarts]
      rfl
    · have hstarts : (warningStart n).isPrefixOf (commentWarning a.lineno a.key) = false := by
        rw [Bool.eq_false_iff, ne_eq, List.isPrefixOf_iff_prefix]
        exact fun h => hn (warningStart_inj h).symm
      rw [if_neg hn, hstarts]
      rfl

/-- The warnings that name an assignment's line are its own. -/
theorem Parsed.warningsOn (h : Parsed lineno lines done) {a : Assigned} (ha : a ∈ done) :
    warningsOn a.lineno (done.flatMap Assigned.warning) = splitLines a.warning := by
  have hnodup := h.nodup
  have hholds := h.holds
  rw [Secretov.warningsOn, splitLines_warnings hholds, List.filter_flatMap]
  clear h
  induction done with
  | nil => cases ha
  | cons b done ih =>
    obtain ⟨hfresh, hnodup⟩ := List.nodup_cons.mp hnodup
    obtain ⟨hb, hlater⟩ := List.forall_mem_cons.mp hholds
    rw [List.flatMap_cons, filter_warning hb]
    rcases List.mem_cons.mp ha with rfl | ha
    · have hothers :
          (done.flatMap fun b => (splitLines b.warning).filter (warningStart a.lineno).isPrefixOf) = [] := by
        rw [List.flatMap_eq_nil_iff]
        intro b hmem
        have hne : b.lineno ≠ a.lineno := fun hsame => hfresh (List.mem_map.mpr ⟨b, hmem, hsame⟩)
        rw [filter_warning (hlater b hmem), if_neg hne]
      rw [if_pos rfl, hothers, List.append_nil]
    · have hne : b.lineno ≠ a.lineno := fun hsame => hfresh (List.mem_map.mpr ⟨a, ha, hsame.symm⟩)
      rw [if_neg hne, List.nil_append]
      exact ih ha hnodup hlater

end

theorem lookup_of_mem {pairs : KeyValues} (h : (pairs.map Prod.fst).Nodup) {key value : Bytes}
    (hmem : (key, value) ∈ pairs) :
    pairs.lookup key = some value := by
  obtain ⟨before, rest, rfl⟩ := List.append_of_mem hmem
  refine List.lookup_eq_some_iff.mpr ⟨before, rest, rfl, fun pair hpair => ?_⟩
  rw [List.map_append, List.map_cons] at h
  obtain ⟨-, -, hdisjoint⟩ := List.nodup_append.mp h
  have hne : pair.1 ≠ key := hdisjoint pair.1 (List.mem_map.mpr ⟨pair, hpair, rfl⟩) key List.mem_cons_self
  simpa using hne.symm

/-- In an accepted text, what a line's own value and warning are. -/
theorem assignsAt_assigned {s : Bytes} {pairs : KeyValues} {warnings : Bytes}
    (h : parseDotenv s = (.ok pairs, warnings))
    {lineno : Nat} {key raw : Bytes} (hline : AssignsAt s lineno key raw) :
    ∃ value warning, dotenvValue lineno key raw = .ok (value, warning) ∧ pairs.lookup key = some value ∧
      warningsOn lineno warnings = splitLines warning := by
  obtain ⟨done, hdone, hpairs, rfl⟩ := parsed_of_parse h
  obtain ⟨i, line, rfl, hget, hassigns⟩ := hline
  obtain ⟨a, ha, hnumber, rfl, rfl⟩ := hdone.mem hget hassigns
  obtain ⟨-, hnodup, -⟩ := parseDotenvLines_sound (congrArg Prod.fst h)
  have hmem : (a.key, a.value) ∈ pairs := hpairs ▸ List.mem_map.mpr ⟨a, ha, rfl⟩
  have hsame : a.lineno = i + 1 := by omega
  refine ⟨a.value, a.warning, hsame ▸ (hdone.holds a ha).2, ?_, hsame ▸ hdone.warningsOn ha⟩
  exact lookup_of_mem hnodup hmem

theorem splitLines_commentWarning {lineno : Nat} {key : Bytes} (h : Identifier key) :
    splitLines (commentWarning lineno key ++ [newline]) = [commentWarning lineno key] := by
  rw [splitLines_line (newline_not_mem_commentWarning h lineno)]
  rfl

/-- An accepted text loses its comments exactly if no ` #` follows only blanks. -/
theorem losesComments_iff {s : Bytes} {pairs : KeyValues} {warnings : Bytes}
    (h : parseDotenv s = (.ok pairs, warnings)) :
    LosesComments s pairs warnings ↔ ∀ lineno key raw, AssignsAt s lineno key raw → ¬HidesComment raw := by
  constructor
  · intro hloses lineno key raw hline hhides
    obtain ⟨value, warning, hvalue, hlookup, -⟩ := assignsAt_assigned h hline
    obtain ⟨kept, more, hkept, hne⟩ := hhides.value lineno key
    obtain ⟨rfl, rfl⟩ := Prod.mk.inj (Except.ok.inj (hvalue.symm.trans hkept))
    obtain ⟨blanks, hblanks, hcomment⟩ := hhides.commentAfter
    have hempty := ((hloses lineno key raw hline hhides.unquoted).1 blanks hcomment).1
    rw [trimmed_blank hblanks] at hempty
    exact hne (Option.some.inj (hlookup.symm.trans hempty))
  · intro hshown lineno key raw hline hunquoted
    obtain ⟨value, warning, hvalue, hlookup, hwarnings⟩ := assignsAt_assigned h hline
    obtain ⟨hcommented, hplain⟩ := dotenvValue_shown lineno key hunquoted (hshown lineno key raw hline)
    have hkey : Identifier key := by
      obtain ⟨i, line, -, -, blanks, -, hkey, -⟩ := hline
      exact hkey
    constructor
    · intro before hbefore
      obtain ⟨rfl, rfl⟩ := Prod.mk.inj (Except.ok.inj (hvalue.symm.trans (hcommented before hbefore)))
      exact ⟨hlookup, hwarnings.trans (splitLines_commentWarning hkey)⟩
    · intro hnone
      obtain ⟨rfl, rfl⟩ := Prod.mk.inj (Except.ok.inj (hvalue.symm.trans (hplain hnone)))
      exact ⟨hlookup, hwarnings⟩

theorem losesComments_iff_sample : LosesComments (text "A=x # y\n") [(text "A", text "x")]
    (text "warning: dotenv line 1: stripped a trailing ' #' comment from 'A'; " ++
      text "quote the value if '#' belongs to it\n") := by
  refine (losesComments_iff (by decide)).mpr ?_
  rintro lineno key raw ⟨i, line, rfl, hline, hassigns⟩ hhides
  have hlines : splitLines (text "A=x # y\n") = [text "A=x # y"] := by decide
  rw [hlines] at hline
  obtain rfl := List.mem_singleton.mp (List.mem_of_getElem? hline)
  obtain ⟨body, hbody, hkey⟩ := hassigns.dotenvKey
  have hsame : dotenvBody (text "A=x # y") = some (text "A=x # y") := by decide
  obtain rfl := Option.some.inj (hsame.symm.trans hbody)
  have hfound : dotenvKey 1 (text "A=x # y") = .ok (text "A", text "x # y") := by decide
  obtain ⟨-, rfl⟩ := Prod.mk.inj (Except.ok.inj (hfound.symm.trans (hkey 1)))
  obtain ⟨comment, hdrop⟩ := hhides.dropWhile
  exact absurd (List.cons.inj hdrop).1 (by decide)

/-- A comment is stored as the value, and no warning says so. -/
theorem not_losesComments_empty : ∃ pairs warnings, parseDotenv (text "A= #x\n") = (.ok pairs, warnings) ∧
    ¬LosesComments (text "A= #x\n") pairs warnings := by
  refine ⟨[(text "A", text "#x")], [], by decide, fun h => ?_⟩
  have hline : AssignsAt (text "A= #x\n") 1 (text "A") (text " #x") := by
    refine ⟨0, text "A= #x", rfl, by decide, [], by decide, isIdentifier_iff.mp (by decide), nofun⟩
  have hcomment : CommentAfter [] (text " #x") := beforeComment_iff.mp (by decide)
  have hunquoted : Unquoted (text " #x") := HidesComment.unquoted ⟨[], text "x", nofun, rfl⟩
  have hvalue := ((h 1 (text "A") (text " #x") hline hunquoted).1 [] hcomment).1
  revert hvalue
  decide

end Secretov
