import Secretov.Dotenv
import Secretov.ManifestEdit
import Secretov.Lib.Insertion

/-! The blocks of a manifest's text as sections of its lines: what `ensure_block`
finds or puts in, and that it finds it again. -/

namespace Secretov

open Insertion

/-- The line of `key:` at the indentation, with a value or without. -/
def keyAt (indent : Nat) (key line : Bytes) : Bool :=
  isContent line && indentOf line == indent && (key ++ [colon]).isPrefixOf (line.drop indent)

def bareAt (indent : Nat) (key line : Bytes) : Bool := blankOrComment ((line.drop indent).drop (key.length + 1))

theorem keyAt_content {indent : Nat} {key line : Bytes} (h : keyAt indent key line = true) :
    isContent line = true := by
  simp only [keyAt, Bool.and_eq_true] at h
  exact h.1.1

theorem keyAt_indent {indent : Nat} {key line : Bytes} (h : keyAt indent key line = true) :
    indentOf line = indent := by
  simp only [keyAt, Bool.and_eq_true, beq_iff_eq] at h
  exact h.1.2

/-! Scans of lines. -/

section

variable {indent i : Nat} {key : Bytes} {seg : List Bytes}

theorem findChildFrom_cons (indent i : Nat) (key line : Bytes) (lines : List Bytes) :
    findChildFrom indent key i (line :: lines) =
      if keyAt indent key line then
        if bareAt indent key line then .ok (some i) else .error (inlineValue key)
      else findChildFrom indent key (i + 1) lines := by
  rw [findChildFrom]
  by_cases hblank : blankOrComment line = true
  · simp [keyAt, isContent, hblank]
  · by_cases hindent : indentOf line = indent
    · by_cases hprefix : (key ++ [colon]).isPrefixOf (line.drop indent) = true
      · by_cases hbare : blankOrComment ((line.drop indent).drop (key.length + 1)) = true
        · simp only [keyAt, bareAt, isContent, hblank, hindent, hprefix, hbare]
          simp
        · simp only [keyAt, bareAt, isContent, hblank, hindent, hprefix, hbare]
          simp
      · simp only [keyAt, isContent, hblank, hindent, hprefix]
        simp
    · simp [keyAt, hindent]

theorem findChildFrom_append {before : List Bytes} (h : ∀ line ∈ before, keyAt indent key line = false)
    (rest : List Bytes) :
    findChildFrom indent key i (before ++ rest) = findChildFrom indent key (i + before.length) rest := by
  induction before generalizing i with
  | nil => rfl
  | cons line before ih =>
    obtain ⟨hline, hbefore⟩ := List.forall_mem_cons.mp h
    have hnumber : i + 1 + before.length = i + (line :: before).length := by
      rw [List.length_cons]
      omega
    rw [List.cons_append, findChildFrom_cons, hline, ih hbefore, hnumber]
    rfl

theorem findChildFrom_first {before rest : List Bytes} {line : Bytes}
    (hbefore : ∀ line ∈ before, keyAt indent key line = false) (hline : keyAt indent key line = true)
    (hbare : bareAt indent key line = true) :
    findChildFrom indent key i (before ++ line :: rest) = .ok (some (i + before.length)) := by
  rw [findChildFrom_append hbefore, findChildFrom_cons, if_pos hline, if_pos hbare]

theorem findChildFrom_ok {found : Option Nat} (h : findChildFrom indent key i seg = .ok found) :
    (found = none ∧ ∀ line ∈ seg, keyAt indent key line = false) ∨
      ∃ before line rest, seg = before ++ line :: rest ∧ (∀ line ∈ before, keyAt indent key line = false) ∧
        keyAt indent key line = true ∧ bareAt indent key line = true ∧ found = some (i + before.length) := by
  induction seg generalizing i with
  | nil => exact .inl ⟨(Except.ok.inj h).symm, nofun⟩
  | cons line seg ih =>
    rw [findChildFrom_cons] at h
    by_cases hline : keyAt indent key line = true
    · rw [if_pos hline] at h
      by_cases hbare : bareAt indent key line = true
      · rw [if_pos hbare] at h
        exact .inr ⟨[], line, seg, rfl, nofun, hline, hbare, (Except.ok.inj h).symm⟩
      · rw [if_neg hbare] at h
        cases h
    · rw [if_neg hline] at h
      rw [Bool.not_eq_true] at hline
      rcases ih h with ⟨hnone, hseg⟩ | ⟨before, found, rest, rfl, hbefore, hfound, hbare, rfl⟩
      · exact .inl ⟨hnone, List.forall_mem_cons.mpr ⟨hline, hseg⟩⟩
      · refine .inr ⟨line :: before, found, rest, rfl, List.forall_mem_cons.mpr ⟨hline, hbefore⟩, hfound,
          hbare, ?_⟩
        rw [List.length_cons]
        congr 1
        omega

/-- No content: blanks and comments only. -/
def Idle (lines : List Bytes) : Prop := ∀ line ∈ lines, isContent line = false

theorem insertPointFrom_split (minIndent i point : Nat) (seg : List Bytes) :
    ∃ top tail, seg = top ++ tail ∧ Idle tail ∧
      insertPointFrom minIndent i point seg = if top = [] then point else i + top.length := by
  induction seg generalizing i point with
  | nil => exact ⟨[], [], rfl, nofun, rfl⟩
  | cons line seg ih =>
    rw [insertPointFrom]
    by_cases hcounts : isContent line = true ∨ (isComment line = true ∧ minIndent ≤ indentOf line)
    · obtain ⟨top, tail, rfl, htail, hpoint⟩ := ih (i + 1) (i + 1)
      refine ⟨line :: top, tail, rfl, htail, ?_⟩
      rw [if_pos hcounts, hpoint, if_neg (List.cons_ne_nil _ _), List.length_cons]
      split_ifs with htop
      · simp [htop]
      · omega
    · obtain ⟨top, tail, rfl, htail, hpoint⟩ := ih (i + 1) point
      rw [if_neg hcounts, hpoint]
      by_cases htop : top = []
      · subst htop
        have hline : isContent line = false := by
          rw [not_or, Bool.not_eq_true] at hcounts
          exact hcounts.1
        exact ⟨[], line :: tail, rfl, List.forall_mem_cons.mpr ⟨hline, htail⟩, by simp⟩
      · refine ⟨line :: top, tail, rfl, htail, ?_⟩
        rw [if_neg htop, if_neg (List.cons_ne_nil _ _), List.length_cons]
        omega

/-- Every content line is deeper. -/
def Deeper (indent : Nat) (lines : List Bytes) : Prop :=
  ∀ line ∈ lines, isContent line = true → indent < indentOf line

/-- What comes next, if anything, is content that ends a block of the indentation. -/
def Closed (indent : Nat) (lines : List Bytes) : Prop :=
  ∀ line rest, lines = line :: rest → isContent line = true ∧ indentOf line ≤ indent

theorem Idle.deeper {lines : List Bytes} (h : Idle lines) (indent : Nat) : Deeper indent lines := by
  intro line hline hcontent
  rw [h line hline] at hcontent
  cases hcontent

theorem Closed.mono {deep : Nat} {lines : List Bytes} (h : Closed indent lines) (hdeep : indent ≤ deep) :
    Closed deep lines := by
  intro line rest hlines
  obtain ⟨hcontent, hle⟩ := h line rest hlines
  exact ⟨hcontent, hle.trans hdeep⟩

theorem blockEndFrom_closed {body post : List Bytes} (hbody : Deeper indent body) (hpost : Closed indent post) :
    blockEndFrom indent i (body ++ post) = i + body.length := by
  induction body generalizing i with
  | nil =>
    cases post with
    | nil => rfl
    | cons line post => exact if_pos (hpost line post rfl)
  | cons line body ih =>
    obtain ⟨hline, hbody⟩ := List.forall_mem_cons.mp hbody
    have hinside : ¬(isContent line = true ∧ indentOf line ≤ indent) := by
      rintro ⟨hcontent, hle⟩
      have hlt := hline hcontent
      omega
    rw [List.cons_append, blockEndFrom, if_neg hinside, ih hbody, List.length_cons]
    omega

/-- A block's body goes up to the first content that is not deeper. -/
theorem exists_body (indent : Nat) (lines : List Bytes) :
    ∃ body after, lines = body ++ after ∧ Deeper indent body ∧ ∀ post, Closed indent post →
      Closed indent (after ++ post) := by
  induction lines with
  | nil => exact ⟨[], [], rfl, nofun, fun post h => h⟩
  | cons line lines ih =>
    by_cases hends : isContent line = true ∧ indentOf line ≤ indent
    · refine ⟨[], line :: lines, rfl, nofun, fun post _ first rest hsame => ?_⟩
      obtain ⟨rfl, -⟩ := List.cons.inj hsame
      exact hends
    · obtain ⟨body, after, rfl, hbody, hafter⟩ := ih
      refine ⟨line :: body, after, rfl, List.forall_mem_cons.mpr ⟨fun hcontent => ?_, hbody⟩, hafter⟩
      by_contra hle
      exact hends ⟨hcontent, by omega⟩

def firstIndent (lines : List Bytes) : Option Nat := (lines.find? isContent).map indentOf

theorem firstIndent_prefix {before lines : List Bytes} (h : before <+: lines) :
    firstIndent before = none ∨ firstIndent before = firstIndent lines := by
  obtain ⟨rest, rfl⟩ := h
  unfold firstIndent
  rw [List.find?_append]
  cases before.find? isContent with
  | none => exact .inl rfl
  | some line => exact .inr rfl

theorem firstIndent_append {top : List Bytes} {n : Nat} (h : firstIndent top = some n) (rest : List Bytes) :
    firstIndent (top ++ rest) = some n := by
  obtain hnone | hsame := firstIndent_prefix (List.prefix_append top rest)
  · rw [hnone] at h
    cases h
  · rw [← hsame, h]

theorem firstIndent_idle {top : List Bytes} (h : firstIndent top = none) (rest : List Bytes) :
    firstIndent (top ++ rest) = firstIndent rest := by
  rw [firstIndent, Option.map_eq_none_iff] at h
  rw [firstIndent, List.find?_append, h]
  rfl

theorem Deeper.firstIndent {lines : List Bytes} (h : Deeper indent lines)
    {n : Nat} (hn : firstIndent lines = some n) : indent < n := by
  obtain ⟨line, hline, rfl⟩ := Option.map_eq_some_iff.mp hn
  exact h line (List.mem_of_find?_eq_some hline) (List.find?_some hline)

/-- The source's indices of a list of three parts. -/
theorem linesIn_parts (pre seg post : List Bytes) :
    linesIn (pre ++ seg ++ post) pre.length (pre.length + seg.length) = seg := by
  have htake : (pre ++ seg ++ post).take (pre.length + seg.length) = pre ++ seg := by
    rw [← List.length_append, List.take_left]
  rw [linesIn, htake, List.drop_left]

theorem insertLines_parts (pre added post : List Bytes) :
    insertLines (pre ++ post) pre.length added = pre ++ added ++ post := by
  rw [insertLines, List.take_left, List.drop_left]

theorem insertPoint_parts (pre seg post : List Bytes) (minIndent : Nat) :
    ∃ top tail, seg = top ++ tail ∧ Idle tail ∧
      insertPoint (pre ++ seg ++ post) pre.length (pre.length + seg.length) minIndent =
        pre.length + top.length := by
  obtain ⟨top, tail, hseg, htail, hpoint⟩ := insertPointFrom_split minIndent pre.length pre.length seg
  refine ⟨top, tail, hseg, htail, ?_⟩
  rw [insertPoint, linesIn_parts, hpoint]
  split_ifs with htop
  · simp [htop]
  · rfl

theorem blockAt_parts {body post : List Bytes} (pre : List Bytes) (keyLine : Bytes) (step : Nat)
    (hbody : Deeper indent body) (hpost : Closed indent post) :
    blockAt (pre ++ keyLine :: (body ++ post)) pre.length indent step =
      ⟨pre.length, pre.length + 1 + body.length, (firstIndent body).getD (indent + step)⟩ := by
  have hdrop : (pre ++ keyLine :: (body ++ post)).drop (pre.length + 1) = body ++ post := by
    rw [← List.drop_drop, List.drop_left]
    rfl
  have hlast : blockEnd (pre ++ keyLine :: (body ++ post)) pre.length indent = pre.length + 1 + body.length := by
    rw [blockEnd, hdrop, blockEndFrom_closed hbody hpost]
  have hparts := linesIn_parts (pre ++ [keyLine]) body post
  simp only [List.length_append, List.length_singleton, List.append_assoc, List.cons_append,
    List.nil_append] at hparts
  unfold blockAt
  dsimp only
  rw [hlast, childIndent, hparts]
  rfl

end

/-! Sections. -/

/-- A list of lines with a block in it. -/
structure Section where
  before : List Bytes
  keyLine : Bytes
  body : List Bytes
  after : List Bytes

namespace Section

def lines (s : Section) : List Bytes := s.before ++ s.keyLine :: (s.body ++ s.after)

def withBody (s : Section) (body : List Bytes) : Section := { s with body := body }

/-- The section's block, where the section starts at the line `first`. -/
def block (s : Section) (first indent step : Nat) : Block :=
  ⟨first + s.before.length, first + s.before.length + 1 + s.body.length,
    (firstIndent s.body).getD (indent + step)⟩

/-- The block is the first of its key, and ends with its body. -/
structure Holds (s : Section) (indent : Nat) (key : Bytes) (post : List Bytes) : Prop where
  first : ∀ line ∈ s.before, keyAt indent key line = false
  keyed : keyAt indent key s.keyLine = true
  bare : bareAt indent key s.keyLine = true
  deeper : Deeper indent s.body
  closed : Closed indent (s.after ++ post)

/-- The section is the old lines, with the block's key put in where it was missing. -/
def Extends (s : Section) (seg added : List Bytes) : Prop :=
  added = [] ∧ seg = s.lines ∨ added = [s.keyLine] ∧ seg = s.before ++ (s.body ++ s.after)

/-- The block was found in the old lines, or its key was put in after their last content. -/
def Placed (s : Section) (indent : Nat) (key : Bytes) (seg added : List Bytes) : Prop :=
  added = [] ∧ seg = s.lines ∨
    added = [s.keyLine] ∧ s.keyLine = spaces indent ++ key ++ [colon] ∧ seg = s.before ++ s.body ∧ s.after = [] ∧
      Idle s.body ∧ ∀ line ∈ seg, keyAt indent key line = false

variable {s : Section} {indent : Nat} {key : Bytes} {post seg added : List Bytes}

theorem Holds.withBody (h : s.Holds indent key post) {body : List Bytes} (hbody : Deeper indent body) :
    (s.withBody body).Holds indent key post :=
  ⟨h.first, h.keyed, h.bare, hbody, h.closed⟩

theorem Holds.blockAt (h : s.Holds indent key post) (pre : List Bytes) (step : Nat) :
    blockAt (pre ++ s.lines ++ post) (pre.length + s.before.length) indent step =
    s.block pre.length indent step := by
  have hlines : pre ++ s.lines ++ post = (pre ++ s.before) ++ s.keyLine :: (s.body ++ (s.after ++ post)) := by
    simp [lines]
  have hparts := blockAt_parts (pre ++ s.before) s.keyLine step h.deeper h.closed
  rw [List.length_append] at hparts
  rw [hlines]
  exact hparts

/-- The block is found where it is. -/
theorem Holds.ensureBlock (h : s.Holds indent key post) (pre : List Bytes) (step : Nat) :
    ensureBlock (pre ++ s.lines ++ post) pre.length (pre.length + s.lines.length) indent step key =
      .ok (pre ++ s.lines ++ post, s.block pre.length indent step) := by
  have hfound : findChild (pre ++ s.lines ++ post) pre.length (pre.length + s.lines.length) indent key =
      .ok (some (pre.length + s.before.length)) := by
    rw [findChild, linesIn_parts]
    exact findChildFrom_first h.first h.keyed h.bare
  rw [Secretov.ensureBlock, hfound, ← h.blockAt pre step]
  rfl

theorem Placed.extends (h : s.Placed indent key seg added) : s.Extends seg added := by
  rcases h with hfound | ⟨hadded, -, hseg, hafter, -, -⟩
  · exact .inl hfound
  · exact .inr ⟨hadded, by rw [hafter, List.append_nil, hseg]⟩

theorem Placed.atMost (h : s.Placed indent key seg added) :
    added = [] ∨ added = [spaces indent ++ key ++ [colon]] := by
  rcases h with ⟨hnone, -⟩ | ⟨hadded, hline, -⟩
  · exact .inl hnone
  · exact .inr (hline ▸ hadded)

theorem Extends.prefix (h : s.Extends seg added) : s.before <+: seg := by
  rcases h with ⟨-, rfl⟩ | ⟨-, rfl⟩
  · exact List.prefix_append _ _
  · exact List.prefix_append _ _

theorem Extends.mem (h : s.Extends seg added) : (∀ line ∈ s.before, line ∈ seg) ∧ (∀ line ∈ s.body, line ∈ seg) ∧
    ∀ line ∈ s.after, line ∈ seg := by
  rcases h with ⟨-, rfl⟩ | ⟨-, rfl⟩
  · refine ⟨fun line hline => ?_, fun line hline => ?_, fun line hline => ?_⟩ <;> simp [lines, hline]
  · refine ⟨fun line hline => ?_, fun line hline => ?_, fun line hline => ?_⟩ <;> simp [hline]

/-- What has been added is the block's key and what has been added to its body. -/
theorem Extends.inserted (h : s.Extends seg added) {more body : List Bytes} (hmore : Inserted more s.body body) :
    Inserted (added ++ more) seg (s.withBody body).lines := by
  have hrest : Inserted more (s.body ++ s.after) (body ++ s.after) := by
    have hboth := hmore.append (Inserted.refl s.after)
    rwa [List.append_nil] at hboth
  rcases h with ⟨rfl, rfl⟩ | ⟨rfl, rfl⟩
  · exact (Inserted.refl s.before).append (.keep hrest)
  · exact (Inserted.refl s.before).append (.add hrest)

/-- The block's key is as deep as the first content before it. -/
theorem firstIndent_withBody {n : Nat} (h : s.Extends seg added) (hkey : keyAt indent key s.keyLine = true)
    (hindent : (firstIndent seg).getD n = indent) (body : List Bytes) :
    firstIndent (s.withBody body).lines = some indent := by
  cases hbefore : firstIndent s.before with
  | some m =>
    obtain hnone | hsame := firstIndent_prefix h.prefix
    · rw [hnone] at hbefore
      cases hbefore
    · rw [← hsame, hbefore, Option.getD_some] at hindent
      subst hindent
      exact firstIndent_append hbefore _
  | none =>
    have hcontent := keyAt_content hkey
    have hdepth := keyAt_indent hkey
    show firstIndent (s.before ++ s.keyLine :: (body ++ s.after)) = some indent
    rw [firstIndent_idle hbefore, firstIndent, List.find?_cons_of_pos hcontent, Option.map_some, hdepth]

theorem deeper_withBody {outer : Nat} (h : s.Extends seg added) (hseg : Deeper outer seg)
    (hkey : keyAt indent key s.keyLine = true) (hlt : outer < indent) {body : List Bytes}
    (hbody : Deeper indent body) : Deeper outer (s.withBody body).lines := by
  intro line hline hcontent
  obtain ⟨hbefore, -, hafter⟩ := h.mem
  simp only [withBody, lines, List.mem_append, List.mem_cons] at hline
  rcases hline with hline | rfl | hline | hline
  · exact hseg line (hbefore line hline) hcontent
  · rw [keyAt_indent hkey]
    exact hlt
  · exact hlt.trans (hbody line hline hcontent)
  · exact hseg line (hafter line hline) hcontent

end Section

/-- The names that are put in: they start with a letter, a digit or an underscore. -/
def Starts (key : Bytes) : Prop := ∃ c rest, key = c :: rest ∧ (isAlnum c = true ∨ c = underscore)

/-- A character that makes a line content. -/
def visible (c : UInt8) : Bool := !isBlank c && c != carriageReturn && c != hash

def Visible (key : Bytes) : Prop := ∃ c rest, key = c :: rest ∧ visible c = true

theorem visible_of_alnum {c : UInt8} (hc : isAlnum c = true ∨ c = underscore) : visible c = true := by
  obtain ⟨hblank, -, hhash, -, -⟩ := isAlnum_ne hc
  have hreturn : c ≠ carriageReturn := by
    rintro rfl
    exact absurd hc (by decide)
  simp [visible, hblank, hhash, hreturn]

theorem Starts.visible {key : Bytes} (h : Starts key) : Visible key := by
  obtain ⟨c, rest, rfl, hc⟩ := h
  exact ⟨c, rest, rfl, visible_of_alnum hc⟩

theorem Identifier.starts {key : Bytes} (h : Identifier key) : Starts key := by
  obtain ⟨c, rest, rfl, -⟩ := id h
  exact ⟨c, rest, rfl, identifier_chars h c List.mem_cons_self⟩

section

variable {indent : Nat} {key : Bytes}

theorem takeWhile_spaces (indent : Nat) {c : UInt8} (hc : c ≠ blank) (s : Bytes) :
    (spaces indent ++ c :: s).takeWhile (· == blank) = spaces indent := by
  rw [List.takeWhile_append_of_pos (fun d hd => by simp [List.eq_of_mem_replicate hd]),
    List.takeWhile_cons_of_neg (by simpa using hc), List.append_nil]

/-- A line that is put in is content of its indentation. -/
theorem content_spaces (indent : Nat) {c : UInt8} (hc : visible c = true) (s : Bytes) :
    isContent (spaces indent ++ c :: s) = true ∧ indentOf (spaces indent ++ c :: s) = indent := by
  simp only [visible, isBlank, Bool.and_eq_true, Bool.not_eq_true', Bool.or_eq_false_iff, beq_eq_false_iff_ne,
    bne_iff_ne] at hc
  obtain ⟨⟨⟨hspace, htab⟩, hreturn⟩, hhash⟩ := hc
  constructor
  · rw [isContent]
    induction indent with
    | zero => simp [spaces, blankOrComment, hhash, htab, hreturn, hspace]
    | succ indent ih =>
      rw [spaces, List.replicate_succ, List.cons_append, blankOrComment, if_neg (by decide), if_neg (by decide)]
      exact ih
  · rw [indentOf, takeWhile_spaces indent hspace, spaces, List.length_replicate]

theorem drop_spaces (indent : Nat) (s : Bytes) : (spaces indent ++ s).drop indent = s := by
  have hlength : (spaces indent).length = indent := List.length_replicate
  have hdrop : (spaces indent ++ s).drop (spaces indent).length = s := List.drop_left
  rwa [hlength] at hdrop

theorem keyAt_spaces (hkey : Visible key) (indent : Nat) :
    keyAt indent key (spaces indent ++ key ++ [colon]) = true ∧
      bareAt indent key (spaces indent ++ key ++ [colon]) = true := by
  obtain ⟨c, rest, rfl, hc⟩ := hkey
  obtain ⟨hcontent, hindent⟩ := content_spaces indent hc (rest ++ [colon])
  have hline : spaces indent ++ (c :: rest) ++ [colon] = spaces indent ++ c :: (rest ++ [colon]) := by simp
  rw [hline]
  constructor
  · rw [keyAt, hcontent, hindent, drop_spaces]
    simp
  · rw [bareAt, drop_spaces]
    simp [blankOrComment]

/-- A block is found or put in, and is then a section of the lines. -/
theorem ensureBlock_section {pre seg post lines : List Bytes} {block : Block} {step : Nat} (hkey : Visible key)
    (hpost : Closed indent post)
    (h : ensureBlock (pre ++ seg ++ post) pre.length (pre.length + seg.length) indent step key =
    .ok (lines, block)) :
    ∃ (s : Section) (added : List Bytes), s.Holds indent key post ∧ lines = pre ++ s.lines ++ post ∧
      block = s.block pre.length indent step ∧ s.Placed indent key seg added := by
  obtain ⟨found, hfind, hblock⟩ := Prog.except_bind_eq_ok.mp h
  rw [findChild, linesIn_parts] at hfind
  rcases findChildFrom_ok hfind with ⟨rfl, hnone⟩ | ⟨before, keyLine, rest, rfl, hbefore, hline, hbare, rfl⟩
  · obtain ⟨top, tail, rfl, htail, hpoint⟩ := insertPoint_parts pre seg post indent
    obtain ⟨hkeyed, hbare⟩ := keyAt_spaces hkey indent
    let s : Section := ⟨top, spaces indent ++ key ++ [colon], tail, []⟩
    have hholds : s.Holds indent key post :=
      ⟨fun line hmem => hnone line (List.mem_append_left _ hmem), hkeyed, hbare, htail.deeper indent, hpost⟩
    have hput : insertLines (pre ++ (top ++ tail) ++ post) (pre.length + top.length) [s.keyLine] =
        pre ++ s.lines ++ post := by
      have hparts := insertLines_parts (pre ++ top) [s.keyLine] (tail ++ post)
      rw [List.length_append] at hparts
      simpa [s, Section.lines] using hparts
    have hadded := Prod.mk.inj (Except.ok.inj hblock)
    rw [hpoint, hput] at hadded
    obtain ⟨rfl, rfl⟩ := hadded
    exact ⟨s, [s.keyLine], hholds, rfl, hholds.blockAt pre step, .inr ⟨rfl, rfl, rfl, rfl, htail, hnone⟩⟩
  · obtain ⟨body, after, rfl, hbody, hafter⟩ := exists_body indent rest
    let s : Section := ⟨before, keyLine, body, after⟩
    have hholds : s.Holds indent key post := ⟨hbefore, hline, hbare, hbody, hafter post hpost⟩
    have hsame := hholds.ensureBlock pre step
    obtain ⟨rfl, rfl⟩ := Prod.mk.inj (Except.ok.inj (h.symm.trans hsame))
    exact ⟨s, [], hholds, rfl, rfl, .inl ⟨rfl, rfl⟩⟩

end

end Secretov
