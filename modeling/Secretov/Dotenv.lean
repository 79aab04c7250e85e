import Secretov.EnvNames
import Secretov.Json
import Secretov.Lines
import Secretov.Manifest

/-! `parse_dotenv` (manifest.cpp), its format, and that it accepts exactly this
format. -/

namespace Secretov

def equals : UInt8 := 61

def backslash : UInt8 := 92

def doubleQuote : UInt8 := 34

def singleQuote : UInt8 := 39

def kExport : Bytes := text "export "

def dotenvError (lineno : Nat) (what : Bytes) : Error :=
  .runtimeError (text "dotenv line " ++ decimal lineno ++ text ": " ++ what)

/-- A line without its carriage return and its leading blanks. -/
def stripLine (line : Bytes) : Bytes :=
  (if line.getLast? = some carriageReturn then line.dropLast else line).dropWhile isBlank

def dropExport (line : Bytes) : Bytes := if kExport <+: line then line.drop kExport.length else line

/-- What stands for an assignment on a line that is neither blank nor a comment. -/
def dotenvBody (line : Bytes) : Option Bytes :=
  match stripLine line with
  | [] => none
  | c :: s => if c = hash then none else some (dropExport (c :: s))

def dotenvKey (lineno : Nat) (body : Bytes) : Except Error (Bytes × Bytes) :=
  if equals ∉ body then .error (dotenvError lineno (text "expected KEY=VALUE"))
  else
    let key := (body.takeWhile (· ≠ equals)).rdropWhile isBlank
    let raw := (body.dropWhile (· ≠ equals)).tail
    if !isIdentifier key then .error (dotenvError lineno (text "invalid key '" ++ key ++ text "'"))
    else .ok (key, raw)

def unescape (c : UInt8) : Option UInt8 :=
  if c = 'n'.toUInt8 then some newline
  else if c = 't'.toUInt8 then some tab
  else if c = 'r'.toUInt8 then some carriageReturn
  else if c = backslash then some backslash
  else if c = doubleQuote then some doubleQuote
  else none

def dotenvEscape (lineno : Nat) (key : Bytes) (escaped : UInt8) : Except Error UInt8 :=
  match unescape escaped with
  | some c => .ok c
  | none => .error (dotenvError lineno
      (text "unsupported escape '\\" ++ [escaped] ++ text "' in double-quoted value of '" ++ key ++ text "'"))

/-- The value up to the closing quote, and what follows it. -/
def scanQuoted (lineno : Nat) (key : Bytes) (quote : UInt8) : Bytes → Except Error (Bytes × Bytes)
  | [] => .error (dotenvError lineno (text "unterminated quote"))
  | c :: s =>
    if quote == doubleQuote && c == backslash then
      match s with
      | [] => .error (dotenvError lineno (text "unterminated quote"))
      | escaped :: s => do
        let d ← dotenvEscape lineno key escaped
        let (value, rest) ← scanQuoted lineno key quote s
        return (d :: value, rest)
    else if c = quote then .ok ([], s)
    else do
      let (value, rest) ← scanQuoted lineno key quote s
      return (c :: value, rest)

/-- What stands before the first ` #`. -/
def beforeComment : Bytes → Option Bytes
  | [] => none
  | c :: s => if [blank, hash] <+: c :: s then some [] else (beforeComment s).map (c :: ·)

/-- The value, and the warning if a comment has been stripped. -/
def dotenvValue (lineno : Nat) (key raw : Bytes) : Except Error (Bytes × Bytes) :=
  match raw.dropWhile isBlank with
  | [] => .ok ([], [])
  | quote :: s =>
    if quote = doubleQuote ∨ quote = singleQuote then do
      let (value, rest) ← scanQuoted lineno key quote s
      if !blankOrComment rest then .error (dotenvError lineno (text "unexpected text after closing quote"))
      else .ok (value, [])
    else match beforeComment (quote :: s) with
      | some value => .ok (value.rdropWhile isBlank,
          text "warning: dotenv line " ++ decimal lineno ++
          text ": stripped a trailing ' #' comment from '" ++ key ++
            text "'; quote the value if '#' belongs to it" ++ [newline])
      | none => .ok ((quote :: s).rdropWhile isBlank, [])

/-- The pairs, and the warnings. -/
def parseDotenvLines (lineno : Nat) (firstLineOfKey : List (Bytes × Nat)) :
    List Bytes → Except Error KeyValues × Bytes
  | [] => (.ok [], [])
  | line :: lines =>
    match dotenvBody line with
    | none => parseDotenvLines (lineno + 1) firstLineOfKey lines
    | some body =>
      match dotenvKey lineno body with
      | .error e => (.error e, [])
      | .ok (key, raw) =>
        match firstLineOfKey.lookup key with
        | some first => (.error (dotenvError lineno
            (text "duplicate key '" ++ key ++ text "' (first set on line " ++ decimal first ++ text ")")), [])
        | none =>
          match dotenvValue lineno key raw with
          | .error e => (.error e, [])
          | .ok (value, warning) =>
            let (pairs, warnings) := parseDotenvLines (lineno + 1) ((key, lineno) :: firstLineOfKey) lines
            (pairs.map ((key, value) :: ·), warning ++ warnings)

def parseDotenv (s : Bytes) : Except Error KeyValues × Bytes := parseDotenvLines 1 [] (splitLines s)

example : (parseDotenv (text "export A=1\nB = two words # trailing\nC=\"a # b\\n\"\nD='x \"y\"'\r\n")).1 =
    .ok [(text "A", text "1"), (text "B", text "two words"), (text "C", text "a # b\n"),
      (text "D", text "x \"y\"")] := by
  decide +kernel

/-! The format. -/

def Blank (s : Bytes) : Prop := ∀ c ∈ s, isBlank c = true

/-- A double-quoted body and what it stands for. -/
inductive Decodes : Bytes → Bytes → Prop
  | nil : Decodes [] []
  | plain {c : UInt8} {s value : Bytes} : c ≠ backslash → c ≠ doubleQuote → Decodes s value →
      Decodes (c :: s) (c :: value)
  | escape {c d : UInt8} {s value : Bytes} : unescape c = some d → Decodes s value →
      Decodes (backslash :: c :: s) (d :: value)

/-- An unquoted value ends before a comment, and before any blanks at the end. -/
def plainValue (s : Bytes) : Bytes := ((beforeComment s).getD s).rdropWhile isBlank

/-- The right-hand sides, and the values that they stand for. -/
inductive RightHandSide : Bytes → Bytes → Prop
  | empty {blanks : Bytes} : Blank blanks → RightHandSide blanks []
  | single {blanks body rest : Bytes} : Blank blanks → singleQuote ∉ body → Trailing rest →
      RightHandSide (blanks ++ singleQuote :: (body ++ singleQuote :: rest)) body
  | double {blanks body value rest : Bytes} : Blank blanks → Decodes body value → Trailing rest →
      RightHandSide (blanks ++ doubleQuote :: (body ++ doubleQuote :: rest)) value
  | plain {blanks s : Bytes} {c : UInt8} : Blank blanks → isBlank c = false → c ≠ singleQuote → c ≠ doubleQuote →
      RightHandSide (blanks ++ c :: s) (plainValue (c :: s))

def Ignorable (line : Bytes) : Prop := stripLine line = [] ∨ ∃ comment, stripLine line = hash :: comment

def Assigns (line key value : Bytes) : Prop :=
  ∃ blanks raw, dropExport (stripLine line) = key ++ (blanks ++ equals :: raw) ∧ Identifier key ∧ Blank blanks ∧
    RightHandSide raw value

/-- Every line is ignorable or an assignment; the pairs are those of the assignments, in order. -/
inductive Dotenv : List Bytes → KeyValues → Prop
  | nil : Dotenv [] []
  | ignored {line : Bytes} {lines : List Bytes} {pairs : KeyValues} : Ignorable line → Dotenv lines pairs →
      Dotenv (line :: lines) pairs
  | assigned {line key value : Bytes} {lines : List Bytes} {pairs : KeyValues} : Assigns line key value →
      Dotenv lines pairs → Dotenv (line :: lines) ((key, value) :: pairs)

theorem ignorable_iff {line : Bytes} : Ignorable line ↔ dotenvBody line = none := by
  unfold Ignorable dotenvBody
  cases hs : stripLine line with
  | nil => simp
  | cons c s => by_cases hc : c = hash <;> simp [hc]

theorem dotenvBody_some {line body : Bytes} (h : dotenvBody line = some body) :
    body = dropExport (stripLine line) := by
  unfold dotenvBody at h
  split at h
  · cases h
  · rename_i c s hs
    split at h
    · cases h
    · rw [hs]
      exact (Option.some.inj h).symm

theorem identifier_chars {key : Bytes} (h : Identifier key) : ∀ c ∈ key, isAlnum c = true ∨ c = underscore := by
  obtain ⟨c, rest, rfl, hc, hrest⟩ := h
  refine List.forall_mem_cons.mpr ⟨hc.imp_left fun h => ?_, hrest⟩
  simp [isAlnum, h]

theorem isAlnum_ne {c : UInt8} (h : isAlnum c = true ∨ c = underscore) :
    isBlank c = false ∧ c ≠ equals ∧ c ≠ hash ∧ c ≠ newline ∧ c ≠ blank := by
  refine ⟨?_, ?_, ?_, ?_, ?_⟩
  · by_contra hblank
    rw [Bool.not_eq_false, isBlank, Bool.or_eq_true, beq_iff_eq, beq_iff_eq] at hblank
    rcases hblank with rfl | rfl <;> revert h <;> decide
  all_goals
    rintro rfl
    revert h
    decide

/-- A line that starts with a name is not ignorable. -/
theorem dotenvBody_name {line key rest : Bytes} (hkey : Identifier key)
    (hbody : dropExport (stripLine line) = key ++ rest) :
    dotenvBody line = some (key ++ rest) := by
  unfold dotenvBody
  cases hs : stripLine line with
  | nil =>
    rw [hs] at hbody
    obtain ⟨c, tail, rfl, -⟩ := hkey
    simp [dropExport, kExport] at hbody
  | cons c s =>
    have hc : c ≠ hash := by
      rintro rfl
      have hkept : dropExport (hash :: s) = hash :: s := if_neg (by simp [kExport, text, hash])
      rw [hs, hkept] at hbody
      obtain ⟨d, tail, rfl, -⟩ := id hkey
      obtain ⟨rfl, -⟩ := List.cons.inj hbody
      exact (isAlnum_ne (identifier_chars hkey _ List.mem_cons_self)).2.2.1 rfl
    dsimp only
    rw [if_neg hc, ← hs, hbody]

theorem assigns_body {line key value : Bytes} (h : Assigns line key value) :
    ∃ raw blanks, dotenvBody line = some (key ++ (blanks ++ equals :: raw)) ∧ Identifier key ∧ Blank blanks ∧
      RightHandSide raw value := by
  obtain ⟨blanks, raw, hbody, hkey, hblanks, hrhs⟩ := h
  exact ⟨raw, blanks, dotenvBody_name hkey hbody, hkey, hblanks, hrhs⟩

theorem dropWhile_blank {blanks s : Bytes} (h : Blank blanks) :
    (blanks ++ s).dropWhile isBlank = s.dropWhile isBlank := by
  induction blanks with
  | nil => rfl
  | cons c blanks ih =>
    obtain ⟨hc, hblanks⟩ := List.forall_mem_cons.mp h
    rw [List.cons_append, List.dropWhile_cons_of_pos hc, ih hblanks]

theorem split_equals {body : Bytes} (h : equals ∈ body) :
    body = body.takeWhile (· ≠ equals) ++ equals :: (body.dropWhile (· ≠ equals)).tail := by
  induction body with
  | nil => cases h
  | cons c s ih =>
    by_cases hc : c = equals
    · simp [hc]
    · have hs := ih ((List.mem_cons.mp h).resolve_left (Ne.symm hc))
      simp only [List.takeWhile_cons, List.dropWhile_cons, ne_eq, hc, not_false_eq_true, decide_true, if_true]
      exact congrArg (c :: ·) hs

theorem until_equals {name : Bytes} (h : equals ∉ name) (raw : Bytes) :
    (name ++ equals :: raw).takeWhile (· ≠ equals) = name ∧
      (name ++ equals :: raw).dropWhile (· ≠ equals) = equals :: raw := by
  have hname : ∀ c ∈ name, decide (c ≠ equals) = true := fun c hc => by simpa using ne_of_mem_of_not_mem hc h
  constructor
  · rw [List.takeWhile_append_of_pos hname, List.takeWhile_cons_of_neg (by simp), List.append_nil]
  · rw [List.dropWhile_append_of_pos hname, List.dropWhile_cons_of_neg (by simp)]

theorem rdropWhile_blank {key blanks : Bytes} (hkey : ∀ c ∈ key, isBlank c = false) (hblanks : Blank blanks) :
    (key ++ blanks).rdropWhile isBlank = key := by
  have hreverse : Blank blanks.reverse := fun c hc => hblanks c (List.mem_reverse.mp hc)
  have hkept : key.reverse.dropWhile isBlank = key.reverse := by
    rw [List.dropWhile_eq_self_iff]
    intro hlen
    rw [hkey _ (List.mem_reverse.mp (List.getElem_mem hlen))]
    exact Bool.false_ne_true
  rw [List.rdropWhile, List.reverse_append, dropWhile_blank hreverse, hkept, List.reverse_reverse]

theorem dotenvKey_iff {lineno : Nat} {body key raw : Bytes} :
    dotenvKey lineno body = .ok (key, raw) ↔
      Identifier key ∧ ∃ blanks, Blank blanks ∧ body = key ++ (blanks ++ equals :: raw) := by
  unfold dotenvKey
  constructor
  · intro h
    split at h
    · cases h
    · rename_i hmem
      dsimp only at h
      split at h
      · cases h
      · rename_i hident
        obtain ⟨rfl, rfl⟩ := Prod.mk.inj (Except.ok.inj h)
        refine ⟨isIdentifier_iff.mp (by simpa using hident), (body.takeWhile (· ≠ equals)).rtakeWhile isBlank,
          ?_, ?_⟩
        · exact fun c hc => List.mem_rtakeWhile_imp hc
        · rw [← List.append_assoc, List.rdropWhile_append_rtakeWhile]
          exact split_equals (not_not.mp hmem)
  · rintro ⟨hkey, blanks, hblanks, rfl⟩
    have hchars := fun c hc => isAlnum_ne (identifier_chars hkey c hc)
    have hname : equals ∉ key ++ blanks := by
      rw [List.mem_append, not_or]
      exact ⟨fun h => (hchars _ h).2.1 rfl, fun h => absurd (hblanks _ h) (by decide)⟩
    obtain ⟨htake, hdrop⟩ := until_equals hname raw
    rw [← List.append_assoc, if_neg (by simp), htake, hdrop,
      rdropWhile_blank (fun c hc => (hchars c hc).1) hblanks]
    dsimp only
    rw [if_neg (by simp [isIdentifier_iff.mpr hkey]), List.tail_cons]

theorem scanQuoted_single {lineno : Nat} {key s value rest : Bytes} :
    scanQuoted lineno key singleQuote s = .ok (value, rest) ↔ singleQuote ∉ value ∧
      s = value ++ singleQuote :: rest := by
  induction s generalizing value with
  | nil => simp [scanQuoted]
  | cons c s ih =>
    have hquote : singleQuote ≠ doubleQuote := by decide
    rw [scanQuoted.eq_def]
    dsimp only
    rw [if_neg (by simp [hquote])]
    by_cases hc : c = singleQuote
    · rw [if_pos hc]
      subst hc
      constructor
      · intro h
        obtain ⟨rfl, rfl⟩ := Prod.mk.inj (Except.ok.inj h)
        exact ⟨nofun, rfl⟩
      · rintro ⟨hmem, heq⟩
        cases value with
        | nil => rw [(List.cons.inj heq).2]
        | cons d value => exact absurd (by rw [(List.cons.inj heq).1]; exact List.mem_cons_self) hmem
    · rw [if_neg hc]
      constructor
      · intro h
        cases hs : scanQuoted lineno key singleQuote s with
        | error e =>
          rw [hs] at h
          cases h
        | ok scanned =>
          rw [hs] at h
          obtain ⟨rfl, rfl⟩ := Prod.mk.inj (Except.ok.inj h)
          obtain ⟨hmem, rfl⟩ := ih.mp hs
          exact ⟨by simp [Ne.symm hc, hmem], rfl⟩
      · rintro ⟨hmem, heq⟩
        cases value with
        | nil => exact absurd (List.cons.inj heq).1 hc
        | cons d value =>
          obtain ⟨rfl, rfl⟩ := List.cons.inj heq
          rw [ih.mpr ⟨fun h => hmem (List.mem_cons_of_mem _ h), rfl⟩]
          rfl

theorem scanQuoted_escape (lineno : Nat) (key : Bytes) (c : UInt8) (s : Bytes) :
    scanQuoted lineno key doubleQuote (backslash :: c :: s) = do
      let d ← dotenvEscape lineno key c
      let (value, rest) ← scanQuoted lineno key doubleQuote s
      return (d :: value, rest) := by
  rw [scanQuoted.eq_def]
  rfl

theorem scanQuoted_plain {lineno : Nat} {key s : Bytes} {c : UInt8} (hescape : c ≠ backslash)
    (hquote : c ≠ doubleQuote) :
    scanQuoted lineno key doubleQuote (c :: s) = do
      let (value, rest) ← scanQuoted lineno key doubleQuote s
      return (c :: value, rest) := by
  rw [scanQuoted.eq_def]
  dsimp only
  rw [if_neg (by simp [hescape]), if_neg hquote]

theorem scanQuoted_close (lineno : Nat) (key s : Bytes) :
    scanQuoted lineno key doubleQuote (doubleQuote :: s) = .ok ([], s) := by
  rw [scanQuoted.eq_def]
  rfl

theorem scanQuoted_decodes {lineno : Nat} {key body value : Bytes} (h : Decodes body value) (rest : Bytes) :
    scanQuoted lineno key doubleQuote (body ++ doubleQuote :: rest) = .ok (value, rest) := by
  induction h with
  | nil => exact scanQuoted_close lineno key rest
  | plain hescape hquote _ ih =>
    rw [List.cons_append, scanQuoted_plain hescape hquote, ih]
    rfl
  | escape hc _ ih =>
    rw [List.cons_append, List.cons_append, scanQuoted_escape, dotenvEscape, hc, ih]
    rfl

theorem scanned_cons {x : Except Error (Bytes × Bytes)} {c : UInt8} {value rest : Bytes}
    (h : (do let (value, rest) ← x; return (c :: value, rest)) =
      (.ok (value, rest) : Except Error (Bytes × Bytes))) :
    ∃ tail, x = .ok (tail, rest) ∧ value = c :: tail := by
  cases x with
  | error e => cases h
  | ok scanned =>
    obtain ⟨rfl, rfl⟩ := Prod.mk.inj (Except.ok.inj h)
    exact ⟨scanned.1, rfl, rfl⟩

/-- An escape takes two bytes, so the induction is on the length. -/
theorem decodes_of_scanQuoted {lineno : Nat} {key s value rest : Bytes}
    (h : scanQuoted lineno key doubleQuote s = .ok (value, rest)) :
    ∃ body, Decodes body value ∧ s = body ++ doubleQuote :: rest := by
  induction hn : s.length using Nat.strong_induction_on generalizing s value with
  | _ n ih =>
    cases s with
    | nil => cases h
    | cons c s =>
      by_cases hescape : c = backslash
      · subst hescape
        cases s with
        | nil => cases h
        | cons e s =>
          rw [scanQuoted_escape, dotenvEscape] at h
          cases hd : unescape e with
          | none =>
            rw [hd] at h
            cases h
          | some d =>
            rw [hd] at h
            obtain ⟨tail, hs, rfl⟩ := scanned_cons h
            obtain ⟨body, hbody, rfl⟩ := ih s.length (by simp at hn; omega) hs rfl
            exact ⟨backslash :: e :: body, .escape hd hbody, rfl⟩
      · by_cases hquote : c = doubleQuote
        · subst hquote
          rw [scanQuoted_close] at h
          obtain ⟨rfl, rfl⟩ := Prod.mk.inj (Except.ok.inj h)
          exact ⟨[], .nil, rfl⟩
        · rw [scanQuoted_plain hescape hquote] at h
          obtain ⟨tail, hs, rfl⟩ := scanned_cons h
          obtain ⟨body, hbody, rfl⟩ := ih s.length (by simp at hn; omega) hs rfl
          exact ⟨c :: body, .plain hescape hquote hbody, rfl⟩

theorem dropWhile_split (s : Bytes) : ∃ blanks, Blank blanks ∧ s = blanks ++ s.dropWhile isBlank :=
  ⟨s.takeWhile isBlank, fun _ hc => List.mem_takeWhile_imp hc, List.takeWhile_append_dropWhile.symm⟩

theorem dropWhile_head {s rest : Bytes} {c : UInt8} (h : s.dropWhile isBlank = c :: rest) :
    isBlank c = false := by
  have hne : s.dropWhile isBlank ≠ [] := by simp [h]
  have hhead := List.head_dropWhile_not isBlank hne
  simpa [h] using hhead

theorem dotenvValue_sound {lineno : Nat} {key raw value warning : Bytes}
    (h : dotenvValue lineno key raw = .ok (value, warning)) : RightHandSide raw value := by
  obtain ⟨blanks, hblanks, hraw⟩ := dropWhile_split raw
  unfold dotenvValue at h
  split at h
  · rename_i hempty
    obtain ⟨rfl, -⟩ := Prod.mk.inj (Except.ok.inj h)
    rw [hempty, List.append_nil] at hraw
    exact hraw ▸ .empty hblanks
  · rename_i quote s hs
    rw [hs] at hraw
    subst hraw
    split at h
    · rename_i hquote
      cases hscan : scanQuoted lineno key quote s with
      | error e =>
        rw [hscan] at h
        cases h
      | ok scanned =>
        obtain ⟨body, rest⟩ := scanned
        rw [hscan] at h
        have h : (if !blankOrComment rest then .error (dotenvError lineno
            (text "unexpected text after closing quote"))
          else .ok (body, []) : Except Error (Bytes × Bytes)) = .ok (value, warning) := h
        split at h
        · cases h
        · rename_i htrailing
          obtain ⟨rfl, -⟩ := Prod.mk.inj (Except.ok.inj h)
          have htrailing : Trailing rest := blankOrComment_iff.mp (by simpa using htrailing)
          rcases hquote with rfl | rfl
          · obtain ⟨encoded, hdecodes, rfl⟩ := decodes_of_scanQuoted hscan
            exact .double hblanks hdecodes htrailing
          · obtain ⟨hmem, rfl⟩ := scanQuoted_single.mp hscan
            exact .single hblanks hmem htrailing
    · rename_i hquote
      rw [not_or] at hquote
      have hplain : value = plainValue (quote :: s) := by
        unfold plainValue
        split at h
        · rename_i before hbefore
          rw [hbefore]
          exact (Prod.mk.inj (Except.ok.inj h)).1.symm
        · rename_i hbefore
          rw [hbefore]
          exact (Prod.mk.inj (Except.ok.inj h)).1.symm
      rw [hplain]
      exact .plain hblanks (dropWhile_head hs) hquote.2 hquote.1

theorem dotenvValue_complete {lineno : Nat} {key raw value : Bytes} (h : RightHandSide raw value) :
    ∃ warning, dotenvValue lineno key raw = .ok (value, warning) := by
  unfold dotenvValue
  cases h with
  | @empty blanks hblanks =>
    have hdrop : raw.dropWhile isBlank = [] := List.dropWhile_eq_nil_iff.mpr hblanks
    rw [hdrop]
    exact ⟨[], rfl⟩
  | @single blanks body rest hblanks hmem htrailing =>
    rw [dropWhile_blank hblanks, List.dropWhile_cons_of_neg (by decide)]
    dsimp only
    rw [if_pos (Or.inr rfl), scanQuoted_single.mpr ⟨hmem, rfl⟩]
    have hrest := blankOrComment_iff.mpr htrailing
    refine ⟨[], ?_⟩
    simp [bind, Except.bind, hrest]
  | @double blanks body _ rest hblanks hdecodes htrailing =>
    rw [dropWhile_blank hblanks, List.dropWhile_cons_of_neg (by decide)]
    dsimp only
    rw [if_pos (Or.inl rfl), scanQuoted_decodes hdecodes]
    have hrest := blankOrComment_iff.mpr htrailing
    refine ⟨[], ?_⟩
    simp [bind, Except.bind, hrest]
  | @plain blanks s c hblanks hc hsingle hdouble =>
    rw [dropWhile_blank hblanks, List.dropWhile_cons_of_neg (by simp [hc])]
    dsimp only
    rw [if_neg (by simp [hsingle, hdouble]), plainValue]
    cases hbefore : beforeComment (c :: s) with
    | none => exact ⟨_, rfl⟩
    | some before => exact ⟨_, rfl⟩

theorem lookup_cons_ne {key k : Bytes} (h : k ≠ key) (lineno : Nat) (seen : List (Bytes × Nat)) :
    ((key, lineno) :: seen).lookup k = seen.lookup k := by
  rw [List.lookup_cons, beq_false_of_ne h]

theorem parseDotenvLines_sound {lines : List Bytes} {lineno : Nat} {seen : List (Bytes × Nat)} {pairs : KeyValues}
    (h : (parseDotenvLines lineno seen lines).1 = .ok pairs) :
    Dotenv lines pairs ∧ (pairs.map Prod.fst).Nodup ∧ ∀ key ∈ pairs.map Prod.fst, seen.lookup key = none := by
  induction lines generalizing lineno seen pairs with
  | nil =>
    obtain rfl := Except.ok.inj h
    exact ⟨.nil, List.nodup_nil, nofun⟩
  | cons line lines ih =>
    unfold parseDotenvLines at h
    cases hbody : dotenvBody line with
    | none =>
      rw [hbody] at h
      obtain ⟨hlines, hrest⟩ := ih h
      exact ⟨.ignored (ignorable_iff.mpr hbody) hlines, hrest⟩
    | some body =>
      rw [hbody] at h
      dsimp only at h
      cases hkey : dotenvKey lineno body with
      | error e =>
        rw [hkey] at h
        cases h
      | ok found =>
        obtain ⟨key, raw⟩ := found
        rw [hkey] at h
        dsimp only at h
        cases hseen : seen.lookup key with
        | some first =>
          rw [hseen] at h
          cases h
        | none =>
          rw [hseen] at h
          dsimp only at h
          cases hvalue : dotenvValue lineno key raw with
          | error e =>
            rw [hvalue] at h
            cases h
          | ok decoded =>
            obtain ⟨value, warning⟩ := decoded
            rw [hvalue] at h
            dsimp only at h
            cases hrest : (parseDotenvLines (lineno + 1) ((key, lineno) :: seen) lines).1 with
            | error e =>
              rw [hrest] at h
              cases h
            | ok rest =>
              rw [hrest] at h
              obtain rfl := Except.ok.inj h
              obtain ⟨hlines, hnodup, hnew⟩ := ih hrest
              obtain ⟨hident, blanks, hblanks, rfl⟩ := dotenvKey_iff.mp hkey
              have hassigns : Assigns line key value :=
                ⟨blanks, raw, (dotenvBody_some hbody).symm, hident, hblanks, dotenvValue_sound hvalue⟩
              have hfresh : key ∉ rest.map Prod.fst := by
                intro hmem
                have hnone := hnew key hmem
                simp at hnone
              refine ⟨.assigned hassigns hlines, List.nodup_cons.mpr ⟨hfresh, hnodup⟩, ?_⟩
              refine List.forall_mem_cons.mpr ⟨hseen, fun k hk => ?_⟩
              have hnone := hnew k hk
              rw [lookup_cons_ne (ne_of_mem_of_not_mem hk hfresh)] at hnone
              exact hnone

theorem parseDotenvLines_complete {lines : List Bytes} {pairs : KeyValues} (h : Dotenv lines pairs)
    {lineno : Nat} {seen : List (Bytes × Nat)} (hnodup : (pairs.map Prod.fst).Nodup)
    (hnew : ∀ key ∈ pairs.map Prod.fst, seen.lookup key = none) :
    (parseDotenvLines lineno seen lines).1 = .ok pairs := by
  induction h generalizing lineno seen with
  | nil => rfl
  | ignored hline _ ih =>
    rw [parseDotenvLines, ignorable_iff.mp hline]
    exact ih hnodup hnew
  | @assigned line key value lines pairs hline _ ih =>
    obtain ⟨hfresh, hnodup⟩ := List.nodup_cons.mp hnodup
    obtain ⟨hseen, hnew⟩ := List.forall_mem_cons.mp hnew
    obtain ⟨raw, blanks, hbody, hkey, hblanks, hrhs⟩ := assigns_body hline
    obtain ⟨warning, hvalue⟩ := @dotenvValue_complete lineno key _ _ hrhs
    have hrest : ∀ k ∈ pairs.map Prod.fst, ((key, lineno) :: seen).lookup k = none := by
      intro k hk
      rw [lookup_cons_ne (ne_of_mem_of_not_mem hk hfresh)]
      exact hnew k hk
    rw [parseDotenvLines, hbody]
    dsimp only
    rw [dotenvKey_iff.mpr ⟨hkey, blanks, hblanks, rfl⟩]
    dsimp only
    rw [hseen]
    dsimp only
    rw [hvalue]
    dsimp only
    rw [ih hnodup hrest]
    rfl

theorem dotenv_append_empty {lines : List Bytes} {pairs : KeyValues} :
    Dotenv (lines ++ [[]]) pairs ↔ Dotenv lines pairs := by
  have hempty : Ignorable [] := Or.inl rfl
  have hnot {key value : Bytes} : ¬Assigns [] key value := by
    intro h
    obtain ⟨raw, blanks, hbody, -⟩ := assigns_body h
    rw [ignorable_iff.mp hempty] at hbody
    cases hbody
  induction lines generalizing pairs with
  | nil =>
    constructor
    · rintro (_ | ⟨-, h⟩ | ⟨h, -⟩)
      · exact h
      · exact absurd h hnot
    · exact fun h => .ignored hempty h
  | cons line lines ih =>
    constructor
    · rintro (_ | ⟨hline, h⟩ | ⟨hline, h⟩)
      · exact .ignored hline (ih.mp h)
      · exact .assigned hline (ih.mp h)
    · rintro (_ | ⟨hline, h⟩ | ⟨hline, h⟩)
      · exact .ignored hline (ih.mpr h)
      · exact .assigned hline (ih.mpr h)

theorem dotenv_splitOn {s : Bytes} {pairs : KeyValues} :
    Dotenv (s.splitOn newline) pairs ↔ Dotenv (splitLines s) pairs := by
  rcases splitOn_newline s with ⟨hsame, -⟩ | hmore
  · rw [hsame]
  · rw [hmore]
    exact dotenv_append_empty

/-! Writing the pairs out, with every value in double quotes. -/

def escapeByte (c : UInt8) : Bytes :=
  if c = newline then [backslash, 'n'.toUInt8]
  else if c = tab then [backslash, 't'.toUInt8]
  else if c = carriageReturn then [backslash, 'r'.toUInt8]
  else if c = backslash ∨ c = doubleQuote then [backslash, c]
  else [c]

def escape (value : Bytes) : Bytes := value.flatMap escapeByte

def dotenvLine (pair : Bytes × Bytes) : Bytes :=
  pair.1 ++ equals :: doubleQuote :: (escape pair.2 ++ [doubleQuote])

def writeDotenv (pairs : KeyValues) : Bytes := pairs.flatMap fun pair => dotenvLine pair ++ [newline]

theorem decodes_escape (value : Bytes) : Decodes (escape value) value := by
  induction value with
  | nil => exact .nil
  | cons c value ih =>
    have hcons : escape (c :: value) = escapeByte c ++ escape value := rfl
    rw [hcons]
    unfold escapeByte
    split
    · rename_i h
      exact .escape (by rw [h]; rfl) ih
    · split
      · rename_i h
        exact .escape (by rw [h]; rfl) ih
      · split
        · rename_i h
          exact .escape (by rw [h]; rfl) ih
        · split
          · rename_i h
            rcases h with rfl | rfl <;> exact .escape rfl ih
          · rename_i h
            rw [not_or] at h
            exact .plain h.1 h.2 ih

theorem newline_not_mem_escape (value : Bytes) : newline ∉ escape value := by
  intro h
  obtain ⟨c, -, hc⟩ := List.mem_flatMap.mp h
  unfold escapeByte at hc
  split at hc
  · revert hc
    decide
  · split at hc
    · revert hc
      decide
    · split at hc
      · revert hc
        decide
      · split at hc
        · rename_i hescaped
          rcases hescaped with rfl | rfl <;> revert hc <;> decide
        · rename_i hplain _ _ _
          exact hplain (List.mem_singleton.mp hc).symm

theorem newline_not_mem_dotenvLine {pair : Bytes × Bytes} (h : Identifier pair.1) :
    newline ∉ dotenvLine pair := by
  have hkey : newline ∉ pair.1 := fun hmem => (isAlnum_ne (identifier_chars h _ hmem)).2.2.2.1 rfl
  have hvalue := newline_not_mem_escape pair.2
  have hequals : newline ≠ equals := by decide
  have hquote : newline ≠ doubleQuote := by decide
  simp [dotenvLine, hkey, hvalue, hequals, hquote]

theorem splitLines_writeDotenv {pairs : KeyValues} (h : ∀ pair ∈ pairs, Identifier pair.1) :
    splitLines (writeDotenv pairs) = pairs.map dotenvLine := by
  induction pairs with
  | nil => rfl
  | cons pair pairs ih =>
    obtain ⟨hpair, hpairs⟩ := List.forall_mem_cons.mp h
    have hcons : writeDotenv (pair :: pairs) = dotenvLine pair ++ newline :: writeDotenv pairs := by
      simp [writeDotenv]
    rw [hcons, splitLines_line (newline_not_mem_dotenvLine hpair), ih hpairs]
    rfl

theorem stripLine_dotenvLine {pair : Bytes × Bytes} (h : Identifier pair.1) :
    stripLine (dotenvLine pair) = dotenvLine pair := by
  have hlast : (dotenvLine pair).getLast? = some doubleQuote := by
    have hline : dotenvLine pair = (pair.1 ++ equals :: doubleQuote :: escape pair.2) ++ [doubleQuote] := by
      simp [dotenvLine]
    rw [hline, List.getLast?_concat]
  have hreturn : some doubleQuote ≠ some carriageReturn := by decide
  rw [stripLine, hlast, if_neg hreturn]
  obtain ⟨c, rest, hkey, -⟩ := id h
  have hc := (isAlnum_ne (identifier_chars h c (by simp [hkey]))).1
  rw [dotenvLine, hkey, List.cons_append, List.dropWhile_cons_of_neg (by simp [hc])]

/-- The blank in `export ` is not in a name, nor is the `=` after the name in `export `. -/
theorem dropExport_name {key : Bytes} (h : Identifier key) (rest : Bytes) :
    dropExport (key ++ equals :: rest) = key ++ equals :: rest := by
  refine if_neg fun hprefix => ?_
  have hblank : blank ∈ kExport := by decide
  have hequals : equals ∉ kExport := by decide
  have hshort : kExport.length ≤ key.length := by
    by_contra hlong
    have htake : key ++ [equals] <+: kExport := by
      refine List.prefix_of_prefix_length_le ⟨rest, by simp⟩ hprefix ?_
      simp only [List.length_append, List.length_singleton]
      omega
    exact hequals (htake.subset (by simp))
  have hkey : kExport <+: key := List.prefix_of_prefix_length_le hprefix (List.prefix_append _ _) hshort
  exact (isAlnum_ne (identifier_chars h _ (hkey.subset hblank))).2.2.2.2 rfl

theorem dotenvBody_dotenvLine {pair : Bytes × Bytes} (h : Identifier pair.1) :
    dotenvBody (dotenvLine pair) = some (dotenvLine pair) := by
  have hassigns : Assigns (dotenvLine pair) pair.1 pair.2 := by
    refine ⟨[], doubleQuote :: (escape pair.2 ++ [doubleQuote]), ?_, h, nofun, ?_⟩
    · rw [stripLine_dotenvLine h]
      exact dropExport_name h _
    · exact @RightHandSide.double [] _ _ [] nofun (decodes_escape pair.2) ⟨[], [], rfl, nofun, Or.inl rfl⟩
  obtain ⟨raw, blanks, hbody, -⟩ := assigns_body hassigns
  rw [hbody, dotenvBody_some hbody, stripLine_dotenvLine h]
  exact congrArg some (dropExport_name h _)

theorem parseDotenvLines_dotenvLine {pairs : KeyValues} (hkeys : ∀ pair ∈ pairs, Identifier pair.1) {lineno : Nat}
    {seen : List (Bytes × Nat)} (hnodup : (pairs.map Prod.fst).Nodup)
    (hnew : ∀ key ∈ pairs.map Prod.fst, seen.lookup key = none) :
    parseDotenvLines lineno seen (pairs.map dotenvLine) = (.ok pairs, []) := by
  induction pairs generalizing lineno seen with
  | nil => rfl
  | cons pair pairs ih =>
    obtain ⟨key, value⟩ := pair
    obtain ⟨hkey, hkeys⟩ := List.forall_mem_cons.mp hkeys
    obtain ⟨hfresh, hnodup⟩ := List.nodup_cons.mp hnodup
    obtain ⟨hseen, hnew⟩ := List.forall_mem_cons.mp hnew
    have hrest : ∀ k ∈ pairs.map Prod.fst, ((key, lineno) :: seen).lookup k = none := by
      intro k hk
      rw [lookup_cons_ne (ne_of_mem_of_not_mem hk hfresh)]
      exact hnew k hk
    have hline : dotenvKey lineno (dotenvLine (key, value)) =
        .ok (key, doubleQuote :: (escape value ++ [doubleQuote])) :=
      dotenvKey_iff.mpr ⟨hkey, [], nofun, rfl⟩
    have hvalue : dotenvValue lineno key (doubleQuote :: (escape value ++ [doubleQuote])) = .ok (value, []) := by
      unfold dotenvValue
      rw [List.dropWhile_cons_of_neg (by decide)]
      dsimp only
      rw [if_pos (Or.inl rfl), scanQuoted_decodes (decodes_escape value) []]
      rfl
    rw [List.map_cons, parseDotenvLines, dotenvBody_dotenvLine hkey]
    dsimp only
    rw [hline]
    dsimp only at hseen ⊢
    rw [hseen]
    dsimp only
    rw [hvalue]
    dsimp only
    rw [ih hkeys hnodup hrest]
    rfl

/-- The parser accepts exactly the format, and reads back what is written in it. -/
theorem parseDotenv_exact :
    (∀ s pairs, (parseDotenv s).1 = .ok pairs ↔ Dotenv (s.splitOn newline) pairs ∧ (pairs.map Prod.fst).Nodup) ∧
      ∀ pairs : KeyValues, (∀ pair ∈ pairs, Identifier pair.1) → (pairs.map Prod.fst).Nodup →
        parseDotenv (writeDotenv pairs) = (.ok pairs, []) := by
  refine ⟨fun s pairs => ?_, fun pairs hkeys hnodup => ?_⟩
  · rw [dotenv_splitOn]
    constructor
    · intro h
      obtain ⟨hlines, hnodup, -⟩ := parseDotenvLines_sound h
      exact ⟨hlines, hnodup⟩
    · exact fun h => parseDotenvLines_complete h.1 h.2 fun _ _ => rfl
  · rw [parseDotenv, splitLines_writeDotenv hkeys]
    exact parseDotenvLines_dotenvLine hkeys hnodup fun _ _ => rfl

theorem parseDotenv_exact_sample :
    parseDotenv (writeDotenv [(text "A", text "x\ny"), (text "B", text "\"")]) =
      (.ok [(text "A", text "x\ny"), (text "B", text "\"")], []) := by
  refine parseDotenv_exact.2 _ (List.forall_mem_cons.mpr ⟨?_, List.forall_mem_singleton.mpr ?_⟩) (by decide)
  · exact isIdentifier_iff.mp (by decide)
  · exact isIdentifier_iff.mp (by decide)

end Secretov
