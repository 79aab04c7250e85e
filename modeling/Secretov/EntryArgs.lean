import Secretov.Bytes
import Mathlib.Data.List.Basic

/-! The command lines of get, set and delete (client.cpp): `NAME [-p NAME] [-e ENV]`. -/

namespace Secretov

inductive ScopeFlag where
  | project
  | env
deriving DecidableEq

structure ScopeArgs where
  project : Option Bytes
  env : Option Bytes
deriving DecidableEq

def ScopeArgs.put (scope : ScopeArgs) : ScopeFlag → Bytes → ScopeArgs
  | .project, value => { scope with project := some value }
  | .env, value => { scope with env := some value }

/-- What `take_scope_arg` takes an argument for. -/
def scopeFlag (arg : Bytes) : Option ScopeFlag :=
  if arg = text "-p" ∨ arg = text "--project" then some .project
  else if arg = text "-e" ∨ arg = text "--env" then some .env
  else none

def requiresValue (arg : Bytes) : Bytes := arg ++ text " requires a value"

def unexpectedArgument (arg : Bytes) : Bytes := text "unexpected argument '" ++ arg ++ text "'"

/-- With `rawKey` only -p and -e themselves are flags. -/
def entryFlag (rawKey : Bool) (arg : Bytes) : Option ScopeFlag :=
  if !rawKey || arg = text "-p" || arg = text "-e" then scopeFlag arg else none

def parseEntryLoop (rawKey : Bool) (scope : ScopeArgs) (name : Option Bytes) (optionsEnded : Bool) :
    List Bytes → Except Bytes (ScopeArgs × Option Bytes)
  | [] => .ok (scope, name)
  | arg :: rest =>
    if !optionsEnded ∧ rawKey ∧ arg = text "--" then parseEntryLoop rawKey scope name true rest
    else match if optionsEnded then none else entryFlag rawKey arg with
      | some flag => match rest with
        | [] => .error (requiresValue arg)
        | value :: rest => parseEntryLoop rawKey (scope.put flag value) name optionsEnded rest
      | none =>
        if name.isSome ∨ arg = [] ∨ !rawKey ∧ arg.head? = some 45 then .error (unexpectedArgument arg)
        else parseEntryLoop rawKey scope (some arg) optionsEnded rest

/-- A refused command line, with the text above the usage, if any. -/
def parseEntryArgs (rawKey : Bool) (argv : List Bytes) : Except (Option Bytes) (ScopeArgs × Bytes) :=
  match parseEntryLoop rawKey ⟨none, none⟩ none false argv with
  | .error what => .error (some what)
  | .ok (_, none) => .error (if rawKey then none else some (text "missing KEY"))
  | .ok (scope, some name) => .ok (scope, name)

/-- A flag of a command line, with its value. -/
structure ScopeWord where
  flag : ScopeFlag
  long : Bool
  value : Bytes

def ScopeWord.spelling (word : ScopeWord) : Bytes :=
  match word.flag, word.long with
  | .project, false => text "-p"
  | .project, true => text "--project"
  | .env, false => text "-e"
  | .env, true => text "--env"

def flagWords (words : List ScopeWord) : List Bytes :=
  words.flatMap fun word => [word.spelling, word.value]

def ScopeArgs.with (scope : ScopeArgs) (words : List ScopeWord) : ScopeArgs :=
  words.foldl (fun scope word => scope.put word.flag word.value) scope

/-- A word that can only be the name. -/
def Positional (rawKey : Bool) (name : Bytes) : Prop :=
  name ≠ [] ∧ if rawKey then name ≠ text "-p" ∧ name ≠ text "-e" ∧ name ≠ text "--" else name.head? ≠ some 45

/-- One name among scope flags. A raw key may stand alone behind `--`, or before it
where nothing follows. -/
inductive EntryLine (rawKey : Bool) (name : Bytes) : List ScopeWord → List Bytes → Prop
  | name {before after : List ScopeWord} (hname : Positional rawKey name)
      (hshort : ∀ word ∈ before ++ after, rawKey = true → word.long = false) :
      EntryLine rawKey name (before ++ after) (flagWords before ++ name :: flagWords after)
  | nameEnded {before after : List ScopeWord} (hraw : rawKey = true) (hname : Positional rawKey name)
      (hshort : ∀ word ∈ before ++ after, word.long = false) :
      EntryLine rawKey name (before ++ after) (flagWords before ++ name :: (flagWords after ++ [text "--"]))
  | endedName {before : List ScopeWord} (hraw : rawKey = true) (hname : name ≠ [])
      (hshort : ∀ word ∈ before, word.long = false) :
      EntryLine rawKey name before (flagWords before ++ [text "--", name])

section

variable {rawKey : Bool} {scope scope' : ScopeArgs} {argv : List Bytes} {n : Bytes} {name' : Option Bytes}

theorem entryFlag_spelling {word : ScopeWord} (h : rawKey = true → word.long = false) :
    entryFlag rawKey word.spelling = some word.flag := by
  obtain ⟨flag, long, value⟩ := word
  cases rawKey with
  | false => cases flag <;> cases long <;> rfl
  | true =>
    obtain rfl : long = false := h rfl
    cases flag <;> rfl

theorem spelling_ne_end (word : ScopeWord) : word.spelling ≠ text "--" := by
  obtain ⟨flag, long, value⟩ := word
  cases flag <;> cases long <;> exact of_decide_eq_false rfl

theorem exists_spelling {arg : Bytes} {flag : ScopeFlag} (h : entryFlag rawKey arg = some flag) (value : Bytes) :
    ∃ long, (rawKey = true → long = false) ∧ (ScopeWord.mk flag long value).spelling = arg := by
  unfold entryFlag scopeFlag at h
  cases rawKey with
  | false =>
    simp only [Bool.not_false, Bool.true_or, if_true] at h
    split_ifs at h with hproject henv
    · obtain rfl := Option.some.inj h
      rcases hproject with rfl | rfl
      · exact ⟨false, nofun, rfl⟩
      · exact ⟨true, nofun, rfl⟩
    · obtain rfl := Option.some.inj h
      rcases henv with rfl | rfl
      · exact ⟨false, nofun, rfl⟩
      · exact ⟨true, nofun, rfl⟩
  | true =>
    by_cases hproject : arg = text "-p"
    · subst hproject
      obtain rfl := Option.some.inj h
      exact ⟨false, fun _ => rfl, rfl⟩
    · by_cases henv : arg = text "-e"
      · subst henv
        obtain rfl := Option.some.inj h
        exact ⟨false, fun _ => rfl, rfl⟩
      · simp [hproject, henv] at h

theorem parseEntryLoop_flag {arg value : Bytes} {flag : ScopeFlag} (hend : arg ≠ text "--")
    (hflag : entryFlag rawKey arg = some flag) (name : Option Bytes) (rest : List Bytes) :
    parseEntryLoop rawKey scope name false (arg :: value :: rest) =
      parseEntryLoop rawKey (scope.put flag value) name false rest := by
  simp [parseEntryLoop, hend, hflag]

theorem parseEntryLoop_flags {words : List ScopeWord} (h : ∀ word ∈ words, rawKey = true → word.long = false)
    (name : Option Bytes) (rest : List Bytes) :
    parseEntryLoop rawKey scope name false (flagWords words ++ rest) =
      parseEntryLoop rawKey (scope.with words) name false rest := by
  induction words generalizing scope with
  | nil => rfl
  | cons word words ih =>
    obtain ⟨hword, hmore⟩ := List.forall_mem_cons.mp h
    have hwords : flagWords (word :: words) ++ rest = word.spelling :: word.value ::
        (flagWords words ++ rest) := by
      simp [flagWords]
    rw [hwords, parseEntryLoop_flag (spelling_ne_end word) (entryFlag_spelling hword), ih hmore]
    rfl

theorem entryFlag_positional (hname : Positional rawKey n) : entryFlag rawKey n = none := by
  obtain ⟨-, hname⟩ := hname
  cases rawKey with
  | true =>
    obtain ⟨hproject, henv, -⟩ := hname
    simp [entryFlag, hproject, henv]
  | false =>
    have hdash (b : Bytes) (hb : b.head? = some 45) : n ≠ b := by
      rintro rfl
      exact hname hb
    simp [entryFlag, scopeFlag, hdash (text "-p") (by decide), hdash (text "--project") (by decide),
      hdash (text "-e") (by decide), hdash (text "--env") (by decide)]

theorem parseEntryLoop_name (hname : Positional rawKey n) (rest : List Bytes) :
    parseEntryLoop rawKey scope none false (n :: rest) = parseEntryLoop rawKey scope (some n) false rest := by
  have hflag := entryFlag_positional hname
  obtain ⟨hne, hname⟩ := hname
  cases rawKey with
  | true =>
    obtain ⟨-, -, hend⟩ := hname
    simp [parseEntryLoop, hflag, hne, hend]
  | false =>
    have hdash : n.head? ≠ some 45 := hname
    simp [parseEntryLoop, hflag, hne, hdash]

/-- The first word of an accepted line ends the options, is a flag with its value, or is the name. -/
theorem parseEntryLoop_cons {name : Option Bytes} {ended : Bool} {arg : Bytes} {rest : List Bytes}
    {result : ScopeArgs × Option Bytes} (h : parseEntryLoop rawKey scope name ended (arg :: rest) = .ok result) :
    (ended = false ∧ rawKey = true ∧ arg = text "--" ∧ parseEntryLoop rawKey scope name true rest = .ok result) ∨
    (ended = false ∧ ∃ word more, (rawKey = true → word.long = false) ∧ arg :: rest = flagWords [word] ++ more ∧
      parseEntryLoop rawKey (scope.put word.flag word.value) name false more = .ok result) ∨
    (name = none ∧ arg ≠ [] ∧ (ended = false → Positional rawKey arg) ∧
      parseEntryLoop rawKey scope (some arg) ended rest = .ok result) := by
  rw [parseEntryLoop] at h
  by_cases hend : !ended ∧ rawKey ∧ arg = text "--"
  · rw [if_pos hend] at h
    exact Or.inl ⟨by simpa using hend.1, hend.2.1, hend.2.2, h⟩
  rw [if_neg hend] at h
  cases hflag : (if ended then none else entryFlag rawKey arg : Option ScopeFlag) with
  | some flag =>
    cases ended with
    | true => simp at hflag
    | false =>
      rw [hflag] at h
      cases rest with
      | nil => cases h
      | cons value rest =>
        obtain ⟨long, hlong, hspelling⟩ := exists_spelling hflag value
        exact Or.inr (Or.inl ⟨rfl, ⟨flag, long, value⟩, rest, hlong, by simp [flagWords, hspelling], h⟩)
  | none =>
    rw [hflag] at h
    dsimp only at h
    by_cases hrefused : name.isSome ∨ arg = [] ∨ !rawKey ∧ arg.head? = some 45
    · rw [if_pos hrefused] at h
      cases h
    rw [if_neg hrefused] at h
    rw [not_or, not_or, Bool.not_eq_true, Option.isSome_eq_false_iff, Option.isNone_iff_eq_none] at hrefused
    obtain ⟨hname, hne, hdash⟩ := hrefused
    refine Or.inr (Or.inr ⟨hname, hne, ?_, h⟩)
    rintro rfl
    refine ⟨hne, ?_⟩
    cases rawKey with
    | true =>
      refine ⟨?_, ?_, fun harg => hend ⟨rfl, rfl, harg⟩⟩
      · rintro rfl
        cases hflag
      · rintro rfl
        cases hflag
    | false => simpa using hdash

theorem flagWords_append (words more : List ScopeWord) :
    flagWords (words ++ more) = flagWords words ++ flagWords more :=
  List.flatMap_append

theorem parseEntryLoop_ended (h : parseEntryLoop rawKey scope (some n) true argv = .ok (scope', name')) :
    argv = [] ∧ scope' = scope ∧ name' = some n := by
  cases argv with
  | nil =>
    cases h
    exact ⟨rfl, rfl, rfl⟩
  | cons arg rest => rcases parseEntryLoop_cons h with ⟨hnot, -⟩ | ⟨hnot, -⟩ | ⟨hnot, -⟩ <;> cases hnot

/-- What is left of a command line whose name has been read. -/
theorem parseEntryLoop_named (h : parseEntryLoop rawKey scope (some n) false argv = .ok (scope', name')) :
    name' = some n ∧ ∃ words, (∀ word ∈ words, rawKey = true → word.long = false) ∧ scope' = scope.with words ∧
      (argv = flagWords words ∨ rawKey = true ∧ argv = flagWords words ++ [text "--"]) := by
  induction hlen : argv.length using Nat.strongRecOn generalizing argv scope with
  | _ len ih =>
    subst hlen
    cases argv with
    | nil =>
      cases h
      exact ⟨rfl, [], by simp, rfl, Or.inl rfl⟩
    | cons arg rest =>
      rcases parseEntryLoop_cons h with ⟨-, hraw, rfl, hrest⟩ | ⟨-, word, more, hshort, hargv, hrest⟩ | ⟨hnone, -⟩
      · obtain ⟨rfl, rfl, rfl⟩ := parseEntryLoop_ended hrest
        exact ⟨rfl, [], by simp, rfl, Or.inr ⟨hraw, rfl⟩⟩
      · have hless : more.length < (arg :: rest).length := by
          rw [hargv]
          simp only [flagWords, List.flatMap_cons, List.flatMap_nil, List.length_append, List.length_cons]
          omega
        obtain ⟨hname, words, hwords, hscope, hmore⟩ := ih _ hless hrest rfl
        refine ⟨hname, word :: words, List.forall_mem_cons.mpr ⟨hshort, hwords⟩, hscope, ?_⟩
        rw [hargv, show word :: words = [word] ++ words from rfl, flagWords_append, List.append_assoc]
        rcases hmore with rfl | ⟨hraw, rfl⟩
        · exact Or.inl rfl
        · exact Or.inr ⟨hraw, rfl⟩
      · cases hnone

theorem EntryLine.flag {words : List ScopeWord} (h : EntryLine rawKey n words argv) {word : ScopeWord}
    (hshort : rawKey = true → word.long = false) :
    EntryLine rawKey n (word :: words) (flagWords [word] ++ argv) := by
  cases h with
  | @name before after hname hwords =>
    have hline := @EntryLine.name _ _ (word :: before) _ hname (List.forall_mem_cons.mpr ⟨hshort, hwords⟩)
    simpa [flagWords] using hline
  | @nameEnded before after hraw hname hwords =>
    have hline := @EntryLine.nameEnded _ _ (word :: before) _ hraw hname
      (List.forall_mem_cons.mpr ⟨hshort hraw, hwords⟩)
    simpa [flagWords] using hline
  | endedName hraw hname hwords =>
    have hline := @EntryLine.endedName _ _ (word :: words) hraw hname
      (List.forall_mem_cons.mpr ⟨hshort hraw, hwords⟩)
    simpa [flagWords] using hline

theorem parseEntryLoop_unnamed (h : parseEntryLoop rawKey scope none false argv = .ok (scope', some n)) :
    ∃ words, EntryLine rawKey n words argv ∧ scope' = scope.with words := by
  induction hlen : argv.length using Nat.strongRecOn generalizing argv scope with
  | _ len ih =>
    subst hlen
    cases argv with
    | nil => cases h
    | cons arg rest =>
      rcases parseEntryLoop_cons h with ⟨-, hraw, rfl, hrest⟩ | ⟨-, word, more, hshort, hargv, hrest⟩ |
        ⟨-, -, hname, hrest⟩
      -- behind the end of the options there is the name, and nothing else
      · cases rest with
        | nil => cases hrest
        | cons arg rest =>
          rcases parseEntryLoop_cons hrest with ⟨hnot, -⟩ | ⟨hnot, -⟩ | ⟨-, hne, -, hlast⟩
          · cases hnot
          · cases hnot
          · obtain ⟨rfl, rfl, hname⟩ := parseEntryLoop_ended hlast
            obtain rfl := Option.some.inj hname
            exact ⟨[], @EntryLine.endedName _ _ [] hraw hne (by simp), rfl⟩
      · have hless : more.length < (arg :: rest).length := by
          rw [hargv]
          simp only [flagWords, List.flatMap_cons, List.flatMap_nil, List.length_append, List.length_cons]
          omega
        obtain ⟨words, hline, hscope⟩ := ih _ hless hrest rfl
        refine ⟨word :: words, ?_, hscope⟩
        rw [hargv]
        exact hline.flag hshort
      · obtain ⟨hsame, words, hwords, hscope, hafter⟩ := parseEntryLoop_named hrest
        obtain rfl := Option.some.inj hsame
        refine ⟨words, ?_, hscope⟩
        rcases hafter with rfl | ⟨hraw, rfl⟩
        · exact @EntryLine.name _ _ [] _ (hname rfl) hwords
        · exact @EntryLine.nameEnded _ _ [] _ hraw (hname rfl) fun word hword => hwords word hword hraw

theorem EntryLine.parse {words : List ScopeWord} (h : EntryLine rawKey n words argv) :
    parseEntryLoop rawKey scope none false argv = .ok (scope.with words, some n) := by
  have hwith (words more : List ScopeWord) : scope.with (words ++ more) = (scope.with words).with more :=
    List.foldl_append
  cases h with
  | @name before after hname hwords =>
    obtain ⟨hbefore, hafter⟩ := List.forall_mem_append.mp hwords
    have hrest := @parseEntryLoop_flags _ (scope.with before) _ hafter (some n) []
    rw [List.append_nil] at hrest
    rw [parseEntryLoop_flags hbefore, parseEntryLoop_name hname, hrest, hwith]
    rfl
  | @nameEnded before after hraw hname hwords =>
    obtain ⟨hbefore, hafter⟩ := List.forall_mem_append.mp hwords
    subst hraw
    rw [parseEntryLoop_flags fun word hword _ => hbefore word hword, parseEntryLoop_name hname,
      parseEntryLoop_flags fun word hword _ => hafter word hword, hwith]
    rfl
  | endedName hraw hname hwords =>
    subst hraw
    rw [parseEntryLoop_flags fun word hword _ => hwords word hword]
    simp [parseEntryLoop, hname]

/-- A command line is accepted exactly if it is one name among scope flags, whose last
values count. There is no place in it for a second word, such as a value. -/
theorem parseEntryArgs_ok_iff :
    parseEntryArgs rawKey argv = .ok (scope, n) ↔
      ∃ words, EntryLine rawKey n words argv ∧ scope = ScopeArgs.with ⟨none, none⟩ words := by
  constructor
  · intro h
    unfold parseEntryArgs at h
    rcases hloop : parseEntryLoop rawKey ⟨none, none⟩ none false argv with what | ⟨scope', _ | name⟩
    · rw [hloop] at h
      cases h
    · rw [hloop] at h
      cases h
    · rw [hloop] at h
      obtain ⟨rfl, rfl⟩ := Prod.mk.inj (Except.ok.inj h)
      exact parseEntryLoop_unnamed hloop
  · rintro ⟨words, hline, rfl⟩
    simp only [parseEntryArgs, hline.parse]

end

end Secretov
