import Secretov.Lines
import Secretov.Manifest

/-! Entries added to the text of a manifest (manifest.cpp): blocks are found and
extended line by line, and the result must parse. -/

namespace Secretov

def indentOf (line : Bytes) : Nat := (line.takeWhile (· == blank)).length

def isContent (line : Bytes) : Bool := !blankOrComment line

/-- The lines from `first` on, up to `last` (exclusive). -/
def linesIn (lines : List Bytes) (first last : Nat) : List Bytes := (lines.take last).drop first

def blockEndFrom (indent : Nat) : Nat → List Bytes → Nat
  | i, [] => i
  | i, line :: lines => if isContent line ∧ indentOf line ≤ indent then i else blockEndFrom indent (i + 1) lines

/-- Exclusive end of the block whose key sits at `keyLine`. -/
def blockEnd (lines : List Bytes) (keyLine indent : Nat) : Nat :=
  blockEndFrom indent (keyLine + 1) (lines.drop (keyLine + 1))

/-- The -1 of the source is `none`. -/
def childIndent (lines : List Bytes) (first last : Nat) : Option Nat :=
  ((linesIn lines first last).find? isContent).map indentOf

def inlineValue (key : Bytes) : Thrown :=
  .runtimeError (text "manifest key '" ++ key ++ text "' has an inline value; cannot insert entries textually")

def findChildFrom (indent : Nat) (key : Bytes) : Nat → List Bytes → Except Thrown (Option Nat)
  | _, [] => .ok none
  | i, line :: lines =>
    if blankOrComment line ∨ indentOf line ≠ indent then findChildFrom indent key (i + 1) lines
    else
      let body := line.drop indent
      if !(key ++ [colon]).isPrefixOf body then findChildFrom indent key (i + 1) lines
      else if !blankOrComment (body.drop (key.length + 1)) then .error (inlineValue key)
      else .ok (some i)

/-- The line of `key:` at exactly `indent`. The npos of the source is `none`. -/
def findChild (lines : List Bytes) (first last indent : Nat) (key : Bytes) : Except Thrown (Option Nat) :=
  findChildFrom indent key first (linesIn lines first last)

def isComment (line : Bytes) : Bool := line.contains hash && blankOrComment line

def insertPointFrom (minIndent : Nat) : Nat → Nat → List Bytes → Nat
  | _, point, [] => point
  | i, point, line :: lines =>
    insertPointFrom minIndent (i + 1)
      (if isContent line ∨ (isComment line ∧ minIndent ≤ indentOf line) then i + 1 else point) lines

/-- After the last content line. A comment of this block's indentation is content. -/
def insertPoint (lines : List Bytes) (first last minIndent : Nat) : Nat :=
  insertPointFrom minIndent first first (linesIn lines first last)

def spaces (n : Nat) : Bytes := List.replicate n blank

def insertLines (lines : List Bytes) (point : Nat) (added : List Bytes) : List Bytes :=
  lines.take point ++ added ++ lines.drop point

structure Block where
  keyLine : Nat
  last : Nat
  entryIndent : Nat
deriving DecidableEq

def blockAt (lines : List Bytes) (keyLine indent step : Nat) : Block :=
  let last := blockEnd lines keyLine indent
  ⟨keyLine, last, (childIndent lines (keyLine + 1) last).getD (indent + step)⟩

/-- The block of `key:` within the lines, put in where it is missing. -/
def ensureBlock (lines : List Bytes) (first last indent step : Nat) (key : Bytes) :
    Except Thrown (List Bytes × Block) := do
  match ← findChild lines first last indent key with
  | some keyLine => return (lines, blockAt lines keyLine indent step)
  | none =>
    let keyLine := insertPoint lines first last indent
    let lines := insertLines lines keyLine [spaces indent ++ key ++ [colon]]
    return (lines, blockAt lines keyLine indent step)

def indentStep (lines : List Bytes) : Nat :=
  ((lines.find? fun line => isContent line && decide (0 < indentOf line)).map indentOf).getD 2

def valueIndent (lines : List Bytes) (secrets : Block) (step : Nat) : Nat :=
  (((linesIn lines (secrets.keyLine + 1) secrets.last).find?
    fun line => isContent line && decide (secrets.entryIndent < indentOf line)).map indentOf).getD
      (secrets.entryIndent + step)

/-- The two lines of an entry. -/
def entryLines (nameIndent valueIndent : Nat) (name var : Bytes) : List Bytes :=
  [spaces nameIndent ++ name ++ [colon], spaces valueIndent ++ text "env_var_name: " ++ var]

def addedLines (lines : List Bytes) (secrets : Block) (valueIndent : Nat) (nameToVar : KeyValues) :
    Except Thrown (List Bytes) :=
  nameToVar.foldlM (fun added pair => do
    match ← findChild lines (secrets.keyLine + 1) secrets.last secrets.entryIndent pair.1 with
    | some _ => return added
    | none => return added ++ entryLines secrets.entryIndent valueIndent pair.1 pair.2) []

def joinLines (lines : List Bytes) : Bytes := (lines.map (· ++ [newline])).flatten

def freshLines (project : Bytes) : List Bytes :=
  [text "version: \"1\"", text "name: " ++ project, text "env:"]

/-- The edit of `manifest_with_entries`, before it is proved. -/
def editManifest (contents project env : Bytes) (nameToVar : KeyValues) : Except Thrown Bytes := do
  requireSegment env (text "environment")
  nameToVar.forM fun pair => do
    Prog.throwIf (!isIdentifier pair.2)
      (.runtimeError (text "invalid environment variable name '" ++ pair.2 ++ text "'"))
    requireSegment pair.1 (text "secret name")
  let lines := splitLines contents
  let step := indentStep lines
  let lines := if lines = [] then freshLines project else lines
  let (lines, envRoot) ← ensureBlock lines 0 lines.length 0 step (text "env")
  let (lines, envBlock) ← ensureBlock lines (envRoot.keyLine + 1) envRoot.last envRoot.entryIndent step env
  let (lines, secrets) ← ensureBlock lines (envBlock.keyLine + 1) envBlock.last envBlock.entryIndent step
    (text "secrets")
  let added ← addedLines lines secrets (valueIndent lines secrets step) nameToVar
  let point := insertPoint lines (secrets.keyLine + 1) secrets.last secrets.entryIndent
  return joinLines (insertLines lines point added)

def checkEntry (entries : List SecretEntry) (project env : Bytes) (pair : Bytes × Bytes) : Except Thrown Unit :=
  match entries.find? (·.name = pair.1) with
  | none => .error (.runtimeError (text "manifest edit failed: entry '" ++ pair.1 ++
      text "' not present after insertion; add it by hand"))
  | some entry => do
    Prog.throwIf (entry.envVar ≠ pair.2 ∨ entry.path ≠ (← scopedKey env project pair.1))
      (.runtimeError (text "manifest entry '" ++ pair.1 ++ text "' in env '" ++ env ++
        text "' already exists with a different key or env_var_name; fix it by hand"))

def manifestWithEntries (yaml : YamlCpp) (contents project env : Bytes) (nameToVar : KeyValues) :
    Except Thrown Bytes := do
  let out ← editManifest contents project env nameToVar
  let check ← parseManifest yaml out (text "<edited manifest>")
  Prog.throwIf (check.project ≠ project)
    (.runtimeError (text "manifest names project '" ++ check.project ++ text "', expected '" ++ project ++
    text "'"))
  match check.envs[env]? with
  | none => throw (.runtimeError (text "manifest edit failed: env '" ++ env ++ text "' not present"))
  | some entries =>
    nameToVar.forM (checkEntry entries project env)
    return out

end Secretov
