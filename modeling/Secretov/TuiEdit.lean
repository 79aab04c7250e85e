import Secretov.EnvNames
import Mathlib.Algebra.GroupWithZero.Nat
import Mathlib.Data.List.DropRight
import Std.Data.ExtTreeSet

/-! The text helpers of the TUI (tui_edit.cpp). Cursors are byte offsets. -/

namespace Secretov

def isSpace (c : UInt8) : Bool :=
  c == 32 || (9 ≤ c && c ≤ 13)

def isWordSeparator (c : UInt8) : Bool := isSpace c || c == slash

def startsCodePoint (c : UInt8) : Bool := c &&& 0xC0 != 0x80

/-- A C1 control encoded as UTF-8 starts the text. -/
def isC1At : Bytes → Bool
  | b :: c :: _ => b == 0xC2 && 0x80 ≤ c && c ≤ 0x9F
  | _ => false

def isControl (b : UInt8) : Bool := b < 0x20 || b == 0x7F

/-- A number as an `int` keeps it, in two's complement. -/
def asInt (n : Int) : Int := n.bmod (2 ^ 32)

/-- `std::clamp` to what an `int` makes of the size. In the source it is undefined
for a size that this makes negative. -/
def clamped (s : Bytes) (cursor : Int) : Nat :=
  (if cursor < 0 then 0 else if asInt s.length < cursor then asInt s.length else cursor).toNat

def trimKeyName (name : Bytes) : Bytes := (name.dropWhile isSpace).rdropWhile isSpace

def hasControlChar : Bytes → Bool
  | [] => false
  | b :: s => isControl b || isC1At (b :: s) || hasControlChar s

/-- `s.find(needle) != npos`. -/
def containsText (s needle : Bytes) : Bool := s.tails.any (needle.isPrefixOf ·)

def keyNameError (name : Bytes) : Option Bytes :=
  if name = [] then some (text "name required")
  else if hasControlChar name then some (text "name can't contain control characters")
  else if name.head? = some slash then some (text "name can't start with '/'")
  else if name.getLast? = some slash then some (text "name can't end with '/' (add a KEY after the folder)")
  else if containsText name [slash, slash] then some (text "name can't have an empty segment ('//')")
  else none

def folderPrefix (rowId : Bytes) : Bytes := rowId.rdropWhile (· ≠ slash)

def toLower (c : UInt8) : UInt8 := if isUpper c then c + 32 else c

def containsIgnoreCase (s needle : Bytes) : Bool := containsText (s.map toLower) (needle.map toLower)

/-- `base64` stands for `sodium_bin2base64` of the original variant. -/
def osc52CopySequence (base64 : Bytes → Bytes) (value : Bytes) : Bytes :=
  27 :: text "]52;c;" ++ base64 value ++ [7]

def insertAtCursor (s : Bytes) (cursor : Int) (inserted : Bytes) : Bytes × Int :=
  (s.take (clamped s cursor) ++ inserted ++ s.drop (clamped s cursor), asInt (clamped s cursor + inserted.length))

def eraseLastCodePoint (s : Bytes) : Bytes := (s.rdropWhile (!startsCodePoint ·)).dropLast

def lineStart (s : Bytes) (cursor : Int) : Int :=
  asInt ((s.take (clamped s cursor)).rdropWhile (· ≠ newline)).length

def lineEnd (s : Bytes) (cursor : Int) : Int :=
  asInt (clamped s cursor + ((s.drop (clamped s cursor)).takeWhile (· ≠ newline)).length)

def eraseToLineStart (s : Bytes) (cursor : Int) : Bytes × Int :=
  let start := (lineStart s cursor).toNat
  (s.take start ++ s.drop (clamped s cursor), asInt start)

def eraseWordBefore (s : Bytes) (cursor : Int) : Bytes × Int :=
  let kept := ((s.take (clamped s cursor)).rdropWhile isWordSeparator).rdropWhile (!isWordSeparator ·)
  (kept ++ s.drop (clamped s cursor), asInt kept.length)

def printable : Bytes → Bytes
  | b :: c :: s =>
    if isC1At [b, c] then 63 :: printable s
    else (if isControl b then 63 else b) :: printable (c :: s)
  | [b] => [if isControl b then 63 else b]
  | [] => []

structure Row where
  id : Bytes
  dir : Bool
  depth : Nat
deriving DecidableEq

abbrev Collapsed := Std.ExtTreeSet Bytes compare

def isFolded (filter : Bytes) (collapsed : Collapsed) (folderId : Bytes) : Bool :=
  filter.isEmpty && collapsed.contains folderId

/-- `a/`, `a/b/` and so on: the folder ids that enclose `key`, outermost first. -/
def foldersOf (key : Bytes) : List Bytes := key.inits.filter (·.getLast? = some slash)

def sharedLength : List Bytes → List Bytes → Nat
  | a :: as, b :: bs => if a = b then sharedLength as bs + 1 else 0
  | _, _ => 0

/-- What `build_rows` has put out so far, and the folders open along the last key. -/
structure Rows where
  rows : List Row
  labels : List Bytes
  branch : List Bytes

def Rows.push (b : Rows) (row : Row) (label : Bytes) : Rows :=
  { b with rows := b.rows ++ [row], labels := b.labels ++ [printable label] }

section

variable (filter : Bytes) (collapsed : Collapsed)

/-- The folders of a key that are not open yet. The result says whether one of
them hides what comes below it. -/
def addFolders : List Bytes → Nat → Nat → Bool → Rows → Rows × Bool
  | [], _, _, hidden, b => (b, hidden)
  | folder :: more, depth, nameStart, hidden, b =>
    let b := { b with branch := b.branch ++ [folder] }
    let b := if hidden then b else b.push ⟨folder, true, depth⟩ (folder.drop nameStart)
    addFolders more (depth + 1) folder.length (hidden || isFolded filter collapsed folder) b

def addKey (b : Rows) (key : Bytes) : Rows :=
  if !containsIgnoreCase key filter then b
  else
    let folders := foldersOf key
    let shared := sharedLength folders b.branch
    let branch := b.branch.take shared
    let added := addFolders filter collapsed (folders.drop shared) shared ((branch.getLast?.getD []).length)
      (branch.any (isFolded filter collapsed ·)) { b with branch }
    if added.2 then added.1
    else added.1.push ⟨key, false, folders.length⟩ (key.drop (folders.getLast?.getD []).length)

def buildRows (keys : List Bytes) : Rows :=
  keys.foldl (addKey filter collapsed) ⟨[], [], []⟩

theorem addFolders_labels (folders : List Bytes) (depth nameStart : Nat) (hidden : Bool) (b : Rows)
    (h : b.labels.length = b.rows.length) :
    (addFolders filter collapsed folders depth nameStart hidden b).1.labels.length =
      (addFolders filter collapsed folders depth nameStart hidden b).1.rows.length := by
  induction folders generalizing depth nameStart hidden b with
  | nil => exact h
  | cons folder more ih =>
    apply ih
    cases hidden with
    | true => exact h
    | false => simp [Rows.push, h]

theorem addKey_labels (b : Rows) (key : Bytes) (h : b.labels.length = b.rows.length) :
    (addKey filter collapsed b key).labels.length = (addKey filter collapsed b key).rows.length := by
  unfold addKey
  have hadded := addFolders_labels filter collapsed
    ((foldersOf key).drop (sharedLength (foldersOf key) b.branch)) (sharedLength (foldersOf key) b.branch)
    (((b.branch.take (sharedLength (foldersOf key) b.branch)).getLast?.getD []).length)
    ((b.branch.take (sharedLength (foldersOf key) b.branch)).any (isFolded filter collapsed ·))
    { b with branch := b.branch.take (sharedLength (foldersOf key) b.branch) } h
  split
  · exact h
  · dsimp only
    split
    · exact hadded
    · simp [Rows.push, hadded]

theorem buildRows_labels (keys : List Bytes) :
    (buildRows filter collapsed keys).labels.length = (buildRows filter collapsed keys).rows.length := by
  have hfold : ∀ b : Rows, b.labels.length = b.rows.length →
      (keys.foldl (addKey filter collapsed) b).labels.length =
        (keys.foldl (addKey filter collapsed) b).rows.length := by
    induction keys with
    | nil => exact fun b h => h
    | cons key keys ih => exact fun b h => ih _ (addKey_labels filter collapsed b key h)
  exact hfold _ rfl

end

/-- `delete_landing`. The folders that enclose the deleted row come innermost first. -/
def deleteLanding (rows : List Row) (selected : Nat) : List Bytes :=
  match rows[selected]? with
  | none => []
  | some deleted =>
    let sibling (side : List Row) : Option Row :=
      (side.takeWhile (deleted.depth ≤ ·.depth)).find? (·.depth = deleted.depth)
    let above := (rows.take selected).reverse
    (sibling (rows.drop (selected + 1))).toList.map Row.id ++ (sibling above).toList.map Row.id ++
      (foldersOf deleted.id).reverse ++
      (above.find? fun row => !row.id.isPrefixOf deleted.id).toList.map Row.id

end Secretov
