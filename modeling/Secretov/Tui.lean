import Secretov.Client
import Secretov.Lib.Dialogue
import Secretov.TuiEdit

/-! The state of the TUI and its operations (tui.cpp). A tree is always a valid
one: its labels are parallel to its rows, and the selection is one of the rows. -/

namespace Secretov

/-- Of the steady clock, in nanoseconds. -/
abbrev Time := Nat

def milliseconds (n : Nat) : Time := n * 1000000

def kRevealFor : Time := milliseconds 60000

def kInfoFor : Time := milliseconds 4000

def kPasteBurst : Time := milliseconds 50

def kAfterSubmitQuiet : Time := milliseconds 100

inductive Mode where
  | normal | filter | help | add | edit | confirmDelete | confirmOverwrite
deriving DecidableEq

inductive DaemonState where
  | ok | busy | unreachable
deriving DecidableEq

structure Tree where
  rows : List Row
  labels : List Bytes
  selected : Nat
  parallel : labels.length = rows.length
  inRange : rows = [] ∨ selected < rows.length

namespace Tree

def empty : Tree := ⟨[], [], 0, rfl, Or.inl rfl⟩

/-- The selected row. There is none only where there are no rows. -/
def row? (t : Tree) : Option Row := t.rows[t.selected]?

def select (t : Tree) (i : Nat) (h : t.rows = [] ∨ i < t.rows.length) : Tree :=
  { t with selected := i, inRange := h }

theorem findIdx_lt {t : Tree} {p : Row → Bool} {i : Nat} (h : t.rows.findIdx? p = some i) :
    i < t.rows.length := by
  obtain ⟨hi, -⟩ := List.findIdx?_eq_some_iff_getElem.mp h
  exact hi

/-- The first row with the given property, selected. -/
def find (t : Tree) (p : Row → Bool) : Option Tree :=
  match h : t.rows.findIdx? p with
  | some i => some (t.select i (Or.inr (findIdx_lt h)))
  | none => none

/-- The tree of freshly built rows. The selection keeps its index if it can. -/
def build (b : Rows) (h : b.labels.length = b.rows.length) (selected : Nat) : Tree where
  rows := b.rows
  labels := b.labels
  selected := min selected (b.rows.length - 1)
  parallel := h
  inRange := by
    rw [← List.length_eq_zero_iff]
    omega

def parentIndex (t : Tree) (depth : Nat) : Option Nat :=
  (List.range t.selected).reverse.find? fun i => t.rows[i]?.any fun row => row.dir && row.depth < depth

theorem parentIndex_lt {t : Tree} {depth i : Nat} (h : t.parentIndex depth = some i) : i < t.rows.length := by
  have hrow := List.find?_some h
  by_contra hi
  rw [List.getElem?_eq_none (by omega)] at hrow
  exact absurd hrow (by simp)

end Tree

/-- What FTXUI's inputs edit. Field 0 is the name and field 1 the value. -/
structure Form where
  addName : Bytes
  addValue : Bytes
  nameCursor : Int
  valueCursor : Int
  formField : Nat
deriving DecidableEq

def Form.empty : Form := ⟨[], [], 0, 0, 0⟩

structure Tui where
  now : Time
  keys : List Bytes
  tree : Tree
  collapsed : Collapsed
  selectionId : Bytes
  revealed : Option Bytes
  revealedAt : Time
  filter : Bytes
  form : Form
  valueMasked : Bool
  showFormProblem : Bool
  pasteBuffer : Bytes
  pasting : Bool
  heldKeySince : Option Time
  heldKeyIsTab : Bool
  ignoreKeysUntil : Time
  helpScroll : Int
  status : Bytes
  statusIsError : Bool
  statusAt : Time
  daemonState : DaemonState
  mode : Mode
  activeTab : Nat
  detailScroll : Int
  keepValueInView : Bool
  exited : Bool

def Tui.initial : Tui where
  now := 0
  keys := []
  tree := .empty
  collapsed := ∅
  selectionId := []
  revealed := none
  revealedAt := 0
  filter := []
  form := .empty
  valueMasked := true
  showFormProblem := false
  pasteBuffer := []
  pasting := false
  heldKeySince := none
  heldKeyIsTab := false
  ignoreKeysUntil := 0
  helpScroll := 0
  status := []
  statusIsError := false
  statusAt := 0
  daemonState := .ok
  mode := .normal
  activeTab := 0
  detailScroll := 0
  keepValueInView := false
  exited := false

namespace Tui

def say (message : Bytes) (s : Tui) : Tui :=
  { s with status := message, statusIsError := false, statusAt := s.now }

def complain (message : Bytes) (s : Tui) : Tui :=
  { s with status := message, statusIsError := true }

def remask (s : Tui) : Tui := { s with revealed := none }

def selectedId (s : Tui) : Bytes := (s.tree.row?.map Row.id).getD []

def currentKey (s : Tui) : Option Bytes := (s.tree.row?.filter (!·.dir)).map Row.id

def selectedDir (s : Tui) : Bool := s.tree.row?.any Row.dir

def needKey (action : Bytes) (s : Tui) : Option Bytes × Tui :=
  match s.currentKey with
  | some key => (some key, s)
  | none => (none,
      s.say ((if s.tree.rows = [] then text "no secret to " else text "select a secret to ") ++ action))

def syncSelection (s : Tui) : Tui :=
  if s.selectedId = s.selectionId then s
  else { s.remask with selectionId := s.selectedId, detailScroll := 0 }

def selectRow (id : Bytes) (s : Tui) : Bool × Tui :=
  match s.tree.find (·.id = id) with
  | some tree => (true, { s with tree })
  | none => (false, s)

def expandTo (id : Bytes) (s : Tui) : Tui :=
  { s with
    collapsed := ((foldersOf id).filter (·.length < id.length)).foldl (fun c folder => c.erase folder)
      s.collapsed }

def rebuildRows (selectId : Bytes) (s : Tui) : Bool × Tui :=
  let rebuilt := { s with
    tree := .build (buildRows s.filter s.collapsed s.keys) (buildRows_labels ..) s.tree.selected }
  if selectId = [] then (false, rebuilt) else rebuilt.selectRow selectId

def fold (unfold : Option Bool) (s : Tui) : Tui :=
  match s.tree.row? with
  | none => s
  | some row =>
    if !row.dir then s
    else if s.filter ≠ [] then s.say (text "folders stay open while filtering; Esc clears the filter")
    else
      let folded := s.collapsed.contains row.id
      let wantFolded := (unfold.map (!·)).getD (!folded)
      if wantFolded = folded then s
      else
        let collapsed := if wantFolded then s.collapsed.insert row.id else s.collapsed.erase row.id
        (rebuildRows row.id { s with collapsed }).2

def goParent (s : Tui) : Tui :=
  match s.tree.row? with
  | none => s
  | some row => match h : s.tree.parentIndex row.depth with
    | some i => { s with tree := s.tree.select i (Or.inr (Tree.parentIndex_lt h)) }
    | none => s

def applyFilter (s : Tui) : Tui :=
  match s.rebuildRows s.selectedId with
  | (true, s) => s
  | (false, s) => { s with tree := (s.tree.find (!·.dir)).getD s.tree }

def clearFilter (s : Tui) : Tui :=
  if s.filter = [] then s
  else
    let s := { s with filter := [] }
    ((s.expandTo s.selectedId).rebuildRows s.selectedId).2

/-- `expire`, on the tick and before every event. -/
def expire (s : Tui) : Tui :=
  let s := match s.revealed with
    | some _ => if s.revealedAt + kRevealFor ≤ s.now then s.remask.say (text "value re-masked after 60 s") else s
    | none => s
  if !s.statusIsError ∧ s.status ≠ [] ∧ s.statusAt + kInfoFor ≤ s.now then { s with status := [] } else s

def closeForm (s : Tui) : Tui :=
  { s with
    form := .empty, valueMasked := true, showFormProblem := false, mode := .normal, activeTab := 0 }

def startAdd (s : Tui) : Tui :=
  let s := s.remask.closeForm
  let name := folderPrefix s.selectedId
  { s with
    form := { s.form with addName := name, nameCursor := asInt name.length }, mode := .add, activeTab := 1 }.say
    (text "adding secret")

def cancelForm (s : Tui) : Tui := s.closeForm.say (text "cancelled")

def formProblem (s : Tui) : Option Bytes :=
  (if s.mode = .add then keyNameError (trimKeyName s.form.addName) else none).or
    (if s.form.addValue = [] then some (text "value required") else none)

/-- `std::binary_search`: the keys are sorted. -/
def keyExists (s : Tui) (key : Bytes) : Bool := s.keys.contains key

def insertIntoValue (inserted : Bytes) (s : Tui) : Tui :=
  let edited := insertAtCursor s.form.addValue s.form.valueCursor inserted
  { s with form := { s.form with addValue := edited.1, valueCursor := edited.2 } }

def insertIntoName (inserted : Bytes) (s : Tui) : Tui :=
  let edited := insertAtCursor s.form.addName s.form.nameCursor inserted
  { s with form := { s.form with addName := edited.1, nameCursor := edited.2 } }

/-- One trailing newline of a paste into the value is dropped. -/
def withoutLastNewline (pasted : Bytes) : Bytes :=
  if pasted.getLast? = some newline then pasted.dropLast else pasted

def finishPaste (s : Tui) : Tui :=
  let done :=
    if s.mode = .filter then
      if hasControlChar s.pasteBuffer then s.complain (text "paste refused: the filter is one line")
      else applyFilter { s with filter := s.filter ++ s.pasteBuffer }
    else if s.mode ≠ .add ∧ s.mode ≠ .edit then s.say (text "paste ignored: open a form with 'a' or 'e' first")
    else if s.form.formField = 0 then
      if hasControlChar s.pasteBuffer then s.complain (text "paste refused: a name is one line")
      else s.insertIntoName s.pasteBuffer
    else
      let pasted := withoutLastNewline s.pasteBuffer
      let lineCount := pasted.count newline + 1
      (s.insertIntoValue pasted).say
        (text "pasted " ++ decimal lineCount ++ if lineCount = 1 then text " line" else text " lines")
  { done with pasteBuffer := [] }

end Tui

/-- What the TUI asks of the daemon, through its backend, and of the terminal, which
gets a value in the sequence of `osc52CopySequence`. -/
inductive Call where
  | list
  | get (key : Bytes)
  | set (key value : Bytes)
  | remove (key : Bytes)
  | writeToTerminal (value : Bytes)
deriving DecidableEq

def Call.Value : Call → Type
  | list => List Bytes
  | get _ => Bytes
  | _ => Unit

/-- What a call returns or throws, and the time it takes. For `get` that is the
value out of `get_many` of the one key, or the failure that it holds for it. -/
structure Answer (q : Call) where
  result : Except LocalError q.Value
  elapsed : Time

abbrev TuiM := StateT Tui (Dialogue Call Answer)

namespace Tui

def ask (q : Call) : TuiM (Except LocalError q.Value) := fun s =>
  .ask q fun answer => .done (answer.result, { s with now := s.now + answer.elapsed })

/-- What `call` makes of the error of a daemon call, and the daemon state it leaves. -/
def daemonStateOf : LocalError → DaemonState
  | .backend e => if e.kind ≠ .unreachable then .ok else if e.timedOut then .busy else .unreachable
  | .error _ => .ok

def reworded : LocalError → LocalError
  | .backend e =>
    if e.kind = .unreachable ∧ e.notRunning then
      .backend ⟨e.kind, text "daemon not running: start it (scripts/service start), then R", false, false,
        0, true⟩
    else .backend e
  | .error e => .error e

/-- Every daemon call goes through here. -/
def call (q : Call) : TuiM (Except LocalError q.Value) := do
  match ← ask q with
  | .ok value =>
    modify fun s => { s with daemonState := .ok }
    return .ok value
  | .error e =>
    modify fun s => { s with daemonState := daemonStateOf e }
    return .error (reworded e)

def refresh (selectId : Bytes) : TuiM Bool := do
  modify remask
  match ← call .list with
  | .error e =>
    modify (complain e.what)
    return false
  | .ok keys =>
    modify fun s => ({ s with keys := keys.mergeSort }.rebuildRows selectId).2
    return true

/-- `fail`: reports a failed call on `key`. -/
def fail (e : LocalError) (key : Bytes) : TuiM Unit :=
  match e with
  | .backend b =>
    if b.kind = .notFound ∧ key ≠ [] then do
      let _ ← refresh key
      modify (complain (text "'" ++ key ++ text "' was removed elsewhere; list reloaded"))
    else modify (complain b.what)
  | .error e => modify (complain e.what)

def reload : TuiM Unit := do
  if ← refresh (← get).selectedId then
    modify fun s => s.say (text "reloaded: " ++ decimal s.keys.length ++ text " key(s)")

def reveal : TuiM Unit := do
  match (← get).needKey (text "reveal") with
  | (none, s) => set s
  | (some key, s) =>
    set s.remask
    match ← call (.get key) with
    | .ok value => modify fun s => { s with revealed := some value, revealedAt := s.now, keepValueInView := true }
    | .error e => fail e key

def toggleReveal : TuiM Unit := do
  if (← get).revealed.isSome then modify remask else reveal

def copyValue : TuiM Unit := do
  match (← get).needKey (text "copy") with
  | (none, s) => set s
  | (some key, s) =>
    set s
    match ← call (.get key) with
    | .error e => fail e key
    | .ok value => match ← ask (.writeToTerminal value) with
      | .error e => fail e key
      | .ok _ => modify (say (text "copied (clipboard managers may keep it): " ++ key))

def startEdit : TuiM Unit := do
  match (← get).needKey (text "edit") with
  | (none, s) => set s
  | (some key, s) =>
    set s.remask.closeForm
    match ← call (.get key) with
    | .error e => fail e key
    | .ok value =>
      -- a multi-line value opens at its top
      let value : Bytes := value
      let valueCursor : Int := if newline ∈ value then 0 else asInt value.length
      modify fun s => { s with
        form := { s.form with addValue := value, valueCursor, formField := 1 }
        mode := .edit
        activeTab := 1 }.say (text "editing")

def noReplyReason (e : BackendError) : Bytes :=
  if e.timedOut then text "no reply in " ++ decimal e.timeoutSeconds ++ text " s" else text "daemon hung up"

def setFailed (key : Bytes) : LocalError → Bytes
  | .backend e =>
    if e.maybeApplied then
      noReplyReason e ++ text ": '" ++ key ++ text "' may still be saved; Enter retries, Esc cancels"
    else e.what
  | .error e => e.what

/-- The new key's folders open, and a filter that it does not match is dropped. -/
def saved (key verb : Bytes) (s : Tui) : Tui :=
  let s := (s.closeForm.say (verb ++ text " " ++ key)).expandTo key
  if containsIgnoreCase key s.filter then s else { s with filter := [] }

def saveForm (key verb : Bytes) : TuiM Bool := do
  match ← call (.set key (← get).form.addValue) with
  | .error e =>
    modify (complain (setFailed key e))
    return false
  | .ok _ =>
    modify (saved key verb)
    let _ ← refresh key
    return true

def submitForm : TuiM Unit := do
  let s ← get
  match s.formProblem with
  | some problem => set ({ s with showFormProblem := true }.complain problem)
  | none =>
    if s.mode = .edit then
      let _ ← saveForm (s.currentKey.getD []) (text "updated")
    else
      let name := trimKeyName s.form.addName
      if ← refresh s.selectedId then
        if (← get).keyExists name then
          modify fun s => { s with mode := .confirmOverwrite }.say (text "'" ++ name ++ text "' already exists")
        else
          let _ ← saveForm name (text "added")

/-- The first of `ids` that has a row, selected. -/
def selectFirst : List Bytes → Tui → Tui
  | [], s => s
  | id :: ids, s => match s.selectRow id with
    | (true, s) => s
    | (false, s) => selectFirst ids s

def removeFailed (key : Bytes) (e : LocalError) : TuiM Unit :=
  match e with
  | .backend b =>
    if b.maybeApplied then
      modify (complain (noReplyReason b ++ text ": '" ++ key ++
        text "' may still be deleted; R reloads to check"))
    else fail e key
  | .error _ => fail e key

def doDelete : TuiM Unit := do
  modify fun s => { s with mode := .normal }
  let s ← get
  let key := s.currentKey.getD []
  let landing := deleteLanding s.tree.rows s.tree.selected
  match ← call (.remove key) with
  | .error e => removeFailed key e
  | .ok _ =>
    modify (say (text "deleted " ++ key))
    if ← refresh [] then modify (selectFirst landing)

end Tui

end Secretov
