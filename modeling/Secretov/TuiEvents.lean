import Secretov.Tui

/-! The event handler of the TUI (tui.cpp) and its runs. Of FTXUI, only what it
does with the events passed on to it comes from outside. -/

namespace Secretov

inductive Button where
  | left | wheelUp | wheelDown | other
deriving DecidableEq

inductive TuiEvent where
  | custom
  | character (s : Bytes)
  | «return» | tab | escape | backspace
  | ctrlA | ctrlC | ctrlE | ctrlR | ctrlU | ctrlW | ctrlZ
  | arrowUp | arrowDown | arrowLeft | arrowRight | pageUp | pageDown
  | f1
  | pasteStart | pasteEnd
  | mouse (button : Button) (pressed : Bool)
  | other (input : Bytes)
deriving DecidableEq

namespace TuiEvent

def isMouse : TuiEvent → Bool
  | mouse _ _ => true
  | _ => false

def isMousePress : TuiEvent → Bool
  | mouse _ pressed => pressed
  | _ => false

def isCharacter : TuiEvent → Bool
  | character _ => true
  | _ => false

def key (s : String) : TuiEvent := character (text s)

end TuiEvent

/-- What FTXUI does with an event that reaches it: the row that the menu moves
to, whether that was a click on a row, and what the focused input edits. -/
structure Ftxui where
  menuTo : Nat
  onRow : Bool
  edit : Form → Form

namespace Tui

def consume (f : Tui → Tui) : TuiM Bool := do
  modify f
  return true

def consumeM (m : TuiM Unit) : TuiM Bool := do
  m
  return true

def releaseHeldKey : TuiM Unit := do
  let held ← get
  set { held with heldKeySince := none }
  if held.heldKeyIsTab then
    modify fun s => if s.mode = .add then { s with form := { s.form with formField := 0 } } else s
  else
    if held.mode = .add ∨ held.mode = .edit then submitForm
    modify fun s => { s with ignoreKeysUntil := s.now + kAfterSubmitQuiet }

def heldIsOver (s : Tui) : Bool := s.heldKeySince.any fun since => since + kPasteBurst ≤ s.now

def tick : TuiM Unit := do
  if (← get).heldIsOver then releaseHeldKey
  modify expire

/-- A held key before a later event: part of a paste, or typed. -/
def settleHeldKey (event : TuiEvent) : TuiM Unit := do
  let s ← get
  if s.heldKeySince.isSome ∧ !event.isMouse then
    if !s.heldIsOver ∧ (event.isCharacter ∨ event = .return ∨ event = .tab) then
      set ({ s with heldKeySince := none }.insertIntoValue (if s.heldKeyIsTab then [9] else [newline]))
    else releaseHeldKey

def kIgnored : Bytes := text "input right after Enter ignored"

def ignoreKey (s : Tui) : Tui :=
  let s := { s with ignoreKeysUntil := s.now + kAfterSubmitQuiet }
  if s.status = [] then s.say kIgnored
  else if containsText s.status kIgnored then s
  else { s with status := s.status ++ text " (" ++ kIgnored ++ text ")" }

def startPaste (s : Tui) : Tui := { s with pasting := true, pasteBuffer := [] }

def pasteInput (event : TuiEvent) (s : Tui) : Tui :=
  match event with
  | .pasteEnd => { s with pasting := false }.finishPaste
  | .escape => { s with pasting := false, pasteBuffer := [] }.say (text "paste aborted")
  | .character c => { s with pasteBuffer := s.pasteBuffer ++ c }
  | .return => { s with pasteBuffer := s.pasteBuffer ++ [newline] }
  | .tab => { s with pasteBuffer := s.pasteBuffer ++ [9] }
  | _ => s

def helpEvent (event : TuiEvent) (s : Tui) : Tui :=
  let down := event = .key "j" ∨ event = .key "J" ∨ event = .arrowDown ∨ event = .pageDown ∨
    event = .mouse .wheelDown event.isMousePress
  let up := event = .key "k" ∨ event = .key "K" ∨ event = .arrowUp ∨ event = .pageUp ∨
    event = .mouse .wheelUp event.isMousePress
  let step : Int := if event = .pageDown ∨ event = .pageUp then 10 else 1
  if down then { s with helpScroll := s.helpScroll + step }
  else if up then { s with helpScroll := s.helpScroll - step }
  else if !event.isMouse then { s with mode := .normal }
  else s

def filterEvent (event : TuiEvent) : TuiM Bool :=
  match event with
  | .return => consume fun s => { s with mode := .normal, ignoreKeysUntil := s.now + kAfterSubmitQuiet }
  | .escape => consume fun s => { s.clearFilter with mode := .normal }
  | .backspace => consume fun s => applyFilter { s with filter := eraseLastCodePoint s.filter }
  | .ctrlU => consume fun s => applyFilter { s with filter := [] }
  | .character c => consume fun s => applyFilter { s with filter := s.filter ++ c }
  | _ => return false

def menuMoves (ftxui : Ftxui) (s : Tui) : Tui :=
  if h : ftxui.menuTo < s.tree.rows.length then { s with tree := s.tree.select ftxui.menuTo (Or.inr h) } else s

def clickRow (ftxui : Ftxui) (s : Tui) : Tui :=
  let s := (s.menuMoves ftxui).syncSelection
  if ftxui.onRow ∧ s.selectedDir then s.fold none else s

def askDelete (s : Tui) : Tui :=
  match s.needKey (text "delete") with
  | (some _, s) => { s with mode := .confirmDelete }
  | (none, s) => s

def openOrReveal : TuiM Unit := do
  if (← get).currentKey.isSome then toggleReveal else modify (fold none)

def goTop (s : Tui) : Tui :=
  { s with tree := s.tree.select 0 (by rw [← List.length_eq_zero_iff]; omega) }

def goBottom (s : Tui) : Tui :=
  { s with tree := s.tree.select (s.tree.rows.length - 1) (by rw [← List.length_eq_zero_iff]; omega) }

def goLeft (s : Tui) : Tui :=
  let openFolder := s.selectedDir && !isFolded s.filter s.collapsed s.selectedId
  if openFolder ∧ s.filter = [] then s.fold (some false) else s.goParent

def goRight (s : Tui) : Tui :=
  match s.tree.row? with
  | none => s
  | some row =>
    if !row.dir then s
    else if isFolded s.filter s.collapsed row.id then s.fold (some true)
    else if h : s.tree.selected + 1 < s.tree.rows.length then
      if row.depth < s.tree.rows[s.tree.selected + 1].depth then
        { s with tree := s.tree.select (s.tree.selected + 1) (Or.inr h) }
      else s
    else s

def normalEvent (event : TuiEvent) (ftxui : Ftxui) : TuiM Bool :=
  if event = .mouse .left true then consume (clickRow ftxui)
  else if event = .key "q" then consume fun s => { s with exited := true }
  else if event = .key "?" ∨ event = .f1 then consume fun s => { s with mode := .help, helpScroll := 0 }
  else if event = .key "/" then consume fun s => { s with mode := .filter }
  else if event = .escape then consume clearFilter
  else if event = .key "R" then consumeM reload
  else if event = .key "a" then consume startAdd
  else if event = .key "e" then consumeM startEdit
  else if event = .key "c" then consumeM copyValue
  else if event = .key "r" then consumeM toggleReveal
  else if event = .key "d" then consume askDelete
  else if event = .return ∨ event = .key " " then consumeM openOrReveal
  else if event = .key "g" then consume goTop
  else if event = .key "G" then consume goBottom
  else if event = .arrowLeft ∨ event = .key "h" then consume goLeft
  else if event = .arrowRight ∨ event = .key "l" then consume goRight
  else if event = .key "J" then consume fun s =>
    { s with detailScroll := s.detailScroll + 1, keepValueInView := false }
  else if event = .key "K" then consume fun s =>
    { s with detailScroll := s.detailScroll - 1, keepValueInView := false }
  else return false

def holdKey (isTab : Bool) (s : Tui) : Tui := { s with heldKeySince := some s.now, heldKeyIsTab := isTab }

/-- A readline edit of the focused input. -/
def editFocused (edit : Bytes → Int → Bytes × Int) (s : Tui) : Tui :=
  if s.form.formField = 0 then
    let edited := edit s.form.addName s.form.nameCursor
    { s with form := { s.form with addName := edited.1, nameCursor := edited.2 } }
  else
    let edited := edit s.form.addValue s.form.valueCursor
    { s with form := { s.form with addValue := edited.1, valueCursor := edited.2 } }

def formEvent (event : TuiEvent) : TuiM Bool := do
  let s ← get
  match event with
  | .escape => consume cancelForm
  | .return =>
    if s.mode = .add ∧ s.form.formField = 0 then
      consume fun s => { s with form := { s.form with formField := 1 } }
    else consume (holdKey false)
  | .ctrlR => consume fun s => { s with valueMasked := !s.valueMasked }
  | .tab => if s.form.formField = 1 then consume (holdKey true) else return false
  | .ctrlU => consume (editFocused eraseToLineStart)
  | .ctrlW => consume (editFocused eraseWordBefore)
  | .ctrlA => consume (editFocused fun s cursor => (s, lineStart s cursor))
  | .ctrlE => consume (editFocused fun s cursor => (s, lineEnd s cursor))
  | _ => return false

def isYes (event : TuiEvent) : Bool := event = .key "y" ∨ event = .key "Y"

def overwriteEvent (event : TuiEvent) : TuiM Unit := do
  if isYes event then
    if !(← saveForm (trimKeyName (← get).form.addName) (text "updated")) then
      modify fun s => { s with mode := .add }
  else modify fun s => { s with mode := .add }.say (text "not saved; edit the name or Esc")

def deleteEvent (event : TuiEvent) : TuiM Unit :=
  if isYes event then doDelete
  else modify fun s => { s with mode := .normal }.say (text "cancelled")

def modeEvent (event : TuiEvent) (ftxui : Ftxui) : TuiM Bool := do
  match (← get).mode with
  | .help => consume (helpEvent event)
  | .filter => filterEvent event
  | .normal => normalEvent event ftxui
  | .add | .edit => formEvent event
  | .confirmOverwrite => if event.isMouse then return true else consumeM (overwriteEvent event)
  | .confirmDelete => if event.isMouse then return true else consumeM (deleteEvent event)

/-- An event past the held key and the quiet period. -/
def liveEvent (event : TuiEvent) (ftxui : Ftxui) : TuiM Bool := do
  modify fun s => if !event.isMouse ∨ event.isMousePress then { s with status := [] } else s
  if event = .ctrlZ then consume (say (text "Ctrl-Z suspend is off in the TUI; q quits"))
  else if event = .pasteStart then consume startPaste
  else if (← get).pasting then consume (pasteInput event)
  else modeEvent event ftxui

/-- An event other than the tick, once the selection is in step and a value out
of time is gone. -/
def awake (event : TuiEvent) (ftxui : Ftxui) : TuiM Bool := do
  settleHeldKey event
  if event = .ctrlC then consume fun s => { s with exited := true }
  else if !event.isMouse ∧ (← get).now < (← get).ignoreKeysUntil then consume ignoreKey
  else liveEvent event ftxui

/-- The handler of `app`. The result says whether it has consumed the event. -/
def onEvent (event : TuiEvent) (ftxui : Ftxui) : TuiM Bool := do
  if event = .custom then consumeM tick
  else
    modify fun s => s.syncSelection.expire
    awake event ftxui

/-- An event not consumed reaches the menu or the form, whichever tab is active. -/
def passOn (ftxui : Ftxui) (s : Tui) : Tui :=
  if s.activeTab = 0 then s.menuMoves ftxui else { s with form := ftxui.edit s.form }

def handle (event : TuiEvent) (ftxui : Ftxui) : TuiM Unit := do
  if !(← onEvent event ftxui) then modify (passOn ftxui)

/-- What the detail pane of a frame shows. -/
inductive Detail where
  | hint
  | folder (id : Bytes)
  | masked (key : Bytes)
  | value (key value : Bytes)
deriving DecidableEq

def detail (s : Tui) : Detail :=
  match s.tree.row? with
  | none => .hint
  | some row =>
    if row.dir then .folder row.id
    else match s.revealed with
      | none => .masked row.id
      | some value => .value row.id value

/-- The renderer. It also clamps the two scroll positions, to the size of the
terminal. -/
def frame (helpScroll detailScroll : Int) (s : Tui) : Tui :=
  { s.syncSelection with helpScroll, detailScroll }

end Tui

structure ProjectMarks where
  project : Bytes
  problem : Bytes

/-- `◆`, encoded as UTF-8. -/
def kMark : Bytes := [0xE2, 0x97, 0x86]

/-- `run_ui` up to its first frame. -/
def Tui.start (marks : ProjectMarks) : TuiM Unit := do
  let _ ← Tui.refresh []
  modify fun s =>
    if marks.problem ≠ [] then s.complain marks.problem
    else if marks.project ≠ [] then
      s.say (kMark ++ text " marks keys used by project '" ++ marks.project ++ text "'")
    else s

/-- An event that has been handled, with the time that had passed before it and
the calls made for it. -/
structure Moment where
  before : Tui
  elapsed : Time
  event : TuiEvent
  ftxui : Ftxui
  calls : List (Dialogue.Exchange Answer)
  after : Tui

def Moment.at (m : Moment) : Time := m.before.now + m.elapsed

/-- The state that the event finds. -/
def Moment.found (m : Moment) : Tui := { m.before with now := m.at }

/-- Runs of the TUI: what has been handled, the latest first, and the state that
this has led to. A frame may be drawn after any event. -/
inductive TuiRun (marks : ProjectMarks) : List Moment → Tui → Prop
  | start {calls : List (Dialogue.Exchange Answer)} {s : Tui} :
      (Tui.start marks .initial).Path calls ((), s) → TuiRun marks [] s
  | event {past : List Moment} {m : Moment} : TuiRun marks past m.before →
      (Tui.handle m.event m.ftxui m.found).Path m.calls ((), m.after) →
      TuiRun marks (m :: past) m.after
  | frame {past : List Moment} {s : Tui} (helpScroll detailScroll : Int) : TuiRun marks past s →
      TuiRun marks past (s.frame helpScroll detailScroll)

end Secretov
