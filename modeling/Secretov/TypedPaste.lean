import Secretov.FormEdits
import Secretov.FormFocus

/-! Pastes that the terminal sends as keys (tui.cpp). In the value field a Return or Tab is held
back, and becomes text with the key that comes right behind it. -/

namespace Secretov

/-- A text put in where the cursor is. -/
def putAt (s : Bytes) (cursor : Int) (inserted : Bytes) : Bytes :=
  s.take (cursorAt s cursor) ++ inserted ++ s.drop (cursorAt s cursor)

/-- The form after its value got this text at the cursor, which moved past it. -/
def Form.typed (inserted : Bytes) (form : Form) : Form :=
  { form with
    addValue := putAt form.addValue form.valueCursor inserted
    valueCursor := cursorAt form.addValue form.valueCursor + inserted.length }

/-- What FTXUI does with a character: the input with the focus gets it, at its cursor. -/
def Moment.Types (m : Moment) : Prop :=
  ∀ c, m.event = .character c → ∀ form, form.formField = 1 → m.ftxui.edit form = form.typed c

/-- The latest key, if it is held back. The latest moment comes first. -/
def heldKey : List Moment → Option Moment
  | [] => none
  | m :: earlier => if m.event = .custom then heldKey earlier else if m.event.isCharacter then none else some m

/-- The text of the keys, less the one that is held back. -/
def insertedText : List Moment → Bytes
  | [] => []
  | m :: earlier =>
    if m.event = .custom then insertedText earlier
    else if m.event.isCharacter then pastedText (m :: earlier)
    else pastedText earlier

/-- Each key follows the key before it too soon to be typed. -/
def InBurst (moments : List Moment) : Prop :=
  (moments.filter (·.event ≠ .custom)).IsChain fun later earlier => later.at < earlier.at + kPasteBurst

theorem pastedText_split (moments : List Moment) :
    pastedText moments = insertedText moments ++ ((heldKey moments).map (·.event.pasted)).getD [] := by
  induction moments with
  | nil => rfl
  | cons m earlier ih =>
    have hcons : pastedText (m :: earlier) = pastedText earlier ++ m.event.pasted := rfl
    rw [insertedText, heldKey]
    split
    · rename_i hcustom
      rw [hcons, ih, hcustom]
      exact List.append_nil _
    · split
      · exact (List.append_nil _).symm
      · exact hcons

theorem heldKey_spec {moments : List Moment} {k : Moment} (h : heldKey moments = some k) :
    k.event ≠ .custom ∧ k.event.isCharacter = false ∧ ∃ more, moments.filter (·.event ≠ .custom) = k :: more := by
  induction moments with
  | nil => cases h
  | cons m earlier ih =>
    rw [heldKey] at h
    split at h
    · rename_i hcustom
      obtain ⟨hkey, hheld, more, hmore⟩ := ih h
      refine ⟨hkey, hheld, more, ?_⟩
      rw [List.filter_cons_of_neg (by simp [hcustom])]
      exact hmore
    · rename_i hcustom
      split at h
      · cases h
      · rename_i hcharacter
        obtain rfl := Option.some.inj h
        exact ⟨hcustom, Bool.eq_false_iff.mpr hcharacter, _, List.filter_cons_of_pos (by simp [hcustom])⟩

theorem InBurst.tail {m : Moment} {earlier : List Moment} (h : InBurst (m :: earlier)) : InBurst earlier := by
  unfold InBurst at h ⊢
  by_cases hcustom : m.event = .custom
  · rwa [List.filter_cons_of_neg (by simp [hcustom])] at h
  · rw [List.filter_cons_of_pos (by simp [hcustom])] at h
    exact h.of_cons

theorem InBurst.close {m k : Moment} {earlier : List Moment} (h : InBurst (m :: earlier))
    (hcustom : m.event ≠ .custom) (hk : heldKey earlier = some k) : m.at < k.at + kPasteBurst := by
  obtain ⟨-, -, more, hmore⟩ := heldKey_spec hk
  rw [InBurst, List.filter_cons_of_pos (by simp [hcustom]), hmore] at h
  exact (List.isChain_cons_cons.mp h).1

/-! Insertions at the cursor, one after another, are one insertion. -/

theorem length_putAt (s : Bytes) (cursor : Int) (inserted : Bytes) :
    (putAt s cursor inserted).length = s.length + inserted.length := by
  have hle := cursorAt_le s cursor
  rw [putAt, List.length_append, List.length_append, List.length_take, List.length_drop]
  omega

theorem cursorAt_putAt (s : Bytes) (cursor : Int) (inserted : Bytes) :
    cursorAt (putAt s cursor inserted) (cursorAt s cursor + inserted.length) =
      cursorAt s cursor + inserted.length := by
  have hle := cursorAt_le s cursor
  have hlength := length_putAt s cursor inserted
  rw [cursorAt_of_inside (by omega) (by omega)]
  omega

theorem putAt_putAt (s : Bytes) (cursor : Int) (first more : Bytes) {cursor' : Int}
    (h : cursorAt (putAt s cursor first) cursor' = cursorAt s cursor + first.length) :
    putAt (putAt s cursor first) cursor' more = putAt s cursor (first ++ more) := by
  have hle := cursorAt_le s cursor
  have hlength : (s.take (cursorAt s cursor) ++ first).length = cursorAt s cursor + first.length := by
    rw [List.length_append, List.length_take_of_le hle]
  rw [putAt, h, putAt, ← hlength, List.take_left, List.drop_left, putAt, List.append_assoc, List.append_assoc,
    List.append_assoc, List.append_assoc]

namespace Tui

variable {s t s' : Tui} {event : TuiEvent} {ftxui : Ftxui} {calls : List (Dialogue.Exchange Answer)}

/-- Keeps what the next key depends on. -/
structure Calm (s s' : Tui) : Prop extends Idle s s' where
  activeTab : s'.activeTab = s.activeTab
  heldKeyIsTab : s'.heldKeyIsTab = s.heldKeyIsTab

namespace Calm

theorem refl (s : Tui) : Calm s s := ⟨.refl s, rfl, rfl⟩

theorem trans (h : Calm s t) (h' : Calm t s') : Calm s s' :=
  ⟨h.toIdle.trans h'.toIdle, h'.activeTab.trans h.activeTab, h'.heldKeyIsTab.trans h.heldKeyIsTab⟩

end Calm

theorem syncSelection_calm (s : Tui) : Calm s s.syncSelection := by
  refine ⟨syncSelection_idle s, (syncSelection_still s).activeTab, ?_⟩
  unfold syncSelection
  split <;> rfl

theorem expire_calm (s : Tui) : Calm s s.expire := by
  refine ⟨expire_idle s, (expire_still s).activeTab, ?_⟩
  unfold expire
  dsimp only
  split
  · split <;> split <;> rfl
  · split <;> rfl

theorem frame_calm (helpScroll detailScroll : Int) (s : Tui) : Calm s (s.frame helpScroll detailScroll) :=
  ⟨frame_idle helpScroll detailScroll s, (frame_still helpScroll detailScroll s).activeTab,
    (syncSelection_calm s).heldKeyIsTab⟩

theorem run_calm {marks : ProjectMarks} {m : Moment} {earlier : List Moment} (h : TuiRun marks (m :: earlier) s) :
    Calm m.after s := by
  generalize hpast : m :: earlier = past at h
  induction h with
  | start hstart => cases hpast
  | event hrun hpath ih =>
    obtain ⟨rfl, rfl⟩ := List.cons.inj hpast
    exact .refl _
  | frame helpScroll detailScroll hrun ih => exact (ih hpast).trans (frame_calm ..)

theorem insertIntoValue_form {inserted : Bytes} (hsize : s.form.addValue.length < 2 ^ 31)
    (hin : cursorAt s.form.addValue s.form.valueCursor + inserted.length < 2 ^ 31) :
    (s.insertIntoValue inserted).form = s.form.typed inserted := by
  rw [insertIntoValue, insertAtCursor_eq hsize _ hin, Form.typed, putAt, Int.natCast_add]

/-- If a key is held back, the size of the value and the offset behind that key fit an `int`. -/
def HeldFits (s : Tui) : Prop :=
  s.heldKeySince ≠ none →
    s.form.addValue.length < 2 ^ 31 ∧ cursorAt s.form.addValue s.form.valueCursor + 1 < 2 ^ 31

/-- A key held back becomes text. -/
def flushHeld (s : Tui) : Tui :=
  match s.heldKeySince with
  | none => s
  | some _ => { s with heldKeySince := none }.insertIntoValue (if s.heldKeyIsTab then [9] else [newline])

theorem flushHeld_form {since : Time} (hfits : s.HeldFits) (hsince : s.heldKeySince = some since) :
    s.flushHeld.form = s.form.typed (if s.heldKeyIsTab then [9] else [newline]) := by
  obtain ⟨hsize, hin⟩ := hfits (by rw [hsince]; exact Option.some_ne_none _)
  rw [flushHeld, hsince]
  refine insertIntoValue_form hsize ?_
  have hone : (if s.heldKeyIsTab then [9] else [newline]).length = 1 := by split <;> rfl
  rw [hone]
  exact hin

def typeKey (event : TuiEvent) (s : Tui) : Tui :=
  match event with
  | .character c => { s with form := s.form.typed c }
  | .return => s.holdKey false
  | .tab => s.holdKey true
  | _ => s

theorem typeKey_held (hevent : event.isPasteInput = true) (hcustom : event ≠ .custom)
    (hcharacter : event.isCharacter = false) (s : Tui) :
    typeKey event s = { s with heldKeySince := some s.now, heldKeyIsTab := decide (event = .tab) } := by
  obtain ⟨c, rfl⟩ | rfl | rfl := TuiEvent.isPasteInput_cases hevent hcustom
  · cases hcharacter
  · rfl
  · rfl

theorem path_settle_flush (hevent : event.isPasteInput = true) (hcustom : event ≠ .custom)
    (hheld : s.heldIsOver = false) {u : Unit} (h : (settleHeldKey event s).Path calls (u, s')) :
    calls = [] ∧ s' = s.flushHeld := by
  obtain ⟨-, hmouse, -⟩ := TuiEvent.isPasteInput_plain hevent hcustom
  have hkind : event.isCharacter = true ∨ event = .return ∨ event = .tab := by
    obtain ⟨c, rfl⟩ | hreturn := TuiEvent.isPasteInput_cases hevent hcustom
    · exact Or.inl rfl
    · exact Or.inr hreturn
  have h := path_get_bind h
  unfold flushHeld
  cases hsince : s.heldKeySince with
  | none =>
    rw [if_neg (by simp [hsince])] at h
    obtain ⟨rfl, -, rfl⟩ := StateT.path_pure.mp h
    exact ⟨rfl, rfl⟩
  | some since =>
    rw [if_pos (by simp [hsince, hmouse]), if_pos ⟨by simp [hheld], hkind⟩] at h
    exact path_set h

theorem path_formEvent_typed {consumed : Bool} (hevent : event.isPasteInput = true) (hcustom : event ≠ .custom)
    (hfield : s.form.formField = 1) (h : (formEvent event s).Path calls (consumed, s')) :
    calls = [] ∧ (consumed = true ∧ event.isCharacter = false ∧ s' = typeKey event s ∨
      consumed = false ∧ event.isCharacter = true ∧ s' = s) := by
  have h := path_get_bind h
  obtain ⟨c, rfl⟩ | rfl | rfl := TuiEvent.isPasteInput_cases hevent hcustom
  · obtain ⟨rfl, rfl, rfl⟩ := StateT.path_pure.mp h
    exact ⟨rfl, Or.inr ⟨rfl, rfl, rfl⟩⟩
  · dsimp only at h
    rw [if_neg (by simp [hfield])] at h
    obtain ⟨rfl, rfl, rfl⟩ := path_consume h
    exact ⟨rfl, Or.inl ⟨rfl, rfl, rfl⟩⟩
  · dsimp only at h
    rw [if_pos hfield] at h
    obtain ⟨rfl, rfl, rfl⟩ := path_consume h
    exact ⟨rfl, Or.inl ⟨rfl, rfl, rfl⟩⟩

theorem flushHeld_keeps (s : Tui) : s.flushHeld.mode = s.mode ∧ s.flushHeld.activeTab = s.activeTab ∧
    s.flushHeld.form.formField = s.form.formField ∧ s.flushHeld.pasting = s.pasting ∧ s.flushHeld.now = s.now ∧
      s.flushHeld.ignoreKeysUntil = s.ignoreKeysUntil ∧ s.flushHeld.heldKeySince = none := by
  unfold flushHeld
  cases hsince : s.heldKeySince with
  | none => exact ⟨rfl, rfl, rfl, rfl, rfl, rfl, hsince⟩
  | some since => exact ⟨rfl, rfl, rfl, rfl, rfl, rfl, rfl⟩

/-- A form that shows its value field, with the focus on it. -/
structure Focused (s : Tui) : Prop where
  mode : s.mode = .add ∨ s.mode = .edit
  activeTab : s.activeTab = 1
  formField : s.form.formField = 1

theorem Focused.modeEvent (hs : Focused s) {consumed : Bool}
    (h : (Tui.modeEvent event ftxui s).Path calls (consumed, s')) :
    (formEvent event s).Path calls (consumed, s') := by
  have h := path_get_bind h
  rcases hs.mode with hadd | hedit
  · rw [hadd] at h
    exact h
  · rw [hedit] at h
    exact h

theorem Focused.passOn (hs : Focused s) (ftxui : Ftxui) : s.passOn ftxui = { s with form := ftxui.edit s.form } :=
  if_neg (by rw [hs.activeTab]; decide)

theorem path_live_typed (hfocus : Focused s) (hpasting : s.pasting = false) (hevent : event.isPasteInput = true)
    (hcustom : event ≠ .custom)
    (htypes : ∀ c, event = .character c → ∀ form, form.formField = 1 → ftxui.edit form = form.typed c)
    {first rest : List (Dialogue.Exchange Answer)} {consumed : Bool}
    (h : (liveEvent event ftxui s).Path first (consumed, t))
    (hrest : ((if !consumed then modify (passOn ftxui) else pure PUnit.unit : TuiM PUnit) t).Path rest ((), s')) :
    first = [] ∧ rest = [] ∧ s' = typeKey event { s with status := [] } := by
  obtain ⟨-, hmouse, hz, hstart⟩ := TuiEvent.isPasteInput_plain hevent hcustom
  have h := path_modify_bind h
  rw [if_pos (Or.inl (by simp [hmouse])), if_neg hz, if_neg hstart] at h
  have hfocus : Focused { s with status := [] } := ⟨hfocus.mode, hfocus.activeTab, hfocus.formField⟩
  have hpasting : ({ s with status := [] } : Tui).pasting = false := hpasting
  revert hfocus hpasting h
  generalize ({ s with status := [] } : Tui) = v
  intro h hfocus hpasting
  have h := path_get_bind h
  rw [hpasting, if_neg Bool.false_ne_true] at h
  obtain ⟨rfl, ⟨rfl, -, rfl⟩ | ⟨rfl, hcharacter, rfl⟩⟩ :=
    path_formEvent_typed hevent hcustom hfocus.formField (hfocus.modeEvent h)
  · obtain ⟨rfl, -, rfl⟩ := StateT.path_pure.mp hrest
    exact ⟨rfl, rfl, rfl⟩
  · obtain ⟨rfl, rfl⟩ := path_modify hrest
    cases event with
    | character c =>
      rw [hfocus.passOn, htypes c rfl _ hfocus.formField]
      exact ⟨rfl, rfl, rfl⟩
    | _ => cases hcharacter

theorem path_handle_typed (hfocus : Focused s) (hpasting : s.pasting = false) (hquiet : s.ignoreKeysUntil ≤ s.now)
    (hheld : s.heldIsOver = false) (hevent : event.isPasteInput = true) (hcustom : event ≠ .custom)
    (htypes : ∀ c, event = .character c → ∀ form, form.formField = 1 → ftxui.edit form = form.typed c)
    (h : (handle event ftxui s).Path calls ((), s')) :
    calls = [] ∧ ∃ t, Calm s t ∧ s' = typeKey event { t.flushHeld with status := [] } := by
  obtain ⟨hctrl, -⟩ := TuiEvent.isPasteInput_plain hevent hcustom
  obtain ⟨first, consumed, u, rest, rfl, hhandled, hrest⟩ := StateT.path_bind.mp h
  unfold onEvent at hhandled
  rw [if_neg hcustom] at hhandled
  have hcalm := (syncSelection_calm s).trans (expire_calm _)
  have hawake := path_modify_bind hhandled
  revert hcalm hawake
  generalize s.syncSelection.expire = t
  intro hcalm hawake
  have hover : t.heldIsOver = false := by
    rw [heldIsOver, hcalm.held, hcalm.now]
    exact hheld
  obtain ⟨hmode, htab, hfield, hpaste, hnow, hlate, -⟩ := flushHeld_keeps t
  obtain ⟨settled, v, w, last, rfl, hsettle, hlast⟩ := StateT.path_bind.mp hawake
  obtain ⟨rfl, rfl⟩ := path_settle_flush hevent hcustom hover hsettle
  rw [if_neg hctrl] at hlast
  have htime := path_get_bind hlast
  have hlast := path_get_bind htime
  rw [hnow, hlate, hcalm.now, hcalm.quiet,
    if_neg (by rw [not_and]; exact fun _ => Nat.not_lt.mpr hquiet)] at hlast
  have hfocused : Focused t.flushHeld := by
    refine ⟨?_, ?_, ?_⟩
    · rw [hmode, hcalm.mode]
      exact hfocus.mode
    · rw [htab, hcalm.activeTab]
      exact hfocus.activeTab
    · rw [hfield, hcalm.form]
      exact hfocus.formField
  obtain ⟨rfl, rfl, rfl⟩ :=
    path_live_typed hfocused (hpaste.trans (hcalm.pasting.trans hpasting)) hevent hcustom htypes hlast hrest
  exact ⟨rfl, t, hcalm, rfl⟩

theorem path_handle_tick_early (hheld : s.heldIsOver = false) (h : (handle .custom ftxui s).Path calls ((), s')) :
    calls = [] ∧ s' = s.expire := by
  obtain ⟨first, consumed, t, rest, rfl, hevent, hrest⟩ := StateT.path_bind.mp h
  unfold onEvent at hevent
  rw [if_pos rfl] at hevent
  obtain ⟨rfl, htick⟩ := path_consumeM hevent
  obtain ⟨rfl, -, rfl⟩ := StateT.path_pure.mp hrest
  have htick := path_get_bind htick
  rw [hheld, if_neg Bool.false_ne_true] at htick
  obtain ⟨rfl, rfl⟩ := path_modify htick
  exact ⟨rfl, rfl⟩

/-- The value of the form is that of `s₀` with this text at the cursor, which is after it. -/
def Holds (s₀ : Tui) (inserted : Bytes) (form : Form) : Prop :=
  form.addValue = putAt s₀.form.addValue s₀.form.valueCursor inserted ∧
    cursorAt form.addValue form.valueCursor =
      cursorAt s₀.form.addValue s₀.form.valueCursor + inserted.length

theorem Holds.start (s₀ : Tui) : Holds s₀ [] s₀.form := by
  refine ⟨?_, rfl⟩
  rw [putAt, List.append_nil, List.take_append_drop]

theorem Holds.typed {s₀ : Tui} {inserted : Bytes} {form : Form} (h : Holds s₀ inserted form) (more : Bytes) :
    Holds s₀ (inserted ++ more) (form.typed more) := by
  obtain ⟨hvalue, hcursor⟩ := h
  have hlength := cursorAt_putAt form.addValue form.valueCursor more
  refine ⟨?_, ?_⟩
  · rw [hvalue] at hcursor
    rw [Form.typed, hvalue]
    exact putAt_putAt _ _ _ _ hcursor
  · rw [hcursor] at hlength
    rw [Form.typed, hcursor, List.length_append, ← Nat.add_assoc]
    exact hlength

/-- The keys since `s₀` have become text, but for one held back. -/
structure Typing (s₀ : Tui) (typed : List Moment) (s : Tui) : Prop where
  mode : s.mode = s₀.mode
  activeTab : s.activeTab = s₀.activeTab
  formField : s.form.formField = s₀.form.formField
  pasting : s.pasting = s₀.pasting
  quiet : s.ignoreKeysUntil = s₀.ignoreKeysUntil
  holds : Holds s₀ (insertedText typed) s.form
  held : s.heldKeySince = (heldKey typed).map Moment.at
  heldIsTab : ∀ k, heldKey typed = some k → s.heldKeyIsTab = decide (k.event = .tab)

namespace Typing

variable {s₀ : Tui} {earlier : List Moment} {m : Moment}

theorem calm (h : Typing s₀ earlier s) (hcalm : Calm s s') : Typing s₀ earlier s' where
  mode := hcalm.mode.trans h.mode
  activeTab := hcalm.activeTab.trans h.activeTab
  formField := by
    rw [hcalm.form]
    exact h.formField
  pasting := hcalm.pasting.trans h.pasting
  quiet := hcalm.quiet.trans h.quiet
  holds := by
    rw [hcalm.form]
    exact h.holds
  held := hcalm.held.trans h.held
  heldIsTab k hk := hcalm.heldKeyIsTab.trans (h.heldIsTab k hk)

theorem found (h : Typing s₀ earlier m.before) : Typing s₀ earlier m.found :=
  ⟨h.mode, h.activeTab, h.formField, h.pasting, h.quiet, h.holds, h.held, h.heldIsTab⟩

theorem focused (h : Typing s₀ earlier s) (hs : Focused s₀) : Focused s where
  mode := by
    rw [h.mode]
    exact hs.mode
  activeTab := h.activeTab.trans hs.activeTab
  formField := h.formField.trans hs.formField

theorem early (h : Typing s₀ earlier m.before)
    (hclose : ∀ k, heldKey earlier = some k → m.at < k.at + kPasteBurst) : m.found.heldIsOver = false := by
  have hheld : m.found.heldKeySince = (heldKey earlier).map Moment.at := h.held
  have hnow : m.found.now = m.at := rfl
  rw [heldIsOver, hheld, hnow]
  cases hk : heldKey earlier with
  | none => rfl
  | some k =>
    rw [Option.map_some, Option.any_some]
    exact decide_eq_false (Nat.not_le.mpr (hclose k hk))

/-- With the held key, all of the text is in the value. -/
theorem flush (h : Typing s₀ earlier s) (hevents : ∀ m ∈ earlier, m.event.isPasteInput = true)
    (hfits : s.HeldFits) : Holds s₀ (pastedText earlier) s.flushHeld.form := by
  have hheld := h.held
  rw [pastedText_split]
  cases hk : heldKey earlier with
  | none =>
    rw [hk] at hheld
    rw [flushHeld, hheld]
    have hholds := h.holds
    rw [← List.append_nil (insertedText earlier)] at hholds
    exact hholds
  | some k =>
    rw [hk] at hheld
    rw [flushHeld_form hfits hheld]
    obtain ⟨hcustom, hcharacter, more, hmore⟩ := heldKey_spec hk
    have hmem : k ∈ earlier := (List.mem_filter.mp (by rw [hmore]; exact List.mem_cons_self)).1
    have hevent := hevents k hmem
    have hpasted : k.event.pasted = if s.heldKeyIsTab then [9] else [newline] := by
      rw [h.heldIsTab k hk]
      obtain ⟨c, hkind⟩ | hkind | hkind := TuiEvent.isPasteInput_cases hevent hcustom
      · rw [hkind] at hcharacter
        cases hcharacter
      · rw [hkind]
        rfl
      · rw [hkind]
        rfl
    have hholds := h.holds.typed (if s.heldKeyIsTab then [9] else [newline])
    rw [← hpasted] at hholds ⊢
    exact hholds

theorem tick (h : Typing s₀ earlier m.before) (hevent : m.event = .custom)
    (hclose : ∀ k, heldKey earlier = some k → m.at < k.at + kPasteBurst)
    (hpath : (handle m.event m.ftxui m.found).Path calls ((), s')) :
    calls = [] ∧ Typing s₀ (m :: earlier) s' := by
  rw [hevent] at hpath
  obtain ⟨rfl, rfl⟩ := path_handle_tick_early (h.early hclose) hpath
  obtain ⟨hmode, htab, hfield, hpasting, hquiet, hholds, hheld, htabHeld⟩ := h.found.calm (expire_calm m.found)
  have hinserted : insertedText (m :: earlier) = insertedText earlier := if_pos hevent
  have hkey : heldKey (m :: earlier) = heldKey earlier := if_pos hevent
  refine ⟨rfl, hmode, htab, hfield, hpasting, hquiet, ?_, ?_, ?_⟩
  · rw [hinserted]
    exact hholds
  · rw [hkey]
    exact hheld
  · rw [hkey]
    exact htabHeld

theorem key (h : Typing s₀ earlier m.before) (hs : Focused s₀) (hpasting : s₀.pasting = false)
    (hquiet : s₀.ignoreKeysUntil ≤ m.at) (hevents : ∀ m ∈ earlier, m.event.isPasteInput = true)
    (hevent : m.event.isPasteInput = true) (hcustom : m.event ≠ .custom)
    (hclose : ∀ k, heldKey earlier = some k → m.at < k.at + kPasteBurst)
    (htypes : m.Types) (hfits : m.before.HeldFits)
    (hpath : (handle m.event m.ftxui m.found).Path calls ((), s')) :
    calls = [] ∧ Typing s₀ (m :: earlier) s' := by
  have hlate : m.found.ignoreKeysUntil ≤ m.found.now := by
    rw [h.found.quiet]
    exact hquiet
  obtain ⟨rfl, t, hcalm, rfl⟩ := path_handle_typed (h.found.focused hs) (h.found.pasting.trans hpasting) hlate
    (h.early hclose) hevent hcustom htypes hpath
  have ht := h.found.calm hcalm
  have hfits : t.HeldFits := by
    rw [HeldFits, hcalm.held, hcalm.form]
    exact hfits
  have hholds := ht.flush hevents hfits
  obtain ⟨hmode, htab, hfield, hpaste, hnow, hignored, hnone⟩ := flushHeld_keeps t
  refine ⟨rfl, ?_⟩
  cases hcharacter : m.event.isCharacter with
  | true =>
    obtain ⟨c, hkind⟩ : ∃ c, m.event = .character c := by
      cases hkind : m.event with
      | character c => exact ⟨c, rfl⟩
      | _ => simp [hkind, TuiEvent.isCharacter] at hcharacter
    have hinserted : insertedText (m :: earlier) = pastedText earlier ++ c := by
      have hcons : pastedText (m :: earlier) = pastedText earlier ++ m.event.pasted := rfl
      rw [insertedText, if_neg hcustom, hcons, hkind]
      rfl
    have hkey : heldKey (m :: earlier) = none := by
      rw [heldKey, if_neg hcustom, hkind]
      rfl
    have hafter : typeKey m.event { t.flushHeld with status := [] } =
        { t.flushHeld with status := [], form := t.flushHeld.form.typed c } := by
      rw [hkind]
      rfl
    rw [hafter]
    refine ⟨hmode.trans ht.mode, htab.trans ht.activeTab, hfield.trans ht.formField, hpaste.trans ht.pasting,
      hignored.trans ht.quiet, ?_, ?_, ?_⟩
    · rw [hinserted]
      exact hholds.typed c
    · rw [hkey]
      exact hnone
    · intro k hk
      cases hkey.symm.trans hk
  | false =>
    have hback : insertedText (m :: earlier) = pastedText earlier ∧ heldKey (m :: earlier) = some m := by
      rw [insertedText, heldKey, if_neg hcustom, if_neg hcustom, hcharacter]
      exact ⟨rfl, rfl⟩
    obtain ⟨hinserted, hkey⟩ := hback
    rw [typeKey_held hevent hcustom hcharacter]
    refine ⟨hmode.trans ht.mode, htab.trans ht.activeTab, hfield.trans ht.formField, hpaste.trans ht.pasting,
      hignored.trans ht.quiet, ?_, ?_, ?_⟩
    · rw [hinserted]
      exact hholds
    · rw [hkey]
      exact congrArg some (hnow.trans hcalm.now)
    · rw [hkey]
      intro k hk
      rw [Option.some.inj hk]

end Typing

variable {marks : ProjectMarks} {past body : List Moment} {first m : Moment}

theorem run_time (h : TuiRun marks (m :: past) s) : m.at ≤ s.now := by
  have hnow := (run_moment h (List.suffix_refl _)).2.now
  rw [(run_calm h).now]
  exact hnow

/-- The next key bounds the time of the ticks before it, so none of them finds a held key over. -/
theorem run_typing (h : TuiRun marks (body ++ first :: past) s) (hs : Focused first.before)
    (hheld : first.before.heldKeySince = none) (hpasting : first.before.pasting = false)
    (hquiet : first.before.ignoreKeysUntil ≤ first.at)
    (hevents : ∀ m ∈ body ++ [first], m.event.isPasteInput = true)
    (hfirst : first.event ≠ .custom) (hburst : InBurst (body ++ [first]))
    (htypes : ∀ m ∈ body ++ [first], m.Types)
    (hfits : ∀ m ∈ body ++ [first], m.event ≠ .custom → m.before.HeldFits)
    (hhead : ∀ m ∈ body.head?, m.event = .custom → ∀ k, heldKey (body ++ [first]) = some k →
      s.now < k.at + kPasteBurst) :
    Typing first.before (body ++ [first]) s ∧ first.at ≤ s.now ∧ ∀ m ∈ body ++ [first],
      m.calls = [] ∧ m.after.mode = first.before.mode ∧ m.after.form.formField = first.before.form.formField := by
  induction body generalizing s with
  | nil =>
    obtain ⟨-, hpath, -⟩ := run_last h
    have hstart : Typing first.before [] first.before :=
      ⟨rfl, rfl, rfl, rfl, rfl, .start first.before, hheld, fun k hk => by cases hk⟩
    obtain ⟨hcalls, hafter⟩ := hstart.key hs hpasting hquiet (by simp) (hevents first (by simp)) hfirst
      (fun k hk => by cases hk) (htypes first (by simp)) (hfits first (by simp) hfirst) hpath
    refine ⟨hafter.calm (run_calm h), run_time h, fun m hm => ?_⟩
    obtain rfl := List.mem_singleton.mp hm
    exact ⟨hcalls, hafter.mode, hafter.formField⟩
  | cons m body ih =>
    obtain ⟨hrun, hpath, -⟩ := run_last h
    obtain ⟨hm, hbody⟩ := List.forall_mem_cons.mp hevents
    obtain ⟨htypesm, htypes⟩ := List.forall_mem_cons.mp htypes
    obtain ⟨hfitsm, hfits⟩ := List.forall_mem_cons.mp hfits
    have hclose : ∀ k, heldKey (body ++ [first]) = some k → m.at < k.at + kPasteBurst := by
      intro k hk
      by_cases hcustom : m.event = .custom
      · have hkey : heldKey (m :: body ++ [first]) = heldKey (body ++ [first]) := if_pos hcustom
        exact (run_time h).trans_lt (hhead m rfl hcustom k (hkey.trans hk))
      · exact hburst.close hcustom hk
    obtain ⟨htyping, hlate, hall⟩ := ih hrun hbody hburst.tail htypes hfits fun _ _ _ k hk =>
      (Nat.le_add_right _ _).trans_lt (hclose k hk)
    have hstep : m.calls = [] ∧ Typing first.before (m :: body ++ [first]) m.after := by
      by_cases hcustom : m.event = .custom
      · exact htyping.tick hcustom hclose hpath
      · exact htyping.key hs hpasting (hquiet.trans (hlate.trans (Nat.le_add_right _ _))) hbody hm hcustom hclose
          htypesm (hfitsm hcustom) hpath
    obtain ⟨hcalls, hafter⟩ := hstep
    refine ⟨hafter.calm (run_calm h), (hlate.trans (Nat.le_add_right _ _)).trans (run_time h), ?_⟩
    exact List.forall_mem_cons.mpr ⟨⟨hcalls, hafter.mode, hafter.formField⟩, hall⟩

theorem run_before (h : TuiRun marks (body ++ first :: past) s) : TuiRun marks past first.before := by
  induction body generalizing s with
  | nil => exact (run_last h).1
  | cons m body ih => exact ih (run_last h).1

/-- All of the keys since `s₀` have become text, but for a Return or Tab that came last. -/
structure StaysText (s₀ : Tui) (typed : List Moment) (s : Tui) : Prop where
  silent : ∀ m ∈ typed, m.calls = [] ∧ m.after.mode = s₀.mode ∧ m.after.form.formField = s₀.form.formField
  mode : s.mode = s₀.mode
  formField : s.form.formField = s₀.form.formField
  value : s.form.addValue = putAt s₀.form.addValue s₀.form.valueCursor (insertedText typed)
  held : s.heldKeySince = (heldKey typed).map Moment.at
  heldIsTab : ∀ k, heldKey typed = some k → s.heldKeyIsTab = decide (k.event = .tab)

/-- The paste runs from `first` on; the ticks are between its keys. -/
theorem run_typed (h : TuiRun marks (body ++ first :: past) s)
    (hopen : Focused first.before ∨ first.before.mode = .edit) (hheld : first.before.heldKeySince = none)
    (hpasting : first.before.pasting = false) (hquiet : first.before.ignoreKeysUntil ≤ first.at)
    (hevents : ∀ m ∈ body ++ [first], m.event.isPasteInput = true)
    (hfirst : first.event ≠ .custom) (hlast : ∀ m ∈ body.head?, m.event ≠ .custom)
    (hburst : InBurst (body ++ [first]))
    (htypes : ∀ m ∈ body ++ [first], m.Types) (hfits : ∀ m ∈ body ++ [first], m.event ≠ .custom →
    m.before.HeldFits) (hstays : ∀ m ∈ past, m.StaysOnValue) : StaysText first.before (body ++ [first]) s := by
  have hs : Focused first.before := by
    rcases hopen with hs | hedit
    · exact hs
    · have hrun := run_before h
      exact ⟨Or.inr hedit, ((asked_of_run hrun).edit hedit).1, run_onValue hrun hstays hedit⟩
  obtain ⟨htyping, -, hall⟩ := run_typing h hs hheld hpasting hquiet hevents hfirst hburst htypes hfits
    fun m hm hcustom => absurd hcustom (hlast m hm)
  exact ⟨hall, htyping.mode, htyping.formField, htyping.holds.1, htyping.held, htyping.heldIsTab⟩

/-- An event of a run without a daemon, in which FTXUI types into the value. -/
def pressed (elapsed : Time) (before : Tui) (event : TuiEvent) : Moment :=
  let found : Moment := ⟨before, elapsed, event, ⟨0, false, Form.typed event.pasted⟩, [], before⟩
  let replied := (Tui.handle event found.ftxui found.found).reply noAnswer
  { found with calls := replied.1, after := replied.2.2 }

theorem run_pressed (hrun : TuiRun marks past s) (elapsed : Time) (event : TuiEvent) :
    TuiRun marks (pressed elapsed s event :: past) (pressed elapsed s event).after := by
  have hpath := Dialogue.path_reply noAnswer
    (Tui.handle event ⟨0, false, Form.typed event.pasted⟩ { s with now := s.now + elapsed })
  exact @TuiRun.event _ _ (pressed elapsed s event) hrun hpath

theorem pressed_types (elapsed : Time) (before : Tui) (event : TuiEvent) :
    (pressed elapsed before event).Types := by
  rintro c hevent form -
  have hkind : event = .character c := hevent
  rw [pressed, hkind]
  rfl

def sampleAdding : Moment := pressed 0 (opened noAnswer) (.key "a")

def sampleOnValue : Moment := pressed 0 sampleAdding.after .return

def sampleLetter : Moment := pressed 0 sampleOnValue.after (.key "x")

def sampleBreak : Moment := pressed (milliseconds 10) sampleLetter.after .return

def sampleIndent : Moment := pressed (milliseconds 10) sampleBreak.after .tab

theorem run_typed_sample :
    StaysText sampleLetter.before [sampleIndent, sampleBreak, sampleLetter] sampleIndent.after := by
  have hadding := run_pressed (run_opened noAnswer) 0 (.key "a")
  have hvalue := run_pressed hadding 0 .return
  have hletter := run_pressed hvalue 0 (.key "x")
  have hbreak := run_pressed hletter (milliseconds 10) .return
  have hindent := run_pressed hbreak (milliseconds 10) .tab
  have hevents : ∀ m ∈ [sampleIndent, sampleBreak] ++ [sampleLetter], m.event.isPasteInput = true := by decide
  have hburst : InBurst ([sampleIndent, sampleBreak] ++ [sampleLetter]) := by
    have hkeys : ([sampleIndent, sampleBreak] ++ [sampleLetter]).filter (·.event ≠ .custom) =
        [sampleIndent, sampleBreak, sampleLetter] := rfl
    rw [InBurst, hkeys]
    exact .cons_cons (by decide) (.cons_cons (by decide) (.singleton _))
  have htypes : ∀ m ∈ [sampleIndent, sampleBreak] ++ [sampleLetter], m.Types := by
    simp [sampleIndent, sampleBreak, sampleLetter, pressed_types]
  have hfits : ∀ m ∈ [sampleIndent, sampleBreak] ++ [sampleLetter], m.event ≠ .custom → m.before.HeldFits := by
    have hsizes : ∀ m ∈ [sampleIndent, sampleBreak] ++ [sampleLetter], m.before.form.addValue.length < 2 ^ 31 ∧
        cursorAt m.before.form.addValue m.before.form.valueCursor + 1 < 2 ^ 31 := by decide
    exact fun m hm _ _ => hsizes m hm
  have hstays : ∀ m ∈ [sampleOnValue, sampleAdding], m.StaysOnValue := by
    intro m hm hedit
    rcases List.mem_cons.mp hm with rfl | hm
    · exact absurd hedit (by decide)
    · obtain rfl := List.mem_singleton.mp hm
      exact absurd hedit (by decide)
  exact @run_typed _ _ [sampleOnValue, sampleAdding] [sampleIndent, sampleBreak] sampleLetter hindent
    (Or.inl ⟨Or.inl rfl, rfl, rfl⟩) rfl rfl (by decide) hevents nofun (by decide) hburst htypes hfits hstays

/-! A newline that is put in at the offset `2^31 - 1` takes the cursor to the front. -/

theorem pressed_typed (event : TuiEvent) (hs : Focused s) (hpasting : s.pasting = false)
    (hquiet : s.ignoreKeysUntil ≤ s.now) (hheld : s.heldIsOver = false) (hevent : event.isPasteInput = true)
    (hcustom : event ≠ .custom) :
    ∃ t, Calm s t ∧ (pressed 0 s event).after = typeKey event { t.flushHeld with status := [] } := by
  have hpath := Dialogue.path_reply noAnswer (Tui.handle event ⟨0, false, Form.typed event.pasted⟩ s)
  refine (path_handle_typed hs hpasting hquiet hheld hevent hcustom ?_ hpath).2
  rintro c rfl form -
  rfl

/-- `n` letters are in the value, the cursor behind them, and no key is held back. -/
structure Lettered (n : Nat) (s : Tui) : Prop extends Focused s where
  adding : s.mode = .add
  held : s.heldKeySince = none
  pasting : s.pasting = false
  quiet : s.ignoreKeysUntil ≤ s.now
  value : s.form.addValue = List.replicate n 97
  cursor : s.form.valueCursor = n

/-- The letter `a`, typed `n` times. -/
def lettersTyped : Nat → List Moment × Tui
  | 0 => ([sampleOnValue, sampleAdding], sampleOnValue.after)
  | n + 1 =>
    let letter := pressed 0 (lettersTyped n).2 (.key "a")
    (letter :: (lettersTyped n).1, letter.after)

def breakBehind (n : Nat) : Moment := pressed 0 (lettersTyped n).2 .return

def letterBehind (n : Nat) : Moment := pressed 0 (breakBehind n).after (.key "b")

theorem Lettered.press {n : Nat} (h : Lettered n s) : Lettered (n + 1) (pressed 0 s (.key "a")).after := by
  have hover : s.heldIsOver = false := by
    rw [heldIsOver, h.held]
    rfl
  have hcursor : cursorAt s.form.addValue s.form.valueCursor = n := by
    rw [h.value, h.cursor, cursorAt, List.length_replicate]
    omega
  obtain ⟨t, hcalm, hafter⟩ := pressed_typed (.key "a") h.toFocused h.pasting h.quiet hover rfl (by decide)
  have hnone : t.heldKeySince = none := hcalm.held.trans h.held
  have hform : (pressed 0 s (.key "a")).after.form = s.form.typed [97] := by
    rw [hafter, flushHeld, hnone, ← hcalm.form]
    rfl
  rw [flushHeld, hnone] at hafter
  have hadding : (pressed 0 s (.key "a")).after.mode = .add := by
    rw [hafter]
    exact hcalm.mode.trans h.adding
  refine ⟨⟨Or.inl hadding, ?_, ?_⟩, hadding, ?_, ?_, ?_, ?_, ?_⟩
  · rw [hafter]
    exact hcalm.activeTab.trans h.activeTab
  · rw [hform]
    exact h.formField
  · rw [hafter]
    exact hnone
  · rw [hafter]
    exact hcalm.pasting.trans h.pasting
  · rw [hafter]
    exact hcalm.quiet ▸ hcalm.now ▸ h.quiet
  · rw [hform, Form.typed, putAt, hcursor, h.value]
    have hlength : (List.replicate n (97 : UInt8)).length = n := List.length_replicate
    rw [List.take_of_length_le hlength.le, List.drop_of_length_le hlength.le,
      List.append_nil, ← List.replicate_succ']
  · rw [hform, Form.typed, hcursor]
    rfl

theorem lettersTyped_spec (n : Nat) : TuiRun ⟨[], []⟩ (lettersTyped n).1 (lettersTyped n).2 ∧
    Lettered n (lettersTyped n).2 ∧ ∀ m ∈ (lettersTyped n).1, m.StaysOnValue := by
  induction n with
  | zero =>
    have hrun := run_pressed (run_pressed (run_opened noAnswer) 0 (.key "a")) 0 .return
    refine ⟨hrun, ⟨⟨Or.inl rfl, rfl, rfl⟩, rfl, rfl, rfl, by decide, rfl, rfl⟩, ?_⟩
    intro m hm hedit
    rcases List.mem_cons.mp hm with rfl | hm
    · exact absurd hedit (by decide)
    · obtain rfl := List.mem_singleton.mp hm
      exact absurd hedit (by decide)
  | succ n ih =>
    obtain ⟨hrun, hlettered, hstays⟩ := ih
    refine ⟨run_pressed hrun 0 (.key "a"), hlettered.press, ?_⟩
    refine List.forall_mem_cons.mpr ⟨fun hedit => ?_, hstays⟩
    cases hlettered.adding.symm.trans hedit

theorem Lettered.break {n : Nat} (h : Lettered n s) : Focused (pressed 0 s .return).after ∧
    (pressed 0 s .return).after.form = s.form ∧ (pressed 0 s .return).after.heldKeySince = some s.now ∧
      (pressed 0 s .return).after.heldKeyIsTab = false ∧ (pressed 0 s .return).after.now = s.now ∧
        (pressed 0 s .return).after.pasting = false ∧
          (pressed 0 s .return).after.ignoreKeysUntil = s.ignoreKeysUntil := by
  have hover : s.heldIsOver = false := by
    rw [heldIsOver, h.held]
    rfl
  obtain ⟨t, hcalm, hafter⟩ := pressed_typed .return h.toFocused h.pasting h.quiet hover rfl (by decide)
  have hnone : t.heldKeySince = none := hcalm.held.trans h.held
  rw [flushHeld, hnone] at hafter
  rw [hafter]
  refine ⟨⟨Or.inl (hcalm.mode.trans h.adding), hcalm.activeTab.trans h.activeTab, ?_⟩, hcalm.form,
    congrArg some hcalm.now, rfl, hcalm.now, hcalm.pasting.trans h.pasting, hcalm.quiet⟩
  rw [typeKey, holdKey, hcalm.form]
  exact h.formField

/-- The letter comes before the text that it was typed behind. -/
theorem letterBehind_value {n : Nat} (hn : n + 1 = 2 ^ 31) :
    (letterBehind n).after.form.addValue.head? = some 98 := by
  have hlettered := (lettersTyped_spec n).2.1
  obtain ⟨hfocus, hform, hheld, htab, hnow, hpasting, hquiet⟩ := hlettered.break
  have hover : (breakBehind n).after.heldIsOver = false := by
    rw [heldIsOver, breakBehind, hheld, hnow, Option.any_some]
    exact decide_eq_false (Nat.not_le.mpr (Nat.lt_add_of_pos_right (by decide)))
  obtain ⟨t, hcalm, hafter⟩ := @pressed_typed (breakBehind n).after (.key "b") hfocus hpasting
    (by rw [breakBehind, hquiet, hnow]; exact hlettered.quiet) hover rfl (by decide)
  have hsince : t.heldKeySince = some (lettersTyped n).2.now := hcalm.held.trans hheld
  have hbreak : t.heldKeyIsTab = false := hcalm.heldKeyIsTab.trans htab
  have hvalue : t.form.addValue = List.replicate n 97 := by
    rw [hcalm.form, breakBehind, hform]
    exact hlettered.value
  have hcursor : t.form.valueCursor = n := by
    rw [hcalm.form, breakBehind, hform]
    exact hlettered.cursor
  have hlength : (List.replicate n (97 : UInt8)).length = n := List.length_replicate
  have hwrapped : (insertAtCursor t.form.addValue t.form.valueCursor [newline]).2 < 0 := by
    rw [hvalue, hcursor]
    refine insert_wraps (by omega) (by decide) ?_
    rw [cursorAt, hlength, List.length_singleton]
    omega
  have hstart : ∀ v : Bytes, cursorAt v (insertAtCursor t.form.addValue t.form.valueCursor [newline]).2 = 0 := by
    intro v
    rw [cursorAt]
    omega
  have hflushed : (pressed 0 (breakBehind n).after (.key "b")).after.form =
      ({ t.form with
        addValue := (insertAtCursor t.form.addValue t.form.valueCursor [newline]).1
        valueCursor := (insertAtCursor t.form.addValue t.form.valueCursor [newline]).2 } : Form).typed [98] := by
    rw [hafter, flushHeld, hsince, hbreak]
    rfl
  rw [letterBehind, hflushed, Form.typed, putAt, hstart]
  rfl

/-- The keys of a paste stay text, however long the value is. -/
def KeysStayText : Prop :=
  ∀ (marks : ProjectMarks) (body : List Moment) (first : Moment) (past : List Moment) (s : Tui),
    TuiRun marks (body ++ first :: past) s → Focused first.before ∨ first.before.mode = .edit →
      first.before.heldKeySince = none → first.before.pasting = false → first.before.ignoreKeysUntil ≤ first.at →
        (∀ m ∈ body ++ [first], m.event.isPasteInput = true) → first.event ≠ .custom →
          (∀ m ∈ body.head?, m.event ≠ .custom) → InBurst (body ++ [first]) → (∀ m ∈ body ++ [first], m.Types) →
            (∀ m ∈ past, m.StaysOnValue) → StaysText first.before (body ++ [first]) s

/-- Return and `b` behind `2^31 - 1` letters. -/
theorem not_keysStayText : ¬KeysStayText := by
  intro hclaim
  obtain ⟨n, hn⟩ : ∃ n, n + 1 = 2 ^ 31 := ⟨2 ^ 31 - 1, rfl⟩
  obtain ⟨hrun, hlettered, hstays⟩ := lettersTyped_spec n
  have hrun' := run_pressed (run_pressed hrun 0 .return) 0 (.key "b")
  have hletter : (letterBehind n).event ≠ .custom := by
    have hkey : TuiEvent.key "b" ≠ .custom := by decide
    exact hkey
  have hbreak : (breakBehind n).event ≠ .custom := by
    have hkey : TuiEvent.return ≠ .custom := by decide
    exact hkey
  have hevents : ∀ m ∈ [letterBehind n] ++ [breakBehind n], m.event.isPasteInput = true :=
    List.forall_mem_cons.mpr ⟨rfl, List.forall_mem_singleton.mpr rfl⟩
  have htypes : ∀ m ∈ [letterBehind n] ++ [breakBehind n], m.Types :=
    List.forall_mem_cons.mpr ⟨pressed_types 0 _ _, List.forall_mem_singleton.mpr (pressed_types 0 _ _)⟩
  have hburst : InBurst ([letterBehind n] ++ [breakBehind n]) := by
    have hnow : (breakBehind n).after.now = (lettersTyped n).2.now := hlettered.break.2.2.2.2.1
    have hat : (letterBehind n).at = (breakBehind n).at := hnow
    have hkeys : ([letterBehind n] ++ [breakBehind n]).filter (·.event ≠ .custom) =
        [letterBehind n, breakBehind n] :=
      List.filter_eq_self.mpr (List.forall_mem_cons.mpr
        ⟨decide_eq_true hletter, List.forall_mem_singleton.mpr (decide_eq_true hbreak)⟩)
    rw [InBurst, hkeys]
    refine .cons_cons ?_ (.singleton _)
    rw [hat]
    exact Nat.lt_add_of_pos_right (by decide)
  have hkept := hclaim _ [letterBehind n] (breakBehind n) _ _ hrun' (Or.inl hlettered.toFocused) hlettered.held
    hlettered.pasting hlettered.quiet hevents hbreak (by simpa using hletter) hburst htypes hstays
  have hbefore : (breakBehind n).before = (lettersTyped n).2 := rfl
  have hcursor : cursorAt (List.replicate n 97) n = n := by
    rw [cursorAt, List.length_replicate]
    omega
  have hhead := letterBehind_value hn
  have hvalue : (letterBehind n).after.form.addValue = _ := hkept.value
  rw [hvalue, hbefore, hlettered.value, hlettered.cursor, putAt, hcursor] at hhead
  obtain ⟨k, rfl⟩ : ∃ k, n = k + 1 := ⟨n - 1, by omega⟩
  rw [List.replicate_succ, List.take_succ_cons] at hhead
  cases Option.some.inj hhead

end Tui

end Secretov
