import Secretov.TuiRuns

/-! Bracketed paste in the TUI. A start marker that is not lost to the quiet
period makes all of the paste text; after one that is, the paste is keys. -/

namespace Secretov

/-- What may stand between the two markers of a paste. -/
def TuiEvent.isPasteInput (event : TuiEvent) : Bool :=
  event = .custom ∨ event.isCharacter ∨ event = .return ∨ event = .tab

def TuiEvent.pasted : TuiEvent → Bytes
  | character c => c
  | .return => [newline]
  | tab => [9]
  | _ => []

theorem TuiEvent.isPasteInput_cases {event : TuiEvent} (h : event.isPasteInput = true)
    (hcustom : event ≠ .custom) : (∃ c, event = .character c) ∨ event = .return ∨ event = .tab := by
  obtain hevent | hcharacter | hreturn | htab := of_decide_eq_true h
  · exact absurd hevent hcustom
  · cases event with
    | character c => exact Or.inl ⟨c, rfl⟩
    | _ => cases hcharacter
  · exact Or.inr (Or.inl hreturn)
  · exact Or.inr (Or.inr htab)

theorem TuiEvent.isPasteInput_plain {event : TuiEvent} (h : event.isPasteInput = true)
    (hcustom : event ≠ .custom) :
    event ≠ .ctrlC ∧ event.isMouse = false ∧ event ≠ .ctrlZ ∧ event ≠ .pasteStart := by
  obtain ⟨c, rfl⟩ | rfl | rfl := isPasteInput_cases h hcustom
  · exact ⟨nofun, rfl, nofun, nofun⟩
  · exact ⟨nofun, rfl, nofun, nofun⟩
  · exact ⟨nofun, rfl, nofun, nofun⟩

/-- The text of a paste, from its moments, the latest first. -/
def pastedText (body : List Moment) : Bytes := body.foldr (fun m pasted => pasted ++ m.event.pasted) []

/-- Each key of the paste follows the key before it within the quiet period. -/
def Swallowed (moments : List Moment) : Prop :=
  (moments.filter (·.event ≠ .custom)).IsChain fun later earlier => later.at < earlier.at + kAfterSubmitQuiet

namespace Tui

variable {s t s' : Tui} {event : TuiEvent} {ftxui : Ftxui} {calls : List (Dialogue.Exchange Answer)}

/-- Keeps the mode, the folding and the inputs; nothing is held or pasted. -/
structure Kept (s s' : Tui) : Prop where
  mode : s'.mode = s.mode
  form : s'.form = s.form
  filter : s'.filter = s.filter
  collapsed : s'.collapsed = s.collapsed
  exited : s'.exited = s.exited
  held : s'.heldKeySince = s.heldKeySince

namespace Kept

theorem refl (s : Tui) : Kept s s := ⟨rfl, rfl, rfl, rfl, rfl, rfl⟩

theorem trans (h : Kept s t) (h' : Kept t s') : Kept s s' :=
  ⟨h'.mode.trans h.mode, h'.form.trans h.form, h'.filter.trans h.filter, h'.collapsed.trans h.collapsed,
    h'.exited.trans h.exited, h'.held.trans h.held⟩

end Kept

/-- The same, and both the paste so far and the quiet period stay as they are. -/
structure Idle (s s' : Tui) : Prop extends Kept s s' where
  now : s'.now = s.now
  pasting : s'.pasting = s.pasting
  pasteBuffer : s'.pasteBuffer = s.pasteBuffer
  quiet : s'.ignoreKeysUntil = s.ignoreKeysUntil

namespace Idle

theorem refl (s : Tui) : Idle s s := ⟨.refl s, rfl, rfl, rfl, rfl⟩

theorem trans (h : Idle s t) (h' : Idle t s') : Idle s s' :=
  ⟨h.toKept.trans h'.toKept, h'.now.trans h.now, h'.pasting.trans h.pasting, h'.pasteBuffer.trans h.pasteBuffer,
    h'.quiet.trans h.quiet⟩

end Idle

theorem syncSelection_idle (s : Tui) : Idle s s.syncSelection := by
  unfold syncSelection
  split
  · exact .refl s
  · exact ⟨⟨rfl, rfl, rfl, rfl, rfl, rfl⟩, rfl, rfl, rfl, rfl⟩

theorem expire_idle (s : Tui) : Idle s s.expire := by
  unfold expire
  dsimp only
  split
  · split <;> split <;> exact ⟨⟨rfl, rfl, rfl, rfl, rfl, rfl⟩, rfl, rfl, rfl, rfl⟩
  · split <;> exact ⟨⟨rfl, rfl, rfl, rfl, rfl, rfl⟩, rfl, rfl, rfl, rfl⟩

theorem frame_idle (helpScroll detailScroll : Int) (s : Tui) : Idle s (s.frame helpScroll detailScroll) := by
  refine (syncSelection_idle s).trans ?_
  exact ⟨⟨rfl, rfl, rfl, rfl, rfl, rfl⟩, rfl, rfl, rfl, rfl⟩

theorem frame_status (helpScroll detailScroll : Int) (s : Tui) :
    (s.frame helpScroll detailScroll).status = s.status := by
  unfold frame syncSelection
  split <;> rfl

theorem path_handle_tick (hheld : s.heldKeySince = none)
    (h : (handle .custom ftxui s).Path calls ((), s')) : calls = [] ∧ s' = s.expire := by
  obtain ⟨first, consumed, t, rest, rfl, hevent, hrest⟩ := StateT.path_bind.mp h
  unfold onEvent at hevent
  rw [if_pos rfl] at hevent
  obtain ⟨rfl, htick⟩ := path_consumeM hevent
  obtain ⟨rfl, -, rfl⟩ := StateT.path_pure.mp hrest
  have htick := path_get_bind htick
  rw [if_neg (by simp [heldIsOver, hheld])] at htick
  obtain ⟨rfl, rfl⟩ := path_modify htick
  exact ⟨rfl, rfl⟩

/-- With no key held, a key is dropped in the quiet period and handled after it. -/
theorem path_handle_key (hheld : s.heldKeySince = none) (hcustom : event ≠ .custom) (hctrl : event ≠ .ctrlC)
    (hmouse : event.isMouse = false) (h : (handle event ftxui s).Path calls ((), s')) :
    ∃ t, Idle s t ∧
      (s.now < s.ignoreKeysUntil ∧ calls = [] ∧ s' = t.ignoreKey ∨
        s.ignoreKeysUntil ≤ s.now ∧ ∃ first consumed u rest, (liveEvent event ftxui t).Path first (consumed, u) ∧
          calls = first ++ rest ∧
          ((if !consumed then modify (passOn ftxui) else pure PUnit.unit : TuiM PUnit) u).Path rest
          ((), s')) := by
  obtain ⟨first, consumed, u, rest, rfl, hevent, hrest⟩ := StateT.path_bind.mp h
  unfold onEvent at hevent
  rw [if_neg hcustom] at hevent
  have hidle := (syncSelection_idle s).trans (expire_idle _)
  obtain ⟨settled, v, t, last, rfl, hsettle, hlast⟩ := StateT.path_bind.mp (path_modify_bind hevent)
  have hsettle := path_get_bind hsettle
  rw [if_neg (by simp [hidle.held, hheld])] at hsettle
  obtain ⟨rfl, -, rfl⟩ := StateT.path_pure.mp hsettle
  rw [if_neg hctrl] at hlast
  have hnow := path_get_bind hlast
  have hquiet := path_get_bind hnow
  refine ⟨_, hidle, ?_⟩
  split at hquiet
  · rename_i hearly
    obtain ⟨rfl, rfl, rfl⟩ := path_consume hquiet
    obtain ⟨rfl, -, rfl⟩ := StateT.path_pure.mp hrest
    rw [hidle.now, hidle.quiet] at hearly
    exact Or.inl ⟨hearly.2, rfl, rfl⟩
  · rename_i hlate
    rw [hidle.now, hidle.quiet, hmouse] at hlate
    exact Or.inr ⟨by simpa using hlate, last, consumed, u, rest, hquiet, rfl, hrest⟩

theorem live_consumed {f : Tui → Tui} {first rest : List (Dialogue.Exchange Answer)} {consumed : Bool}
    (h : (consume f t).Path first (consumed, s))
    (hrest : ((if !consumed then modify (passOn ftxui) else pure PUnit.unit : TuiM PUnit) s).Path rest ((), s')) :
    first = [] ∧ rest = [] ∧ s' = f t := by
  obtain ⟨rfl, rfl, rfl⟩ := path_consume h
  obtain ⟨rfl, -, rfl⟩ := StateT.path_pure.mp hrest
  exact ⟨rfl, rfl, rfl⟩

theorem path_handle_start (hheld : s.heldKeySince = none) (hquiet : s.ignoreKeysUntil ≤ s.now)
    (h : (handle .pasteStart ftxui s).Path calls ((), s')) :
    calls = [] ∧ ∃ t, Idle s t ∧ s' = startPaste { t with status := [] } := by
  have hcustom : TuiEvent.pasteStart ≠ .custom := nofun
  have hkey : (!TuiEvent.pasteStart.isMouse) = true := rfl
  obtain ⟨t, hidle, ⟨hearly, -⟩ | ⟨-, first, consumed, u, rest, hlive, rfl, hrest⟩⟩ :=
    path_handle_key hheld hcustom nofun rfl h
  · exact absurd hearly (Nat.not_lt.mpr hquiet)
  · have hlive := path_modify_bind hlive
    rw [if_pos (Or.inl hkey), if_neg nofun, if_pos rfl] at hlive
    obtain ⟨rfl, rfl, rfl⟩ := live_consumed hlive hrest
    exact ⟨rfl, t, hidle, rfl⟩

theorem path_handle_paste (hheld : s.heldKeySince = none) (hquiet : s.ignoreKeysUntil ≤ s.now)
    (hpasting : s.pasting = true) (hevent : event.isPasteInput = true ∧ event ≠ .custom ∨ event = .pasteEnd)
    (h : (handle event ftxui s).Path calls ((), s')) :
    calls = [] ∧ ∃ t, Idle s t ∧ s' = pasteInput event { t with status := [] } := by
  have hplain : event ≠ .custom ∧ event ≠ .ctrlC ∧ event.isMouse = false ∧ event ≠ .ctrlZ ∧
      event ≠ .pasteStart := by
    obtain ⟨hinput, hcustom⟩ | rfl := hevent
    · exact ⟨hcustom, TuiEvent.isPasteInput_plain hinput hcustom⟩
    · exact ⟨nofun, nofun, rfl, nofun, nofun⟩
  obtain ⟨hcustom, hctrl, hmouse, hz, hstart⟩ := hplain
  obtain ⟨t, hidle, ⟨hearly, -⟩ | ⟨-, first, consumed, u, rest, hlive, rfl, hrest⟩⟩ :=
    path_handle_key hheld hcustom hctrl hmouse h
  · exact absurd hearly (Nat.not_lt.mpr hquiet)
  · have hlive := path_modify_bind hlive
    rw [if_pos (Or.inl (by simp [hmouse])), if_neg hz, if_neg hstart] at hlive
    have hlive := path_get_bind hlive
    rw [if_pos (hidle.pasting.trans hpasting)] at hlive
    obtain ⟨rfl, rfl, rfl⟩ := live_consumed hlive hrest
    exact ⟨rfl, t, hidle, rfl⟩

/-- A paste into `s₀` is under way, and this is its text so far. -/
structure Pasting (s₀ : Tui) (pasted : Bytes) (s : Tui) : Prop extends Kept s₀ s where
  pasting : s.pasting = true
  pasteBuffer : s.pasteBuffer = pasted
  quiet : s.ignoreKeysUntil ≤ s.now

namespace Pasting

variable {s₀ : Tui} {pasted : Bytes}

theorem idle (h : Pasting s₀ pasted s) (hidle : Idle s s') : Pasting s₀ pasted s' where
  toKept := h.toKept.trans hidle.toKept
  pasting := hidle.pasting.trans h.pasting
  pasteBuffer := hidle.pasteBuffer.trans h.pasteBuffer
  quiet := by
    rw [hidle.quiet, hidle.now]
    exact h.quiet

theorem found {m : Moment} (h : Pasting s₀ pasted m.before) : Pasting s₀ pasted m.found where
  toKept := h.toKept.trans ⟨rfl, rfl, rfl, rfl, rfl, rfl⟩
  pasting := h.pasting
  pasteBuffer := h.pasteBuffer
  quiet := h.quiet.trans (Nat.le_add_right _ _)

theorem input (h : Pasting s₀ pasted s) (hheld : s₀.heldKeySince = none) (hevent : event.isPasteInput = true)
    (hpath : (handle event ftxui s).Path calls ((), s')) :
    calls = [] ∧ Pasting s₀ (pasted ++ event.pasted) s' := by
  have hheld := h.held.trans hheld
  by_cases hcustom : event = .custom
  · subst hcustom
    obtain ⟨rfl, rfl⟩ := path_handle_tick hheld hpath
    have htick := h.idle (expire_idle s)
    rw [← List.append_nil pasted] at htick
    exact ⟨rfl, htick⟩
  · obtain ⟨rfl, t, hidle, rfl⟩ := path_handle_paste hheld h.quiet h.pasting (Or.inl ⟨hevent, hcustom⟩) hpath
    obtain ⟨hkept, hpasting, hbuffer, hquiet⟩ := h.idle hidle
    have hkept : Kept s₀ { t with status := [] } := hkept.trans ⟨rfl, rfl, rfl, rfl, rfl, rfl⟩
    refine ⟨rfl, ?_⟩
    obtain ⟨c, rfl⟩ | rfl | rfl := TuiEvent.isPasteInput_cases hevent hcustom
    · exact ⟨hkept.trans ⟨rfl, rfl, rfl, rfl, rfl, rfl⟩, hpasting, congrArg (· ++ c) hbuffer, hquiet⟩
    · exact ⟨hkept.trans ⟨rfl, rfl, rfl, rfl, rfl, rfl⟩, hpasting, congrArg (· ++ [newline]) hbuffer, hquiet⟩
    · exact ⟨hkept.trans ⟨rfl, rfl, rfl, rfl, rfl, rfl⟩, hpasting, congrArg (· ++ [9]) hbuffer, hquiet⟩

end Pasting

theorem applyFilter_eq (s : Tui) : ∃ tree, s.applyFilter = { s with tree } := by
  obtain ⟨tree, h⟩ := rebuildRows_eq s.selectedId s
  unfold applyFilter
  rcases hr : s.rebuildRows s.selectedId with ⟨found, t⟩
  rw [hr] at h
  cases found with
  | true => exact ⟨tree, h⟩
  | false =>
    dsimp only at h
    rw [h]
    exact ⟨_, rfl⟩

/-- What a paste may have changed: the input with the focus, or only the message. -/
inductive PasteOutcome (s : Tui) (pasted : Bytes) (s' : Tui) : Prop
  | filter : s.mode = .filter → s'.form = s.form → s'.filter = s.filter ++ pasted → PasteOutcome s pasted s'
  | name : s.mode = .add ∨ s.mode = .edit → s.form.formField = 0 → s'.filter = s.filter →
      s'.form = (s.insertIntoName pasted).form → PasteOutcome s pasted s'
  | value : s.mode = .add ∨ s.mode = .edit → s.form.formField ≠ 0 → s'.filter = s.filter →
      s'.form = (s.insertIntoValue (withoutLastNewline pasted)).form → PasteOutcome s pasted s'
  | refused : s'.filter = s.filter → s'.form = s.form →
      s'.status = text "paste refused: the filter is one line" ∨
      s'.status = text "paste refused: a name is one line" ∨
        s'.status = text "paste ignored: open a form with 'a' or 'e' first" ∨
        containsText s'.status kIgnored = true →
      PasteOutcome s pasted s'

/-- Neither has the TUI quit, nor have the mode and the folding changed. -/
structure Inert (s s' : Tui) : Prop where
  mode : s'.mode = s.mode
  collapsed : s'.collapsed = s.collapsed
  exited : s'.exited = s.exited

theorem Kept.inert (h : Kept s s') : Inert s s' := ⟨h.mode, h.collapsed, h.exited⟩

theorem Inert.trans (h : Inert s t) (h' : Inert t s') : Inert s s' :=
  ⟨h'.mode.trans h.mode, h'.collapsed.trans h.collapsed, h'.exited.trans h.exited⟩

theorem finishPaste_inert (s : Tui) : Inert s s.finishPaste := by
  unfold finishPaste
  dsimp only
  split
  · split
    · exact ⟨rfl, rfl, rfl⟩
    · obtain ⟨tree, h⟩ := applyFilter_eq { s with filter := s.filter ++ s.pasteBuffer }
      rw [h]
      exact ⟨rfl, rfl, rfl⟩
  · split
    · exact ⟨rfl, rfl, rfl⟩
    · split
      · split <;> exact ⟨rfl, rfl, rfl⟩
      · exact ⟨rfl, rfl, rfl⟩

theorem finishPaste_outcome (s : Tui) : PasteOutcome s s.pasteBuffer s.finishPaste := by
  unfold finishPaste
  dsimp only
  split
  · rename_i hmode
    split
    · exact .refused rfl rfl (Or.inl rfl)
    · obtain ⟨tree, h⟩ := applyFilter_eq { s with filter := s.filter ++ s.pasteBuffer }
      rw [h]
      exact .filter hmode rfl rfl
  · split
    · exact .refused rfl rfl (Or.inr (Or.inr (Or.inl rfl)))
    · rename_i hmode
      have hform : s.mode = .add ∨ s.mode = .edit := by
        by_contra hnot
        exact hmode ⟨fun h => hnot (Or.inl h), fun h => hnot (Or.inr h)⟩
      split
      · rename_i hfield
        split
        · exact .refused rfl rfl (Or.inr (Or.inl rfl))
        · exact .name hform hfield rfl rfl
      · rename_i hfield
        exact .value hform hfield rfl rfl

theorem PasteOutcome.kept {pasted : Bytes} (h : Kept s t) (h' : PasteOutcome t pasted s') :
    PasteOutcome s pasted s' := by
  have hname : (t.insertIntoName pasted).form = (s.insertIntoName pasted).form := by
    rw [insertIntoName, insertIntoName, h.form]
  have hvalue : (t.insertIntoValue (withoutLastNewline pasted)).form =
      (s.insertIntoValue (withoutLastNewline pasted)).form := by
    rw [insertIntoValue, insertIntoValue, h.form]
  have hform := h.form
  have hmode := h.mode
  cases h' with
  | filter hfilter hsame hpasted => exact .filter (hmode ▸ hfilter) (hsame.trans hform) (h.filter ▸ hpasted)
  | name hopen hfield hfilter hsame =>
    exact .name (hmode ▸ hopen) (hform ▸ hfield) (hfilter.trans h.filter) (hsame.trans hname)
  | value hopen hfield hfilter hsame =>
    exact .value (hmode ▸ hopen) (hform ▸ hfield) (hfilter.trans h.filter) (hsame.trans hvalue)
  | refused hfilter hsame hreports => exact .refused (hfilter.trans h.filter) (hsame.trans hform) hreports

theorem PasteOutcome.idle {pasted : Bytes} (h : PasteOutcome s pasted t) (hidle : Idle t s')
    (hstatus : s'.status = t.status) :
    PasteOutcome s pasted s' := by
  have hform := hidle.form
  have hfilter := hidle.filter
  cases h with
  | filter hmode hsame hpasted => exact .filter hmode (hform.trans hsame) (hfilter.trans hpasted)
  | name hopen hfield hsame hpasted => exact .name hopen hfield (hfilter.trans hsame) (hform.trans hpasted)
  | value hopen hfield hsame hpasted => exact .value hopen hfield (hfilter.trans hsame) (hform.trans hpasted)
  | refused hsame hsame' hreports =>
    rw [← hstatus] at hreports
    exact .refused (hfilter.trans hsame) (hform.trans hsame') hreports

theorem Pasting.finish {s₀ : Tui} {pasted : Bytes} (h : Pasting s₀ pasted s) (hheld : s₀.heldKeySince = none)
    (hpath : (handle .pasteEnd ftxui s).Path calls ((), s')) :
    calls = [] ∧ Inert s₀ s' ∧ PasteOutcome s₀ pasted s' := by
  obtain ⟨rfl, t, hidle, rfl⟩ := path_handle_paste (h.held.trans hheld) h.quiet h.pasting (Or.inr rfl) hpath
  have ht := h.idle hidle
  have hkept : Kept s₀ { t with status := [], pasting := false } := ht.toKept.trans ⟨rfl, rfl, rfl, rfl, rfl, rfl⟩
  have houtcome := finishPaste_outcome { t with status := [], pasting := false }
  rw [← ht.pasteBuffer]
  exact ⟨rfl, hkept.inert.trans (finishPaste_inert _), houtcome.kept hkept⟩

/-- The quiet period has swallowed the paste into `s₀` so far; it lasts until this time. -/
structure Swallowing (s₀ : Tui) (deadline : Time) (s : Tui) : Prop extends Kept s₀ s where
  quiet : s.ignoreKeysUntil = deadline

namespace Swallowing

variable {s₀ : Tui} {deadline : Time}

theorem idle (h : Swallowing s₀ deadline s) (hidle : Idle s s') : Swallowing s₀ deadline s' :=
  ⟨h.toKept.trans hidle.toKept, hidle.quiet.trans h.quiet⟩

theorem tick (h : Swallowing s₀ deadline s) (hheld : s₀.heldKeySince = none)
    (hpath : (handle .custom ftxui s).Path calls ((), s')) : calls = [] ∧ Swallowing s₀ deadline s' := by
  obtain ⟨rfl, rfl⟩ := path_handle_tick (h.held.trans hheld) hpath
  exact ⟨rfl, h.idle (expire_idle s)⟩

end Swallowing

theorem containsText_append (s needle : Bytes) (rest : Bytes) :
    containsText (s ++ (needle ++ rest)) needle = true := by
  rw [containsText, List.any_eq_true]
  refine ⟨needle ++ rest, ?_, ?_⟩
  · exact (List.mem_tails _ _).mpr (List.suffix_append s _)
  · exact List.isPrefixOf_iff_prefix.mpr (List.prefix_append needle rest)

theorem ignoreKey_reports (s : Tui) : containsText s.ignoreKey.status kIgnored = true := by
  unfold ignoreKey
  dsimp only
  split
  · have h := containsText_append [] kIgnored []
    rw [List.append_nil] at h
    exact h
  · split
    · rename_i h
      exact h
    · rw [List.append_assoc]
      exact containsText_append (s.status ++ text " (") kIgnored (text ")")

theorem ignoreKey_kept (s : Tui) : Kept s s.ignoreKey ∧
    s.ignoreKey.ignoreKeysUntil = s.now + kAfterSubmitQuiet := by
  obtain ⟨_, _, _, h⟩ := ignoreKey_eq s
  rw [h]
  exact ⟨⟨rfl, rfl, rfl, rfl, rfl, rfl⟩, rfl⟩

theorem Swallowing.key {s₀ : Tui} {deadline : Time} (h : Swallowing s₀ deadline s)
    (hheld : s₀.heldKeySince = none)
    (hearly : s.now < deadline) (hevent : event.isPasteInput = true ∧ event ≠ .custom ∨ event = .pasteStart ∨
      event = .pasteEnd)
    (hpath : (handle event ftxui s).Path calls ((), s')) :
    calls = [] ∧ Swallowing s₀ (s.now + kAfterSubmitQuiet) s' ∧ containsText s'.status kIgnored = true := by
  have hplain : event ≠ .custom ∧ event ≠ .ctrlC ∧ event.isMouse = false := by
    obtain ⟨hinput, hcustom⟩ | rfl | rfl := hevent
    · obtain ⟨hctrl, hmouse, -⟩ := TuiEvent.isPasteInput_plain hinput hcustom
      exact ⟨hcustom, hctrl, hmouse⟩
    · exact ⟨nofun, nofun, rfl⟩
    · exact ⟨nofun, nofun, rfl⟩
  obtain ⟨hcustom, hctrl, hmouse⟩ := hplain
  obtain ⟨t, hidle, ⟨-, rfl, rfl⟩ | ⟨hlate, -⟩⟩ := path_handle_key (h.held.trans hheld) hcustom hctrl hmouse hpath
  · obtain ⟨hkept, hquiet⟩ := ignoreKey_kept t
    refine ⟨rfl, ⟨(h.toKept.trans hidle.toKept).trans hkept, ?_⟩, ignoreKey_reports t⟩
    rw [hquiet, hidle.now]
  · rw [h.quiet] at hlate
    exact absurd hearly (Nat.not_lt.mpr hlate)

variable {marks : ProjectMarks} {past body earlier : List Moment} {first last m : Moment}

/-- The latest event of a run. Only frames follow it. -/
theorem run_last (h : TuiRun marks (m :: earlier) s) :
    TuiRun marks earlier m.before ∧ (handle m.event m.ftxui m.found).Path m.calls ((), m.after) ∧
      Idle m.after s ∧ s.status = m.after.status := by
  generalize hpast : m :: earlier = past at h
  induction h with
  | start hstart => cases hpast
  | event hrun hpath ih =>
    obtain ⟨rfl, rfl⟩ := List.cons.inj hpast
    exact ⟨hrun, hpath, .refl _, rfl⟩
  | frame helpScroll detailScroll hrun ih =>
    obtain ⟨hbefore, hpath, hidle, hstatus⟩ := ih hpast
    exact ⟨hbefore, hpath, hidle.trans (frame_idle ..), (frame_status ..).trans hstatus⟩

theorem run_pasting (h : TuiRun marks (body ++ first :: past) s) (hheld : first.before.heldKeySince = none)
    (hfirst : first.event = .pasteStart) (hbody : ∀ m ∈ body, m.event.isPasteInput = true)
    (hquiet : first.before.ignoreKeysUntil ≤ first.at) :
    Pasting first.before (pastedText body) s ∧ ∀ m ∈ body ++ [first], m.calls = [] ∧
    Inert first.before m.after := by
  induction body generalizing s with
  | nil =>
    obtain ⟨-, hpath, hidle, -⟩ := run_last h
    rw [hfirst] at hpath
    obtain ⟨hcalls, t, hstarted, hafter⟩ := path_handle_start (s := first.found) hheld hquiet hpath
    have hkept : Kept first.before first.after := by
      refine Kept.trans (t := first.found) ⟨rfl, rfl, rfl, rfl, rfl, rfl⟩ (hstarted.toKept.trans ?_)
      rw [hafter]
      exact ⟨rfl, rfl, rfl, rfl, rfl, rfl⟩
    have hpasting : Pasting first.before [] first.after := by
      refine ⟨hkept, ?_, ?_, ?_⟩
      · rw [hafter]
        rfl
      · rw [hafter]
        rfl
      · have hlate : t.ignoreKeysUntil ≤ t.now := by
          rw [hstarted.quiet, hstarted.now]
          exact hquiet
        rw [hafter]
        exact hlate
    refine ⟨hpasting.idle hidle, fun m hm => ?_⟩
    obtain rfl := List.mem_singleton.mp hm
    exact ⟨hcalls, hkept.inert⟩
  | cons m body ih =>
    obtain ⟨hrun, hpath, hidle, -⟩ := run_last h
    obtain ⟨hm, hbody⟩ := List.forall_mem_cons.mp hbody
    obtain ⟨hpasting, hall⟩ := ih hrun hbody
    obtain ⟨hcalls, hafter⟩ := hpasting.found.input hheld hm hpath
    exact ⟨hafter.idle hidle, List.forall_mem_cons.mpr ⟨⟨hcalls, hafter.inert⟩, hall⟩⟩

theorem Swallowing.found {s₀ : Tui} {deadline : Time} (h : Swallowing s₀ deadline m.before) :
    Swallowing s₀ deadline m.found :=
  ⟨h.toKept.trans ⟨rfl, rfl, rfl, rfl, rfl, rfl⟩, h.quiet⟩

/-- Handled without any effect but a message. -/
def Drops (s₀ : Tui) (m : Moment) : Prop :=
  m.calls = [] ∧ Inert s₀ m.after ∧ (m.event ≠ .custom → containsText m.after.status kIgnored = true)

theorem run_swallowing (h : TuiRun marks (body ++ first :: past) s) (hheld : first.before.heldKeySince = none)
    (hfirst : first.event = .pasteStart) (hbody : ∀ m ∈ body, m.event.isPasteInput = true ∨ m.event = .pasteEnd)
    (hquiet : first.at < first.before.ignoreKeysUntil) (hswallowed : Swallowed (body ++ [first])) :
    (∃ key keys, (body ++ [first]).filter (·.event ≠ .custom) = key :: keys ∧
      Swallowing first.before (key.at + kAfterSubmitQuiet) s) ∧ ∀ m ∈ body ++ [first], Drops first.before m := by
  induction body generalizing s with
  | nil =>
    obtain ⟨-, hpath, hidle, -⟩ := run_last h
    have hstart : Swallowing first.before first.before.ignoreKeysUntil first.found :=
      ⟨⟨rfl, rfl, rfl, rfl, rfl, rfl⟩, rfl⟩
    obtain ⟨hcalls, hafter, hreports⟩ := hstart.key hheld hquiet (Or.inr (Or.inl hfirst)) hpath
    refine ⟨⟨first, [], by simp [hfirst], hafter.idle hidle⟩, fun m hm => ?_⟩
    obtain rfl := List.mem_singleton.mp hm
    exact ⟨hcalls, hafter.inert, fun _ => hreports⟩
  | cons m body ih =>
    obtain ⟨hrun, hpath, hidle, -⟩ := run_last h
    obtain ⟨hm, hbody⟩ := List.forall_mem_cons.mp hbody
    by_cases hcustom : m.event = .custom
    · have hsame : (m :: (body ++ [first])).filter (·.event ≠ .custom) =
          (body ++ [first]).filter (·.event ≠ .custom) := by
        simp [hcustom]
      rw [Swallowed, List.cons_append, hsame] at hswallowed
      obtain ⟨⟨key, keys, hkeys, hstate⟩, hall⟩ := ih hrun hbody hswallowed
      rw [hcustom] at hpath
      obtain ⟨hcalls, hafter⟩ := hstate.found.tick hheld hpath
      exact ⟨⟨key, keys, hsame.trans hkeys, hafter.idle hidle⟩,
        List.forall_mem_cons.mpr ⟨⟨hcalls, hafter.inert, fun h => absurd hcustom h⟩, hall⟩⟩
    · have hcons : (m :: (body ++ [first])).filter (·.event ≠ .custom) =
          m :: (body ++ [first]).filter (·.event ≠ .custom) := by
        simp [hcustom]
      rw [Swallowed, List.cons_append, hcons] at hswallowed
      obtain ⟨⟨key, keys, hkeys, hstate⟩, hall⟩ := ih hrun hbody hswallowed.of_cons
      rw [hkeys] at hswallowed
      have hearly : m.at < key.at + kAfterSubmitQuiet := (List.isChain_cons_cons.mp hswallowed).1
      have hevent : m.event.isPasteInput = true ∧ m.event ≠ .custom ∨ m.event = .pasteStart ∨
          m.event = .pasteEnd :=
        hm.imp (⟨·, hcustom⟩) Or.inr
      obtain ⟨hcalls, hafter, hreports⟩ := hstate.found.key hheld hearly hevent hpath
      exact ⟨⟨m, _, hcons, hafter.idle hidle⟩,
        List.forall_mem_cons.mpr ⟨⟨hcalls, hafter.inert, fun _ => hreports⟩, hall⟩⟩

/-- A paste that only ends up in the input with the focus. -/
structure PasteInert (s₀ : Tui) (pasted : Bytes) (moments : List Moment) (s : Tui) : Prop where
  quiet : ∀ m ∈ moments, m.calls = [] ∧ Inert s₀ m.after
  inert : Inert s₀ s
  outcome : PasteOutcome s₀ pasted s

/-- A paste never acts as commands if its start marker comes after the quiet
period, or if the quiet period swallows all of it. -/
theorem run_paste (h : TuiRun marks (last :: (body ++ first :: past)) s)
    (hheld : first.before.heldKeySince = none)
    (hfirst : first.event = .pasteStart) (hbody : ∀ m ∈ body, m.event.isPasteInput = true)
    (hlast : last.event = .pasteEnd)
    (hwhen : first.before.ignoreKeysUntil ≤ first.at ∨ Swallowed (last :: (body ++ [first]))) :
    PasteInert first.before (pastedText body) (last :: (body ++ [first])) s := by
  obtain ⟨hrun, hpath, hidle, hstatus⟩ := run_last h
  by_cases hquiet : first.before.ignoreKeysUntil ≤ first.at
  · obtain ⟨hpasting, hall⟩ := run_pasting hrun hheld hfirst hbody hquiet
    rw [hlast] at hpath
    obtain ⟨hcalls, hinert, houtcome⟩ := hpasting.found.finish hheld hpath
    exact ⟨List.forall_mem_cons.mpr ⟨⟨hcalls, hinert⟩, hall⟩, hinert.trans hidle.inert,
      houtcome.idle hidle hstatus⟩
  · have hevents : ∀ m ∈ last :: body, m.event.isPasteInput = true ∨ m.event = .pasteEnd :=
      List.forall_mem_cons.mpr ⟨Or.inr hlast, fun m hm => Or.inl (hbody m hm)⟩
    obtain ⟨⟨_, _, _, hstate⟩, hall⟩ :=
      @run_swallowing _ _ past (last :: body) first h hheld hfirst hevents (Nat.lt_of_not_le hquiet)
        (hwhen.resolve_left hquiet)
    have hreports := (hall last List.mem_cons_self).2.2 (by simp [hlast])
    rw [← hstatus] at hreports
    exact ⟨fun m hm => ⟨(hall m hm).1, (hall m hm).2.1⟩, hstate.inert,
      .refused hstate.filter hstate.form (Or.inr (Or.inr (Or.inr hreports)))⟩

def sampleStarted : Moment := played sampleAnswer kInfoFor (opened sampleAnswer) .pasteStart

def samplePasted : Moment := played sampleAnswer 0 sampleStarted.after (.key "q")

def sampleEnded : Moment := played sampleAnswer 0 samplePasted.after .pasteEnd

theorem run_paste_sample :
    PasteInert sampleStarted.before (pastedText [samplePasted]) [sampleEnded, samplePasted, sampleStarted]
      sampleEnded.after := by
  have hstarted := run_played (run_opened sampleAnswer) sampleAnswer kInfoFor .pasteStart
  have hpasted := run_played hstarted sampleAnswer 0 (.key "q")
  have hended := run_played hpasted sampleAnswer 0 .pasteEnd
  have hbody : ∀ m ∈ [samplePasted], m.event.isPasteInput = true := by
    simp [samplePasted, played, TuiEvent.isPasteInput, TuiEvent.key, TuiEvent.isCharacter]
  exact @run_paste _ _ [] [samplePasted] sampleStarted sampleEnded hended rfl rfl hbody rfl (Or.inl (by decide))

/-! Pasted 50 ms after the Enter that ends the filter, a `q` that comes 200 ms
later quits the TUI. -/

def noAnswer (q : Call) : Answer q := ⟨.error (.error (.runtimeError (text "daemon not running"))), 0⟩

def filterEnded : Moment := played noAnswer kPasteBurst
    (played noAnswer 0 (opened noAnswer) (.key "/")).after .return

def lostStart : Moment := played noAnswer kPasteBurst filterEnded.after .pasteStart

def loneQuit : Moment := played noAnswer (milliseconds 200) lostStart.after (.key "q")

def loneEnd : Moment := played noAnswer 0 loneQuit.after .pasteEnd

theorem paste_acts_as_commands :
    ¬∀ (marks : ProjectMarks) (past body : List Moment) (first last : Moment) (s : Tui),
      TuiRun marks (last :: (body ++ first :: past)) s → first.before.heldKeySince = none →
        first.event = .pasteStart → (∀ m ∈ body, m.event.isPasteInput = true) → last.event = .pasteEnd →
          PasteInert first.before (pastedText body) (last :: (body ++ [first])) s := by
  intro h
  have hslash := run_played (run_opened noAnswer) noAnswer 0 (.key "/")
  have henter := run_played hslash noAnswer kPasteBurst .return
  have hstart := run_played henter noAnswer kPasteBurst .pasteStart
  have hquit := run_played hstart noAnswer (milliseconds 200) (.key "q")
  have hend := run_played hquit noAnswer 0 .pasteEnd
  have hbody : ∀ m ∈ [loneQuit], m.event.isPasteInput = true := by
    simp [loneQuit, played, TuiEvent.isPasteInput, TuiEvent.key, TuiEvent.isCharacter]
  have hinert := (h _ _ [loneQuit] lostStart loneEnd _ hend (by decide) rfl hbody rfl).inert
  have hexited : loneEnd.after.exited = true := by decide
  have hrunning : lostStart.before.exited = false := by decide
  exact absurd (hinert.exited.symm.trans hexited) (by simp [hrunning])

end Tui

end Secretov
