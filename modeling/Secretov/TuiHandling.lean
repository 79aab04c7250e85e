import Secretov.TuiSteps

/-! What handling one event can do to an open question, to an open form, to the
store and to a value on show. -/

namespace Secretov

namespace Tui

def isRevealKey (event : TuiEvent) : Bool := event = .key "r" ∨ event = .return ∨ event = .key " "

variable {s t s' : Tui} {event : TuiEvent} {calls : List (Dialogue.Exchange Answer)} {ftxui : Ftxui}

/-- The calls that write, and what the user has done for them. -/
inductive Writes (event : TuiEvent) (s : Tui) : List (Dialogue.Exchange Answer) → Prop
  | none {calls : List (Dialogue.Exchange Answer)} : ReadOnly calls → Writes event s calls
  | edit {calls : List (Dialogue.Exchange Answer)} : s.mode = .edit → OnlySets (s.currentKey.getD []) calls →
      Writes event s calls
  | add {answer : Answer .list} {keys : List Bytes} {calls : List (Dialogue.Exchange Answer)} : s.mode = .add →
      answer.result = .ok keys → trimKeyName s.form.addName ∉ keys →
      keyNameError (trimKeyName s.form.addName) = .none → OnlySets (trimKeyName s.form.addName) calls →
      Writes event s (⟨.list, answer⟩ :: calls)
  | overwrite {calls : List (Dialogue.Exchange Answer)} : s.mode = .confirmOverwrite → isYes event = true →
      OnlySets (trimKeyName s.form.addName) calls → Writes event s calls
  | delete {answer : Answer (.remove (s.currentKey.getD []))} {calls : List (Dialogue.Exchange Answer)} :
      s.mode = .confirmDelete → isYes event = true → ReadOnly calls →
      Writes event s (⟨.remove (s.currentKey.getD []), answer⟩ :: calls)

/-- The name in the form is one that the daemon has just listed. -/
def Asks (s : Tui) (calls : List (Dialogue.Exchange Answer)) : Prop :=
  ∃ (answer : Answer .list) (keys : List Bytes), calls = [⟨.list, answer⟩] ∧ answer.result = .ok keys ∧
    trimKeyName s.form.addName ∈ keys ∧ keyNameError (trimKeyName s.form.addName) = none

/-- A value is on show, under the key that it has just been fetched for. -/
def Shows (calls : List (Dialogue.Exchange Answer)) (s' : Tui) : Prop :=
  ∃ (key value : Bytes) (answer : Answer (.get key)), calls = [⟨.get key, answer⟩] ∧ answer.result = .ok value ∧
    s'.revealed = some value ∧ s'.selectionId = key ∧ s'.revealedAt = s'.now

/-- What handling an event comes to. -/
structure Handles (event : TuiEvent) (s : Tui) (calls : List (Dialogue.Exchange Answer)) (s' : Tui) : Prop where
  toDelete : s'.mode = .confirmDelete →
    s.mode = .confirmDelete ∧ s'.tree = s.tree ∨
      event = .key "d" ∧ s.mode = .normal ∧ s'.tree = s.tree ∧ s'.currentKey.isSome = true
  toEdit : s'.mode = .edit →
    s.mode = .edit ∧ s'.tree = s.tree ∧ s'.activeTab = s.activeTab ∨
      event = .key "e" ∧ s.mode = .normal ∧ Loads calls s'
  toOverwrite : s'.mode = .confirmOverwrite →
    s'.form.addName = s.form.addName ∧ (s.mode = .confirmOverwrite ∨ s.mode = .add ∧ Asks s calls)
  writes : Writes event s calls
  now : s.now ≤ s'.now
  shown : Hides s s' ∧ (isRevealKey event = true → ¬Gets calls) ∨ isRevealKey event = true ∧ Shows calls s'

namespace Handles

/-- Neither a question nor the edit form is open afterwards. -/
theorem closed (hdelete : s'.mode ≠ .confirmDelete) (hedit : s'.mode ≠ .edit)
    (hoverwrite : s'.mode ≠ .confirmOverwrite)
    (hwrites : Writes event s calls) (hhides : Hides s s') (hgets : isRevealKey event = true → ¬Gets calls) :
    Handles event s calls s' :=
  ⟨fun h => absurd h hdelete, fun h => absurd h hedit, fun h => absurd h hoverwrite, hwrites, hhides.now,
    Or.inl ⟨hhides, hgets⟩⟩

/-- The same where no call has been made. -/
theorem silent (hdelete : s'.mode ≠ .confirmDelete) (hedit : s'.mode ≠ .edit)
    (hoverwrite : s'.mode ≠ .confirmOverwrite) (hhides : Hides s s') : Handles event s [] s' :=
  .closed hdelete hedit hoverwrite (.none readOnly_nil) hhides fun _ => not_gets_nil

theorem still (h : Still s s') : Handles event s [] s' where
  toDelete hmode := Or.inl ⟨h.mode.symm.trans hmode, h.tree⟩
  toEdit hmode := Or.inl ⟨h.mode.symm.trans hmode, h.tree, h.activeTab⟩
  toOverwrite hmode := ⟨h.addName, Or.inl (h.mode.symm.trans hmode)⟩
  writes := .none readOnly_nil
  now := h.hides.now
  shown := Or.inl ⟨h.hides, fun _ => not_gets_nil⟩

theorem after (h : Still s t) (h' : Handles event t calls s') : Handles event s calls s' where
  toDelete hmode := by
    rw [← h.mode, ← h.tree]
    exact h'.toDelete hmode
  toEdit hmode := by
    rw [← h.mode, ← h.tree, ← h.activeTab]
    exact h'.toEdit hmode
  toOverwrite hmode := by
    rw [← h.mode, ← h.addName]
    obtain ⟨hname, hasks⟩ := h'.toOverwrite hmode
    refine ⟨hname, hasks.imp_right (And.imp_right ?_)⟩
    unfold Asks
    rw [h.addName]
    exact id
  writes := by
    have hkey := h.currentKey
    cases h'.writes with
    | none hread => exact .none hread
    | edit hmode hsets => exact .edit (h.mode.symm.trans hmode) (hkey ▸ hsets)
    | add hmode hresult hnew hname hsets =>
      rw [h.addName] at hnew hname hsets
      exact .add (h.mode.symm.trans hmode) hresult hnew hname hsets
    | overwrite hmode hyes hsets => exact .overwrite (h.mode.symm.trans hmode) hyes (h.addName ▸ hsets)
    | @delete answer rest hmode hyes hread =>
      revert answer
      rw [hkey]
      exact fun answer => .delete (h.mode.symm.trans hmode) hyes hread
  now := h.hides.now.trans h'.now
  shown := h'.shown.imp_left (And.imp_left h.hides.trans)

/-- Nothing more happens, but that a value on show may go. -/
theorem before (h : Handles event s calls t) (hmode : s'.mode = t.mode) (htree : s'.tree = t.tree)
    (htab : s'.activeTab = t.activeTab) (hform : s'.form = t.form) (hhides : Hides s s')
    (hgets : ¬Gets calls) : Handles event s calls s' where
  toDelete hopen := by
    rw [Tui.currentKey, htree]
    exact h.toDelete (hmode.symm.trans hopen)
  toEdit hopen := by
    unfold Loads
    rw [Tui.currentKey, htree, htab, hform]
    exact h.toEdit (hmode.symm.trans hopen)
  toOverwrite hopen := by
    rw [hform]
    exact h.toOverwrite (hmode.symm.trans hopen)
  writes := h.writes
  now := hhides.now
  shown := Or.inl ⟨hhides, fun _ => hgets⟩

/-- The selection moves only under the filter, and a name is edited only in a form. -/
theorem idle (h : Steady s s') (htree : s.mode ≠ .filter → s'.tree = s.tree) (htab : s'.activeTab = s.activeTab)
    (hname : s.mode ≠ .confirmOverwrite ∨ s'.form.addName = s.form.addName) : Handles event s [] s' where
  toDelete hopen := by
    have hmode := h.mode.symm.trans hopen
    exact Or.inl ⟨hmode, htree (by simp [hmode])⟩
  toEdit hopen := by
    have hmode := h.mode.symm.trans hopen
    exact Or.inl ⟨hmode, htree (by simp [hmode]), htab⟩
  toOverwrite hopen := by
    have hmode := h.mode.symm.trans hopen
    exact ⟨hname.resolve_left (fun h => h hmode), Or.inl hmode⟩
  writes := .none readOnly_nil
  now := h.hides.now
  shown := Or.inl ⟨h.hides, fun _ => not_gets_nil⟩

end Handles

theorem path_consume {f : Tui → Tui} {b : Bool} (h : (consume f s).Path calls (b, s')) :
    calls = [] ∧ b = true ∧ s' = f s := by
  obtain ⟨rfl, rfl, rfl⟩ := path_modify_pure h
  exact ⟨rfl, rfl, rfl⟩

theorem path_consumeM {m : TuiM Unit} {b : Bool} (h : (consumeM m s).Path calls (b, s')) :
    b = true ∧ (m s).Path calls ((), s') := by
  obtain ⟨first, u, t, rest, rfl, hm, hpure⟩ := StateT.path_bind.mp h
  obtain ⟨rfl, rfl, rfl⟩ := StateT.path_pure.mp hpure
  rw [List.append_nil]
  exact ⟨rfl, hm⟩

theorem currentKey_selectedId {key : Bytes} (h : s.currentKey = some key) : s.selectedId = key := by
  obtain ⟨row, hrow, rfl⟩ := Option.map_eq_some_iff.mp h
  rw [selectedId, (Option.filter_eq_some_iff.mp hrow).1]
  rfl

theorem Reveals.now (h : Reveals s calls s') : s.now ≤ s'.now := by
  obtain ⟨_, _, _, -, -, -, -, -, -, hnow⟩ := h
  exact hnow

theorem Reveals.shows (hsynced : s.selectionId = s.selectedId) (h : Reveals s calls s') : Shows calls s' := by
  obtain ⟨key, value, answer, hkey, hcalls, hresult, hrevealed, hat, hid, -⟩ := h
  exact ⟨key, value, answer, hcalls, hresult, hrevealed,
    hid.trans (hsynced.trans (currentKey_selectedId hkey)), hat⟩

/-- A normal-mode event that leaves the mode alone, or moves to one without a question. -/
theorem handles_normal (hmode : s.mode = .normal) (h : Steady s s') (hread : ReadOnly calls)
    (hgets : isRevealKey event = true → ¬Gets calls) : Handles event s calls s' := by
  have hnormal := h.mode.trans hmode
  exact .closed (by simp [hnormal]) (by simp [hnormal]) (by simp [hnormal]) (.none hread) h.hides hgets

theorem handles_silent (hmode : s.mode = .normal) (h : Steady s s') : Handles event s [] s' :=
  handles_normal hmode h readOnly_nil fun _ => not_gets_nil

theorem path_ite {c : Prop} [Decidable c] {m n : TuiM Bool} {b : Bool}
    (h : ((if c then m else n) s).Path calls (b, s')) :
    c ∧ (m s).Path calls (b, s') ∨ (n s).Path calls (b, s') := by
  by_cases hc : c
  · rw [if_pos hc] at h
    exact Or.inl ⟨hc, h⟩
  · rw [if_neg hc] at h
    exact Or.inr h

theorem path_consume_steady {f : Tui → Tui} {b : Bool} (hmode : s.mode = .normal) (hf : Steady s (f s))
    (h : (consume f s).Path calls (b, s')) : Handles event s calls s' := by
  obtain ⟨rfl, -, rfl⟩ := path_consume h
  exact handles_silent hmode hf

theorem isRevealKey_open (h : event = .return ∨ event = .key " ") : isRevealKey event = true := by
  rcases h with rfl | rfl <;> rfl

theorem path_normalEvent {consumed : Bool} (hmode : s.mode = .normal) (hsynced : s.selectionId = s.selectedId)
    (h : (normalEvent event ftxui s).Path calls (consumed, s')) : Handles event s calls s' := by
  have hreveals {u : Unit} (hkey : isRevealKey event = true) (h : (toggleReveal s).Path calls (u, s')) :
      Handles event s calls s' := by
    obtain ⟨hread, hsame, ⟨hhides, hgets⟩ | hreveals⟩ := path_toggleReveal h
    · exact handles_normal hmode ⟨hsame, hhides⟩ hread fun _ => hgets
    · have hnormal := hsame.trans hmode
      refine ⟨by simp [hnormal], by simp [hnormal], by simp [hnormal], .none hread, hreveals.now,
        Or.inr ⟨hkey, ?_⟩⟩
      exact hreveals.shows hsynced
  rcases path_ite h with ⟨-, h⟩ | h
  · exact path_consume_steady hmode (clickRow_steady ..) h
  rcases path_ite h with ⟨-, h⟩ | h
  · exact path_consume_steady hmode ⟨rfl, .of_eq rfl rfl rfl rfl⟩ h
  rcases path_ite h with ⟨-, h⟩ | h
  · obtain ⟨rfl, -, rfl⟩ := path_consume h
    exact .silent nofun nofun nofun (.of_eq rfl rfl rfl rfl)
  rcases path_ite h with ⟨-, h⟩ | h
  · obtain ⟨rfl, -, rfl⟩ := path_consume h
    exact .silent nofun nofun nofun (.of_eq rfl rfl rfl rfl)
  rcases path_ite h with ⟨-, h⟩ | h
  · exact path_consume_steady hmode (clearFilter_steady s) h
  rcases path_ite h with ⟨-, h⟩ | h
  · obtain ⟨hread, hgets, hsame, hhides⟩ := path_reload (path_consumeM h).2
    exact handles_normal hmode ⟨hsame, hhides⟩ hread fun _ => hgets
  rcases path_ite h with ⟨-, h⟩ | h
  · obtain ⟨rfl, -, rfl⟩ := path_consume h
    exact .silent nofun nofun nofun (.of_none le_rfl rfl)
  rcases path_ite h with ⟨he, h⟩ | h
  · obtain ⟨hread, hhides, hedit⟩ := path_startEdit (path_consumeM h).2
    have hgets : isRevealKey event = true → ¬Gets calls := by
      rw [he]
      nofun
    rcases hedit with hsame | hnormal | ⟨hedit, hloads⟩
    · exact handles_normal hmode ⟨hsame, hhides⟩ hread hgets
    · exact handles_normal hmode ⟨hnormal.trans hmode.symm, hhides⟩ hread hgets
    · exact ⟨by simp [hedit], fun _ => Or.inr ⟨he, hmode, hloads⟩, by simp [hedit], .none hread, hhides.now,
        Or.inl ⟨hhides, hgets⟩⟩
  rcases path_ite h with ⟨hc, h⟩ | h
  · obtain ⟨hread, hsame, hhides⟩ := path_copyValue (path_consumeM h).2
    refine handles_normal hmode ⟨hsame, hhides⟩ hread ?_
    rw [hc]
    nofun
  rcases path_ite h with ⟨hr, h⟩ | h
  · exact hreveals (by rw [hr]; rfl) (path_consumeM h).2
  rcases path_ite h with ⟨hd, h⟩ | h
  · obtain ⟨rfl, -, rfl⟩ := path_consume h
    unfold askDelete
    rcases needKey_cases (text "delete") s with ⟨key, hkey, hneed⟩ | ⟨message, hneed⟩
    · rw [hneed]
      exact ⟨fun _ => Or.inr ⟨hd, hmode, rfl, Option.isSome_of_eq_some hkey⟩, nofun, nofun, .none readOnly_nil,
        le_rfl, Or.inl ⟨.of_eq rfl rfl rfl rfl, fun _ => not_gets_nil⟩⟩
    · rw [hneed]
      exact handles_silent hmode (say_still ..).steady
  rcases path_ite h with ⟨hopen, h⟩ | h
  · have h := path_get_bind (path_consumeM h).2
    split at h
    · exact hreveals (isRevealKey_open hopen) h
    · obtain ⟨rfl, rfl⟩ := path_modify h
      exact handles_silent hmode (fold_steady ..)
  rcases path_ite h with ⟨-, h⟩ | h
  · exact path_consume_steady hmode (.withTree s _) h
  rcases path_ite h with ⟨-, h⟩ | h
  · exact path_consume_steady hmode (.withTree s _) h
  rcases path_ite h with ⟨-, h⟩ | h
  · exact path_consume_steady hmode (goLeft_steady s) h
  rcases path_ite h with ⟨-, h⟩ | h
  · exact path_consume_steady hmode (goRight_steady s) h
  rcases path_ite h with ⟨-, h⟩ | h
  · exact path_consume_steady hmode ⟨rfl, .of_eq rfl rfl rfl rfl⟩ h
  rcases path_ite h with ⟨-, h⟩ | h
  · exact path_consume_steady hmode ⟨rfl, .of_eq rfl rfl rfl rfl⟩ h
  obtain ⟨rfl, -, rfl⟩ := StateT.path_pure.mp h
  exact handles_silent hmode (.refl s)

theorem passOn_menu (h : s.mode = .normal ∨ s.mode = .filter) : Handles event s [] (s.passOn ftxui) := by
  have hsteady : Steady s (s.passOn ftxui) := by
    unfold passOn
    split
    · exact menuMoves_steady ..
    · exact ⟨rfl, .of_eq rfl rfl rfl rfl⟩
  rcases h with h | h <;>
    exact .silent (by simp [hsteady.mode, h]) (by simp [hsteady.mode, h]) (by simp [hsteady.mode, h])
      hsteady.hides

/-- While the form tab is active, what is passed on only edits the form. -/
theorem passOn_form (hmode : s.mode = .add ∨ s.mode = .edit) (hactive : s.mode = .edit → s.activeTab = 1) :
    Handles event s [] (s.passOn ftxui) := by
  rcases hmode with h | h
  · have hsteady : Steady s (s.passOn ftxui) := by
      unfold passOn
      split
      · exact menuMoves_steady ..
      · exact ⟨rfl, .of_eq rfl rfl rfl rfl⟩
    exact .silent (by simp [hsteady.mode, h]) (by simp [hsteady.mode, h]) (by simp [hsteady.mode, h])
      hsteady.hides
  · have hpass : s.passOn ftxui = { s with form := ftxui.edit s.form } := if_neg (by simp [hactive h])
    rw [hpass]
    exact ⟨by simp [h], fun _ => Or.inl ⟨h, rfl, rfl⟩, by simp [h], .none readOnly_nil, le_rfl,
      Or.inl ⟨.of_eq rfl rfl rfl rfl, fun _ => not_gets_nil⟩⟩

theorem setFilter_steady (filter : Bytes) (s : Tui) : Steady s (applyFilter { s with filter }) := by
  refine Steady.trans ?_ (applyFilter_steady _)
  exact ⟨rfl, .of_eq rfl rfl rfl rfl⟩

theorem path_filterEvent {consumed : Bool} (hmode : s.mode = .filter)
    (h : (filterEvent event s).Path calls (consumed, s')) :
    calls = [] ∧ Hides s s' ∧ (s'.mode = .filter ∨ s'.mode = .normal) ∧ (consumed = false → s' = s) := by
  unfold filterEvent at h
  split at h
  · obtain ⟨rfl, rfl, rfl⟩ := path_consume h
    exact ⟨rfl, .of_eq rfl rfl rfl rfl, Or.inr rfl, nofun⟩
  · obtain ⟨rfl, rfl, rfl⟩ := path_consume h
    exact ⟨rfl, (clearFilter_steady s).hides.trans (.of_eq rfl rfl rfl rfl), Or.inr rfl, nofun⟩
  · obtain ⟨rfl, rfl, rfl⟩ := path_consume h
    exact ⟨rfl, (setFilter_steady _ s).hides, Or.inl ((setFilter_steady _ s).mode.trans hmode), nofun⟩
  · obtain ⟨rfl, rfl, rfl⟩ := path_consume h
    exact ⟨rfl, (setFilter_steady _ s).hides, Or.inl ((setFilter_steady _ s).mode.trans hmode), nofun⟩
  · obtain ⟨rfl, rfl, rfl⟩ := path_consume h
    exact ⟨rfl, (setFilter_steady _ s).hides, Or.inl ((setFilter_steady _ s).mode.trans hmode), nofun⟩
  · obtain ⟨rfl, rfl, rfl⟩ := StateT.path_pure.mp h
    exact ⟨rfl, .refl s, Or.inl hmode, fun _ => rfl⟩

/-- The form's own keys edit the form, and Escape closes it. -/
def EditsForm (s s' : Tui) : Prop :=
  s'.tree = s.tree ∧ Hides s s' ∧ (s'.mode = s.mode ∧ s'.activeTab = s.activeTab ∨ s'.mode = .normal)

theorem editsForm_of_form {form : Form} : EditsForm s { s with form } :=
  ⟨rfl, .of_eq rfl rfl rfl rfl, Or.inl ⟨rfl, rfl⟩⟩

theorem editFocused_editsForm (edit : Bytes → Int → Bytes × Int) (s : Tui) :
    EditsForm s (s.editFocused edit) := by
  unfold editFocused
  split <;> exact editsForm_of_form

theorem path_formEvent {consumed : Bool} (h : (formEvent event s).Path calls (consumed, s')) :
    calls = [] ∧ EditsForm s s' ∧ (consumed = false → s' = s) := by
  have h := path_get_bind h
  have hconsumed {f : Tui → Tui} (hf : EditsForm s (f s)) (h : (consume f s).Path calls (consumed, s')) :
      calls = [] ∧ EditsForm s s' ∧ (consumed = false → s' = s) := by
    obtain ⟨rfl, rfl, rfl⟩ := path_consume h
    exact ⟨rfl, hf, nofun⟩
  have hkept {f : Tui → Tui} (hf : Still s (f s)) (h : (consume f s).Path calls (consumed, s')) :
      calls = [] ∧ EditsForm s s' ∧ (consumed = false → s' = s) :=
    hconsumed ⟨hf.tree, hf.hides, Or.inl ⟨hf.mode, hf.activeTab⟩⟩ h
  have hpassed (h : ((pure false : TuiM Bool) s).Path calls (consumed, s')) :
      calls = [] ∧ EditsForm s s' ∧ (consumed = false → s' = s) := by
    obtain ⟨rfl, rfl, rfl⟩ := StateT.path_pure.mp h
    exact ⟨rfl, ⟨rfl, .refl s, Or.inl ⟨rfl, rfl⟩⟩, fun _ => rfl⟩
  split at h
  · exact hconsumed ⟨rfl, .of_eq rfl rfl rfl rfl, Or.inr rfl⟩ h
  · split at h
    · exact hconsumed editsForm_of_form h
    · exact hkept ⟨rfl, rfl, rfl, rfl, .of_eq rfl rfl rfl rfl, id⟩ h
  · exact hkept ⟨rfl, rfl, rfl, rfl, .of_eq rfl rfl rfl rfl, id⟩ h
  · split at h
    · exact hkept ⟨rfl, rfl, rfl, rfl, .of_eq rfl rfl rfl rfl, id⟩ h
    · exact hpassed h
  · exact hconsumed (editFocused_editsForm ..) h
  · exact hconsumed (editFocused_editsForm ..) h
  · exact hconsumed (editFocused_editsForm ..) h
  · exact hconsumed (editFocused_editsForm ..) h
  · exact hpassed h

theorem helpEvent_hides (event : TuiEvent) (s : Tui) : Hides s (s.helpEvent event) ∧
    ((s.helpEvent event).mode = s.mode ∨ (s.helpEvent event).mode = .normal) := by
  unfold helpEvent
  dsimp only
  split
  · exact ⟨.of_eq rfl rfl rfl rfl, Or.inl rfl⟩
  · split
    · exact ⟨.of_eq rfl rfl rfl rfl, Or.inl rfl⟩
    · split
      · exact ⟨.of_eq rfl rfl rfl rfl, Or.inr rfl⟩
      · exact ⟨.refl s, Or.inl rfl⟩

theorem path_overwriteEvent {u : Unit} (hmode : s.mode = .confirmOverwrite)
    (h : (overwriteEvent event s).Path calls (u, s')) : Handles event s calls s' := by
  unfold overwriteEvent at h
  split at h
  · rename_i hyes
    obtain ⟨first, ok, t, rest, rfl, hsave, hrest⟩ := StateT.path_bind.mp (path_get_bind h)
    obtain ⟨hsets, hgets, hhides, hended⟩ := path_saveForm hsave
    rcases hended with ⟨rfl, hstill⟩ | ⟨rfl, hnormal⟩
    · obtain ⟨rfl, rfl⟩ := path_modify hrest
      rw [List.append_nil]
      exact .closed nofun nofun nofun (.overwrite hmode hyes hsets) (hhides.trans (.of_eq rfl rfl rfl rfl))
        fun _ => hgets
    · obtain ⟨rfl, -, rfl⟩ := StateT.path_pure.mp hrest
      rw [List.append_nil]
      exact .closed (by simp [hnormal]) (by simp [hnormal]) (by simp [hnormal])
        (.overwrite hmode hyes hsets) hhides fun _ => hgets
  · obtain ⟨rfl, rfl⟩ := path_modify h
    exact .silent nofun nofun nofun (.of_eq rfl rfl rfl rfl)

theorem path_deleteEvent {u : Unit} (hmode : s.mode = .confirmDelete)
    (h : (deleteEvent event s).Path calls (u, s')) : Handles event s calls s' := by
  unfold deleteEvent at h
  split at h
  · rename_i hyes
    obtain ⟨hnormal, hhides, answer, rest, rfl, hread⟩ := path_doDelete h
    exact .closed (by simp [hnormal]) (by simp [hnormal]) (by simp [hnormal]) (.delete hmode hyes hread) hhides
      fun _ => not_gets_cons nofun
  · obtain ⟨rfl, rfl⟩ := path_modify h
    exact .silent nofun nofun nofun (.of_eq rfl rfl rfl rfl)

theorem submitted_handles (hmode : s.mode = .add ∨ s.mode = .edit) (h : Submitted s calls s')
    (hhides : Hides s s') (hgets : ¬Gets calls) : Handles event s calls s' := by
  have hadd (hnot : s.mode ≠ .edit) : s.mode = .add := hmode.resolve_right hnot
  cases h with
  | refused hstill => exact .still hstill
  | edited hedit hsets hended =>
    rcases hended with hstill | hnormal
    · refine ⟨fun h => ?_, fun _ => Or.inl ⟨hedit, hstill.tree, hstill.activeTab⟩, fun h => ?_,
        .edit hedit hsets, hhides.now, Or.inl ⟨hhides, fun _ => hgets⟩⟩ <;> simp [hstill.mode, hedit] at h
    · exact .closed (by simp [hnormal]) (by simp [hnormal]) (by simp [hnormal]) (.edit hedit hsets) hhides
        fun _ => hgets
  | unlisted hnot hsame =>
    have h := hsame.trans (hadd hnot)
    exact .closed (by simp [h]) (by simp [h]) (by simp [h]) (.none (readOnly_cons rfl readOnly_nil)) hhides
      fun _ => hgets
  | @asked answer keys _ hnot hresult hmem hproblem hopen hform =>
    have hname : keyNameError (trimKeyName s.form.addName) = none := by
      rw [formProblem, if_pos (hadd hnot)] at hproblem
      exact (Option.or_eq_none_iff.mp hproblem).1
    exact ⟨by simp [hopen], by simp [hopen],
      fun _ => ⟨by rw [hform], Or.inr ⟨hadd hnot, answer, keys, rfl, hresult, hmem, hname⟩⟩,
      .none (readOnly_cons rfl readOnly_nil), hhides.now, Or.inl ⟨hhides, fun _ => hgets⟩⟩
  | added hnot hresult hnew hproblem hsets hended =>
    have hname : keyNameError (trimKeyName s.form.addName) = none := by
      rw [formProblem, if_pos (hadd hnot)] at hproblem
      exact (Option.or_eq_none_iff.mp hproblem).1
    have hclosed : s'.mode = .add ∨ s'.mode = .normal := hended.imp_left (Eq.trans · (hadd hnot))
    have hwrites : Writes event s (_ :: _) := .add (hadd hnot) hresult hnew hname hsets
    rcases hclosed with h | h <;> exact .closed (by simp [h]) (by simp [h]) (by simp [h])
      hwrites hhides fun _ => hgets

theorem insertIntoValue_still (inserted : Bytes) (s : Tui) : Still s (s.insertIntoValue inserted) :=
  ⟨rfl, rfl, rfl, rfl, .of_eq rfl rfl rfl rfl, id⟩

theorem finishPaste_handles (s : Tui) : Handles event s [] s.finishPaste := by
  unfold finishPaste
  dsimp only
  split
  · rename_i hmode
    split
    · exact .idle ⟨rfl, .of_eq rfl rfl rfl rfl⟩ (fun _ => rfl) rfl (Or.inr rfl)
    · have h := setFilter_steady (s.filter ++ s.pasteBuffer) s
      have hopen := h.mode.trans hmode
      exact .silent (by simp [hopen]) (by simp [hopen]) (by simp [hopen])
        (h.hides.trans (.of_eq rfl rfl rfl rfl))
  · split
    · exact .still ⟨rfl, rfl, rfl, rfl, .of_eq rfl rfl rfl rfl, id⟩
    · rename_i hmode
      have hform : s.mode ≠ .confirmOverwrite := by
        intro h
        simp [h] at hmode
      split
      · split
        · exact .still ⟨rfl, rfl, rfl, rfl, .of_eq rfl rfl rfl rfl, id⟩
        · exact .idle ⟨rfl, .of_eq rfl rfl rfl rfl⟩ (fun _ => rfl) rfl (Or.inl hform)
      · exact .still ⟨rfl, rfl, rfl, rfl, .of_eq rfl rfl rfl rfl, id⟩

theorem pasteInput_handles (s : Tui) : Handles event s [] (s.pasteInput event) := by
  have hkept : Still s { s with pasting := false } := ⟨rfl, rfl, rfl, rfl, .of_eq rfl rfl rfl rfl, id⟩
  unfold pasteInput
  split
  · exact .after hkept (finishPaste_handles _)
  · exact .still ⟨rfl, rfl, rfl, rfl, .of_eq rfl rfl rfl rfl, id⟩
  · exact .still ⟨rfl, rfl, rfl, rfl, .of_eq rfl rfl rfl rfl, id⟩
  · exact .still ⟨rfl, rfl, rfl, rfl, .of_eq rfl rfl rfl rfl, id⟩
  · exact .still ⟨rfl, rfl, rfl, rfl, .of_eq rfl rfl rfl rfl, id⟩
  · exact .still (.refl s)

theorem ignoreKey_eq (s : Tui) : ∃ status statusIsError statusAt, s.ignoreKey =
    { s with ignoreKeysUntil := s.now + kAfterSubmitQuiet, status, statusIsError, statusAt } := by
  unfold ignoreKey
  dsimp only
  split
  · exact ⟨_, _, _, rfl⟩
  · split <;> exact ⟨_, _, _, rfl⟩

@[simp] theorem expire_form (s : Tui) : s.expire.form = s.form := by
  unfold expire
  dsimp only
  split
  · split <;> split <;> rfl
  · split <;> rfl

theorem expire_quiet (s : Tui) : s.expire.now = s.now ∧ s.expire.ignoreKeysUntil = s.ignoreKeysUntil := by
  unfold expire
  dsimp only
  split
  · split <;> split <;> exact ⟨rfl, rfl⟩
  · split <;> exact ⟨rfl, rfl⟩

/-- A value on show at this time is not out of time. -/
def Fresh (time : Time) (s : Tui) : Prop := s.revealed.isSome = true → time < s.revealedAt + kRevealFor

theorem expire_isFresh (s : Tui) : Fresh s.expire.now s.expire := by
  intro h
  obtain ⟨value, hvalue⟩ := Option.isSome_iff_exists.mp h
  exact expire_fresh hvalue

theorem Handles.fresh (h : Handles event s calls s') (hfresh : Fresh s.now s) : Fresh s.now s' := by
  intro hsome
  rcases h.shown with ⟨hhides, -⟩ | ⟨-, _, _, _, -, -, -, -, hat⟩
  · rcases hhides.revealed with hnone | ⟨hrevealed, hat, -⟩
    · rw [hnone] at hsome
      cases hsome
    · rw [hat]
      exact hfresh (hrevealed ▸ hsome)
  · have hpos : 0 < kRevealFor := by decide
    rw [hat]
    exact h.now.trans_lt (Nat.lt_add_of_pos_right hpos)

/-- A held key that submits the form starts a quiet period, in which the next key is lost. -/
theorem path_releaseHeldKey {u : Unit} (h : (releaseHeldKey s).Path calls (u, s')) :
    Handles event s calls s' ∧ ¬Gets calls ∧ Hides s s' ∧
    (calls = [] ∧ Still s s' ∨ s'.now < s'.ignoreKeysUntil) := by
  have h := path_set_bind (path_get_bind h)
  have hstill : Still s { s with heldKeySince := none } := ⟨rfl, rfl, rfl, rfl, .of_eq rfl rfl rfl rfl, id⟩
  have hquiet (t : Tui) : t.now < t.now + kAfterSubmitQuiet := by
    have hpos : 0 < kAfterSubmitQuiet := by decide
    exact Nat.lt_add_of_pos_right hpos
  split at h
  · obtain ⟨rfl, rfl⟩ := path_modify h
    have hreset : Still s (if s.mode = .add then
        { s with form := { s.form with formField := 0 }, heldKeySince := none }
          else { s with heldKeySince := none }) := by
      split
      · exact ⟨rfl, rfl, rfl, rfl, .of_eq rfl rfl rfl rfl, id⟩
      · exact hstill
    exact ⟨.still hreset, not_gets_nil, hreset.hides, Or.inl ⟨rfl, hreset⟩⟩
  · dsimp only at h
    split at h
    · rename_i hmode
      obtain ⟨first, u, t, rest, rfl, hsubmit, hrest⟩ := StateT.path_bind.mp h
      obtain ⟨rfl, rfl⟩ := path_modify hrest
      obtain ⟨hsubmitted, hgets, hhides⟩ := path_submitForm hsubmit
      have hhandles : Handles event s _ t := .after hstill (submitted_handles hmode hsubmitted hhides hgets)
      have hhides := hstill.hides.trans hhides
      have hended : Hides s { t with ignoreKeysUntil := t.now + kAfterSubmitQuiet } :=
        hhides.trans (.of_eq rfl rfl rfl rfl)
      rw [List.append_nil]
      exact ⟨hhandles.before rfl rfl rfl rfl hended hgets, hgets, hended, Or.inr (hquiet t)⟩
    · obtain ⟨rfl, rfl⟩ := path_modify h
      have hended : Still s { s with heldKeySince := none, ignoreKeysUntil := s.now + kAfterSubmitQuiet } :=
        ⟨rfl, rfl, rfl, rfl, .of_eq rfl rfl rfl rfl, id⟩
      exact ⟨.still hended, not_gets_nil, hended.hides, Or.inr (hquiet s)⟩

theorem path_tick {u : Unit} (h : (tick s).Path calls (u, s')) : Handles event s calls s' ∧ Fresh s'.now s' := by
  have h := path_get_bind h
  split at h
  · obtain ⟨first, u, t, rest, rfl, hrelease, hrest⟩ := StateT.path_bind.mp h
    obtain ⟨rfl, rfl⟩ := path_modify hrest
    obtain ⟨hhandles, hgets, hhides, -⟩ := @path_releaseHeldKey _ _ event _ _ hrelease
    have hstill := expire_still t
    rw [List.append_nil]
    have hhandles := hhandles.before hstill.mode hstill.tree hstill.activeTab (expire_form t)
      (hhides.trans hstill.hides) hgets
    exact ⟨hhandles, expire_isFresh t⟩
  · obtain ⟨rfl, rfl⟩ := path_modify h
    exact ⟨.still (expire_still s), expire_isFresh s⟩

theorem path_settleHeldKey {u : Unit} (h : (settleHeldKey event s).Path calls (u, s')) :
    calls = [] ∧ Still s s' ∨
      event.isMouse = false ∧ s'.now < s'.ignoreKeysUntil ∧ Handles event s calls s' ∧ ¬Gets calls ∧
      Hides s s' := by
  have h := path_get_bind h
  split at h
  · rename_i hheld
    split at h
    · obtain ⟨rfl, rfl⟩ := path_set h
      have hstill : Still s { s with heldKeySince := none } := ⟨rfl, rfl, rfl, rfl, .of_eq rfl rfl rfl rfl, id⟩
      exact Or.inl ⟨rfl, hstill.trans (insertIntoValue_still ..)⟩
    · obtain ⟨hhandles, hgets, hhides, hstill | hquiet⟩ := @path_releaseHeldKey _ _ event _ _ h
      · exact Or.inl hstill
      · exact Or.inr ⟨by simpa using hheld.2, hquiet, hhandles, hgets, hhides⟩
  · obtain ⟨rfl, -, rfl⟩ := StateT.path_pure.mp h
    exact Or.inl ⟨rfl, .refl s⟩

/-- What an event reaches that the handler has not consumed. -/
def Passes (s : Tui) : Prop := s.mode = .normal ∨ s.mode = .filter ∨ s.mode = .add ∨ s.mode = .edit

theorem path_passed {c : Prop} [Decidable c] {m n : TuiM Bool} (hm : ∀ b, (m s).Path calls (b, s') → b = true)
    (h : ((if c then m else n) s).Path calls (false, s')) : (n s).Path calls (false, s') := by
  rcases path_ite h with ⟨-, h⟩ | h
  · cases hm _ h
  · exact h

theorem path_consume_true {f : Tui → Tui} (b : Bool) (h : (consume f s).Path calls (b, s')) : b = true :=
  (path_consume h).2.1

theorem path_consumeM_true {m : TuiM Unit} (b : Bool) (h : (consumeM m s).Path calls (b, s')) : b = true :=
  (path_consumeM h).1

theorem normalEvent_passed (h : (normalEvent event ftxui s).Path calls (false, s')) : calls = [] ∧ s' = s := by
  unfold normalEvent at h
  repeat first
    | replace h := path_passed path_consume_true h
    | replace h := path_passed path_consumeM_true h
  obtain ⟨rfl, -, rfl⟩ := StateT.path_pure.mp h
  exact ⟨rfl, rfl⟩

theorem editsForm_handles (hmode : s.mode = .add ∨ s.mode = .edit) (h : EditsForm s s') :
    Handles event s [] s' := by
  obtain ⟨htree, hhides, ⟨hsame, htab⟩ | hnormal⟩ := h
  · refine .idle ⟨hsame, hhides⟩ (fun _ => htree) htab (Or.inl ?_)
    rcases hmode with h | h <;> simp [h]
  · exact .silent (by simp [hnormal]) (by simp [hnormal]) (by simp [hnormal]) hhides

theorem path_modeEvent {consumed : Bool} (hsynced : s.selectionId = s.selectedId)
    (h : (modeEvent event ftxui s).Path calls (consumed, s')) :
    Handles event s calls s' ∧ (consumed = false → calls = [] ∧ s' = s ∧ Passes s) := by
  have h := path_get_bind h
  have hmouse (h : ((pure true : TuiM Bool) s).Path calls (consumed, s')) :
      Handles event s calls s' ∧ (consumed = false → calls = [] ∧ s' = s ∧ Passes s) := by
    obtain ⟨rfl, rfl, rfl⟩ := StateT.path_pure.mp h
    exact ⟨.still (.refl s), nofun⟩
  have hform (hmode : s.mode = .add ∨ s.mode = .edit) (h : (formEvent event s).Path calls (consumed, s')) :
      Handles event s calls s' ∧ (consumed = false → calls = [] ∧ s' = s ∧ Passes s) := by
    obtain ⟨rfl, hedits, hpassed⟩ := path_formEvent h
    exact ⟨editsForm_handles hmode hedits, fun hc => ⟨rfl, hpassed hc, Or.inr (Or.inr hmode)⟩⟩
  cases hmode : s.mode with
  | help =>
    rw [hmode] at h
    obtain ⟨rfl, rfl, rfl⟩ := path_consume h
    obtain ⟨hhides, hsame⟩ := helpEvent_hides event s
    have hopen := hsame.imp_left (Eq.trans · hmode)
    refine ⟨?_, nofun⟩
    rcases hopen with h | h <;>
      exact .silent (by simp [h]) (by simp [h]) (by simp [h]) hhides
  | filter =>
    rw [hmode] at h
    obtain ⟨rfl, hhides, hopen, hpassed⟩ := path_filterEvent hmode h
    refine ⟨?_, fun hc => ⟨rfl, hpassed hc, Or.inr (Or.inl hmode)⟩⟩
    rcases hopen with h | h <;>
      exact .silent (by simp [h]) (by simp [h]) (by simp [h]) hhides
  | normal =>
    rw [hmode] at h
    refine ⟨path_normalEvent hmode hsynced h, ?_⟩
    rintro rfl
    obtain ⟨rfl, rfl⟩ := normalEvent_passed h
    exact ⟨rfl, rfl, Or.inl hmode⟩
  | add =>
    rw [hmode] at h
    exact hform (Or.inl hmode) h
  | edit =>
    rw [hmode] at h
    exact hform (Or.inr hmode) h
  | confirmOverwrite =>
    rw [hmode] at h
    dsimp only at h
    split at h
    · exact hmouse h
    · obtain ⟨rfl, hanswer⟩ := path_consumeM h
      exact ⟨path_overwriteEvent hmode hanswer, nofun⟩
  | confirmDelete =>
    rw [hmode] at h
    dsimp only at h
    split at h
    · exact hmouse h
    · obtain ⟨rfl, hanswer⟩ := path_consumeM h
      exact ⟨path_deleteEvent hmode hanswer, nofun⟩

theorem path_liveEvent {consumed : Bool} (hsynced : s.selectionId = s.selectedId)
    (h : (liveEvent event ftxui s).Path calls (consumed, s')) :
    Handles event s calls s' ∧ (consumed = false → calls = [] ∧ Still s s' ∧ Passes s') := by
  have h := path_modify_bind h
  have hstill : Still s (if !event.isMouse ∨ event.isMousePress then { s with status := [] } else s) := by
    split
    · exact ⟨rfl, rfl, rfl, rfl, .of_eq rfl rfl rfl rfl, id⟩
    · exact .refl s
  revert hstill h
  generalize (if !event.isMouse ∨ event.isMousePress then { s with status := [] } else s) = t
  intro h hstill
  have hkept {f : Tui → Tui} (hf : Still t (f t)) (h : (consume f t).Path calls (consumed, s')) :
      Handles event s calls s' ∧ (consumed = false → calls = [] ∧ Still s s' ∧ Passes s') := by
    obtain ⟨rfl, rfl, rfl⟩ := path_consume h
    exact ⟨.after hstill (.still hf), nofun⟩
  split at h
  · exact hkept (say_still ..) h
  · split at h
    · exact hkept ⟨rfl, rfl, rfl, rfl, .of_eq rfl rfl rfl rfl, id⟩ h
    · have h := path_get_bind h
      split at h
      · obtain ⟨rfl, rfl, rfl⟩ := path_consume h
        exact ⟨.after hstill (pasteInput_handles t), nofun⟩
      · obtain ⟨hhandles, hpassed⟩ := path_modeEvent (hstill.synced hsynced) h
        refine ⟨.after hstill hhandles, fun hc => ?_⟩
        obtain ⟨rfl, rfl, hpasses⟩ := hpassed hc
        exact ⟨rfl, hstill, hpasses⟩

/-- An event other than the tick, once a value out of time has gone. -/
theorem path_awake {consumed : Bool} (hsynced : s.selectionId = s.selectedId)
    (h : (awake event ftxui s).Path calls (consumed, s')) :
    Handles event s calls s' ∧ (consumed = false → calls = [] ∧ Still s s' ∧ Passes s') := by
  obtain ⟨first, u, t, rest, rfl, hsettle, hrest⟩ := StateT.path_bind.mp h
  rcases path_settleHeldKey hsettle with ⟨rfl, hsettled⟩ | ⟨hmouse, hquiet, hhandles, hgets, hhides⟩
  · rw [List.nil_append]
    rcases path_ite hrest with ⟨-, hrest⟩ | hrest
    · obtain ⟨rfl, rfl, rfl⟩ := path_consume hrest
      exact ⟨.after hsettled (.still ⟨rfl, rfl, rfl, rfl, .of_eq rfl rfl rfl rfl, id⟩), nofun⟩
    · have hnow := path_get_bind hrest
      have hrest := path_get_bind hnow
      split at hrest
      · obtain ⟨rfl, rfl, rfl⟩ := path_consume hrest
        obtain ⟨_, _, _, heq⟩ := ignoreKey_eq t
        rw [heq]
        exact ⟨.after hsettled (.still ⟨rfl, rfl, rfl, rfl, .of_eq rfl rfl rfl rfl, id⟩), nofun⟩
      · obtain ⟨hhandles, hpassed⟩ := path_liveEvent (hsettled.synced hsynced) hrest
        refine ⟨.after hsettled hhandles, fun hc => ?_⟩
        obtain ⟨rfl, hkept, hpasses⟩ := hpassed hc
        exact ⟨rfl, hsettled.trans hkept, hpasses⟩
  · rcases path_ite hrest with ⟨-, hrest⟩ | hrest
    · obtain ⟨rfl, rfl, rfl⟩ := path_consume hrest
      rw [List.append_nil]
      exact ⟨hhandles.before rfl rfl rfl rfl (hhides.trans (.of_eq rfl rfl rfl rfl)) hgets, nofun⟩
    · have hnow := path_get_bind hrest
      have hrest := path_get_bind hnow
      rw [if_pos ⟨by simpa using hmouse, hquiet⟩] at hrest
      obtain ⟨rfl, rfl, rfl⟩ := path_consume hrest
      obtain ⟨_, _, _, heq⟩ := ignoreKey_eq t
      rw [List.append_nil, heq]
      exact ⟨hhandles.before rfl rfl rfl rfl (hhides.trans (.of_eq rfl rfl rfl rfl)) hgets, nofun⟩

theorem passOn_handles (hactive : s.mode = .edit → s.activeTab = 1) (hpasses : Passes s) :
    Handles event s [] (s.passOn ftxui) := by
  rcases hpasses with h | h | h
  · exact passOn_menu (Or.inl h)
  · exact passOn_menu (Or.inr h)
  · exact passOn_form h hactive

theorem path_handle (hactive : s.mode = .edit → s.activeTab = 1)
    (h : (handle event ftxui s).Path calls ((), s')) : Handles event s calls s' ∧ Fresh s.now s' := by
  obtain ⟨first, consumed, t, rest, rfl, hevent, hrest⟩ := StateT.path_bind.mp h
  unfold onEvent at hevent
  split at hevent
  · obtain ⟨rfl, htick⟩ := path_consumeM hevent
    obtain ⟨rfl, -, rfl⟩ := StateT.path_pure.mp hrest
    rw [List.append_nil]
    obtain ⟨hhandles, hfresh⟩ := @path_tick _ _ event _ _ htick
    exact ⟨hhandles, fun hsome => hhandles.now.trans_lt (hfresh hsome)⟩
  · have hstart := (syncSelection_still s).trans (expire_still _)
    have hsynced := (expire_still _).synced (syncSelection_selectionId s)
    have hfresh : Fresh s.now s.syncSelection.expire :=
        fun hsome => hstart.hides.now.trans_lt (expire_isFresh _ hsome)
    have hsame : s.syncSelection.expire.now = s.now := (expire_quiet _).1.trans (syncSelection_now s)
    obtain ⟨hhandles, hpassed⟩ := path_awake hsynced (path_modify_bind hevent)
    cases consumed with
    | true =>
      obtain ⟨rfl, -, rfl⟩ := StateT.path_pure.mp hrest
      rw [List.append_nil]
      refine ⟨.after hstart hhandles, ?_⟩
      rw [← hsame] at hfresh ⊢
      exact hhandles.fresh hfresh
    | false =>
      obtain ⟨rfl, hstill, hpasses⟩ := hpassed rfl
      obtain ⟨rfl, rfl⟩ := path_modify hrest
      have hopen := hstart.trans hstill
      have hpass : Handles event t [] (t.passOn ftxui) :=
        passOn_handles (fun hedit => hopen.activeTab.trans (hactive (hopen.mode.symm.trans hedit))) hpasses
      refine ⟨.after hopen hpass, ?_⟩
      rw [← hsame] at hfresh ⊢
      exact (Handles.after hstill hpass).fresh hfresh

end Tui

end Secretov
