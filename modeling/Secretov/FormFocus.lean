import Secretov.TuiPaste

/-! The focus of the form (tui.cpp). Editing draws no name input, so the value has the focus
as long as the edit form is open. -/

namespace Secretov

namespace Tui

variable {s t s' : Tui} {event : TuiEvent} {calls : List (Dialogue.Exchange Answer)} {ftxui : Ftxui}

def OnValue (s : Tui) : Prop := s.mode = .edit → s.form.formField = 1

/-- Keeps the mode and the focus, or leaves the edit form. -/
def KeepsFocus (s s' : Tui) : Prop :=
  s'.mode = s.mode ∧ s'.form.formField = s.form.formField ∨ s'.mode ≠ .edit

namespace KeepsFocus

theorem refl (s : Tui) : KeepsFocus s s := Or.inl ⟨rfl, rfl⟩

theorem trans (h : KeepsFocus s t) (h' : KeepsFocus t s') : KeepsFocus s s' := by
  rcases h' with ⟨hmode, hfield⟩ | hnot
  · rcases h with ⟨hmode', hfield'⟩ | hnot
    · exact Or.inl ⟨hmode.trans hmode', hfield.trans hfield'⟩
    · exact Or.inr (by rwa [hmode])
  · exact Or.inr hnot

theorem of_form (hmode : s'.mode = s.mode) (hform : s'.form = s.form) : KeepsFocus s s' :=
  Or.inl ⟨hmode, by rw [hform]⟩

theorem of_mode {mode : Mode} (hmode : s'.mode = mode) (hnot : mode ≠ .edit) : KeepsFocus s s' :=
  Or.inr (by rwa [hmode])

theorem onValue (h : KeepsFocus s s') (hs : OnValue s) : OnValue s' := by
  intro hedit
  rcases h with ⟨hmode, hfield⟩ | hnot
  · rw [hfield]
    exact hs (hmode.symm.trans hedit)
  · exact absurd hedit hnot

end KeepsFocus

theorem Kept.keepsFocus (h : Kept s s') : KeepsFocus s s' := .of_form h.mode h.form

theorem path_saveForm_focus {key verb : Bytes} {ok : Bool} (h : (saveForm key verb s).Path calls (ok, s')) :
    KeepsFocus s s' := by
  obtain ⟨-, -, -, ⟨rfl, -⟩ | ⟨-, hnormal⟩⟩ := path_saveForm h
  · obtain ⟨first, result, t, rest, rfl, hcall, hrest⟩ := StateT.path_bind.mp (path_get_bind h)
    obtain ⟨answer, daemonState, rfl, rfl, -⟩ := path_call hcall
    cases result with
    | error e =>
      obtain ⟨rfl, -, rfl⟩ := path_modify_pure hrest
      exact .of_form rfl rfl
    | ok _ =>
      obtain ⟨first, found, t, rest, rfl, hrefresh, hpure⟩ := StateT.path_bind.mp (path_modify_bind hrest)
      obtain ⟨-, hfalse, -⟩ := StateT.path_pure.mp hpure
      cases hfalse
  · exact .of_mode hnormal nofun

theorem path_submitForm_focus {u : Unit} (h : (submitForm s).Path calls (u, s')) : KeepsFocus s s' := by
  have h := path_get_bind h
  cases hproblem : s.formProblem with
  | some problem =>
    rw [hproblem] at h
    obtain ⟨rfl, rfl⟩ := path_set h
    exact .of_form rfl rfl
  | none =>
    rw [hproblem] at h
    dsimp only at h
    split at h
    · obtain ⟨first, ok, t, rest, rfl, hsave, hpure⟩ := StateT.path_bind.mp h
      obtain ⟨rfl, -, rfl⟩ := StateT.path_pure.mp hpure
      exact path_saveForm_focus hsave
    · obtain ⟨first, ok, t, rest, rfl, hrefresh, hrest⟩ := StateT.path_bind.mp h
      obtain ⟨answer, rfl, hmode, hform, -⟩ := path_refresh hrefresh
      have hlisted : KeepsFocus s t := .of_form hmode hform
      cases ok with
      | false =>
        obtain ⟨rfl, -, rfl⟩ := StateT.path_pure.mp hrest
        exact hlisted
      | true =>
        rw [if_pos rfl] at hrest
        have hrest := path_get_bind hrest
        split at hrest
        · obtain ⟨rfl, rfl⟩ := path_modify hrest
          exact .of_mode rfl nofun
        · obtain ⟨first, ok, t', rest, rfl, hsave, hpure⟩ := StateT.path_bind.mp hrest
          obtain ⟨rfl, -, rfl⟩ := StateT.path_pure.mp hpure
          exact hlisted.trans (path_saveForm_focus hsave)

theorem path_releaseHeldKey_focus {u : Unit} (h : (releaseHeldKey s).Path calls (u, s')) : KeepsFocus s s' := by
  have h := path_set_bind (path_get_bind h)
  split at h
  · obtain ⟨rfl, rfl⟩ := path_modify h
    split
    · rename_i hadd
      exact .of_mode hadd nofun
    · exact .of_form rfl rfl
  · dsimp only at h
    split at h
    · obtain ⟨first, u, t, rest, rfl, hsubmit, hrest⟩ := StateT.path_bind.mp h
      obtain ⟨rfl, rfl⟩ := path_modify hrest
      refine KeepsFocus.trans ?_ ((path_submitForm_focus hsubmit).trans (.of_form rfl rfl))
      exact .of_form rfl rfl
    · obtain ⟨rfl, rfl⟩ := path_modify h
      exact .of_form rfl rfl

theorem path_tick_focus {u : Unit} (h : (tick s).Path calls (u, s')) : KeepsFocus s s' := by
  have h := path_get_bind h
  split at h
  · obtain ⟨first, u, t, rest, rfl, hrelease, hrest⟩ := StateT.path_bind.mp h
    obtain ⟨rfl, rfl⟩ := path_modify hrest
    exact (path_releaseHeldKey_focus hrelease).trans (expire_idle t).keepsFocus
  · obtain ⟨rfl, rfl⟩ := path_modify h
    exact (expire_idle s).keepsFocus

theorem path_settleHeldKey_focus {u : Unit} (h : (settleHeldKey event s).Path calls (u, s')) :
    KeepsFocus s s' := by
  have h := path_get_bind h
  split at h
  · split at h
    · obtain ⟨rfl, rfl⟩ := path_set h
      exact Or.inl ⟨rfl, rfl⟩
    · exact path_releaseHeldKey_focus h
  · obtain ⟨rfl, -, rfl⟩ := StateT.path_pure.mp h
    exact .refl s

theorem finishPaste_focus (s : Tui) : KeepsFocus s s.finishPaste := by
  have houtcome := finishPaste_outcome s
  have hmode := (finishPaste_inert s).mode
  cases houtcome with
  | filter hfilter => exact .of_mode (hmode.trans hfilter) nofun
  | name hopen hfield hfilter hform => exact Or.inl ⟨hmode, by rw [hform]; rfl⟩
  | value hopen hfield hfilter hform => exact Or.inl ⟨hmode, by rw [hform]; rfl⟩
  | refused hfilter hform => exact .of_form hmode hform

theorem pasteInput_focus (event : TuiEvent) (s : Tui) : KeepsFocus s (s.pasteInput event) := by
  unfold pasteInput
  split
  · refine KeepsFocus.trans ?_ (finishPaste_focus _)
    exact .of_form rfl rfl
  · exact .of_form rfl rfl
  · exact .of_form rfl rfl
  · exact .of_form rfl rfl
  · exact .of_form rfl rfl
  · exact .refl s

theorem path_formEvent_focus {consumed : Bool} (h : (formEvent event s).Path calls (consumed, s')) :
    KeepsFocus s s' := by
  have h := path_get_bind h
  have hconsumed {f : Tui → Tui} (hf : KeepsFocus s (f s)) (h : (consume f s).Path calls (consumed, s')) :
      KeepsFocus s s' := by
    obtain ⟨-, -, rfl⟩ := path_consume h
    exact hf
  have hpassed (h : ((pure false : TuiM Bool) s).Path calls (consumed, s')) : KeepsFocus s s' := by
    obtain ⟨-, -, rfl⟩ := StateT.path_pure.mp h
    exact .refl s
  have hedits (edit : Bytes → Int → Bytes × Int) : KeepsFocus s (s.editFocused edit) := by
    unfold editFocused
    split <;> exact Or.inl ⟨rfl, rfl⟩
  split at h
  · have hclosed : s.cancelForm.mode = .normal := rfl
    exact hconsumed (.of_mode hclosed nofun) h
  · split at h
    · rename_i hadd
      have hnot : s.mode ≠ .edit := by
        rw [hadd.1]
        nofun
      exact hconsumed (Or.inr hnot) h
    · exact hconsumed (.of_form rfl rfl) h
  · exact hconsumed (.of_form rfl rfl) h
  · split at h
    · exact hconsumed (.of_form rfl rfl) h
    · exact hpassed h
  · exact hconsumed (hedits _) h
  · exact hconsumed (hedits _) h
  · exact hconsumed (hedits _) h
  · exact hconsumed (hedits _) h
  · exact hpassed h

/-- `e` opens the form with the focus on the value. -/
theorem path_startEdit_focus {u : Unit} (hmode : s.mode = .normal) (h : (startEdit s).Path calls (u, s')) :
    OnValue s' := by
  have h := path_get_bind h
  have hnormal {t : Tui} (ht : t.mode = .normal) : OnValue t := fun hedit => nomatch ht.symm.trans hedit
  rcases needKey_cases (text "edit") s with ⟨key, hkey, hneed⟩ | ⟨message, hneed⟩
  · rw [hneed] at h
    obtain ⟨first, result, t, rest, rfl, hcall, hrest⟩ := StateT.path_bind.mp (path_set_bind h)
    obtain ⟨answer, daemonState, rfl, rfl, -⟩ := path_call hcall
    cases result with
    | error e => exact hnormal (path_fail hrest).2.1
    | ok value =>
      obtain ⟨rfl, rfl⟩ := path_modify hrest
      exact fun _ => rfl
  · rw [hneed] at h
    obtain ⟨rfl, rfl⟩ := path_set h
    exact hnormal hmode

theorem normalEvent_edit (ftxui : Ftxui) : normalEvent (.key "e") ftxui = consumeM startEdit := rfl

theorem path_modeEvent_focus {consumed : Bool} (hsynced : s.selectionId = s.selectedId) (hs : OnValue s)
    (h : (modeEvent event ftxui s).Path calls (consumed, s')) : OnValue s' := by
  intro hedit
  rcases (path_modeEvent hsynced h).1.toEdit hedit with ⟨hopen, -⟩ | ⟨hevent, hnormal, -⟩
  · have h := path_get_bind h
    rw [hopen] at h
    exact (path_formEvent_focus h).onValue hs hedit
  · have h := path_get_bind h
    rw [hnormal, hevent, normalEvent_edit] at h
    exact path_startEdit_focus hnormal (path_consumeM h).2 hedit

theorem path_liveEvent_focus {consumed : Bool} (hsynced : s.selectionId = s.selectedId) (hs : OnValue s)
    (h : (liveEvent event ftxui s).Path calls (consumed, s')) : OnValue s' := by
  have h := path_modify_bind h
  have hstill : Still s (if !event.isMouse ∨ event.isMousePress then { s with status := [] } else s) := by
    split
    · exact ⟨rfl, rfl, rfl, rfl, .of_eq rfl rfl rfl rfl, id⟩
    · exact .refl s
  have hkeeps : KeepsFocus s (if !event.isMouse ∨ event.isMousePress then { s with status := [] } else s) := by
    split <;> exact .of_form rfl rfl
  revert hstill hkeeps h
  generalize (if !event.isMouse ∨ event.isMousePress then { s with status := [] } else s) = t
  intro h hstill hkeeps
  have ht := hkeeps.onValue hs
  split at h
  · obtain ⟨rfl, rfl, rfl⟩ := path_consume h
    exact ht
  · split at h
    · obtain ⟨rfl, rfl, rfl⟩ := path_consume h
      exact ht
    · have h := path_get_bind h
      split at h
      · obtain ⟨rfl, rfl, rfl⟩ := path_consume h
        exact (pasteInput_focus event t).onValue ht
      · exact path_modeEvent_focus (hstill.synced hsynced) ht h

theorem path_awake_focus {consumed : Bool} (hsynced : s.selectionId = s.selectedId) (hs : OnValue s)
    (h : (awake event ftxui s).Path calls (consumed, s')) : OnValue s' := by
  obtain ⟨first, u, t, rest, rfl, hsettle, hrest⟩ := StateT.path_bind.mp h
  have ht := (path_settleHeldKey_focus hsettle).onValue hs
  rcases path_ite hrest with ⟨-, hrest⟩ | hrest
  · obtain ⟨rfl, rfl, rfl⟩ := path_consume hrest
    exact ht
  · have hnow := path_get_bind hrest
    have hrest := path_get_bind hnow
    split at hrest
    · obtain ⟨rfl, rfl, rfl⟩ := path_consume hrest
      exact (ignoreKey_kept t).1.keepsFocus.onValue ht
    · rename_i hlive
      rcases path_settleHeldKey hsettle with ⟨rfl, hsettled⟩ | ⟨hmouse, hquiet, -⟩
      · exact path_liveEvent_focus (hsettled.synced hsynced) ht hrest
      · exact absurd ⟨by simpa using hmouse, hquiet⟩ hlive

end Tui

namespace Moment

/-- In the edit form the focus cannot go from the value to anything else. -/
def StaysOnValue (m : Moment) : Prop :=
  m.before.mode = .edit → ∀ form, form.formField = 1 → (m.ftxui.edit form).formField = 1

end Moment

namespace Tui

variable {marks : ProjectMarks} {past : List Moment} {m : Moment}

theorem menuMoves_focus (ftxui : Ftxui) (s : Tui) : KeepsFocus s (s.menuMoves ftxui) := by
  unfold menuMoves
  split <;> exact .of_form rfl rfl

theorem onValue_step (hs : OnValue s)
    (hstays : s.mode = .edit → ∀ form, form.formField = 1 → (ftxui.edit form).formField = 1)
    (h : (handle event ftxui s).Path calls ((), s')) : OnValue s' := by
  obtain ⟨first, consumed, t, rest, rfl, hevent, hrest⟩ := StateT.path_bind.mp h
  unfold onEvent at hevent
  split at hevent
  · obtain ⟨rfl, htick⟩ := path_consumeM hevent
    obtain ⟨rfl, -, rfl⟩ := StateT.path_pure.mp hrest
    exact (path_tick_focus htick).onValue hs
  · have hidle := (syncSelection_idle s).trans (expire_idle _)
    have hsynced := (expire_still _).synced (syncSelection_selectionId s)
    have hawake := path_modify_bind hevent
    have ht := path_awake_focus hsynced (hidle.keepsFocus.onValue hs) hawake
    cases consumed with
    | true =>
      obtain ⟨rfl, -, rfl⟩ := StateT.path_pure.mp hrest
      exact ht
    | false =>
      obtain ⟨rfl, hstill, -⟩ := (path_awake hsynced hawake).2 rfl
      obtain ⟨rfl, rfl⟩ := path_modify hrest
      unfold passOn
      split
      · exact (menuMoves_focus ftxui t).onValue ht
      · exact fun hedit => hstays (hidle.mode.symm.trans (hstill.mode.symm.trans hedit)) t.form (ht hedit)

theorem run_onValue (h : TuiRun marks past s) (hstays : ∀ m ∈ past, m.StaysOnValue) : OnValue s := by
  induction h with
  | start hstart => exact fun hedit => nomatch (start_mode hstart).1.symm.trans hedit
  | @event past m hrun hpath ih =>
    obtain ⟨hm, hpast⟩ := List.forall_mem_cons.mp hstays
    exact onValue_step (s := m.found) (ih hpast) hm hpath
  | frame helpScroll detailScroll hrun ih =>
    exact (frame_idle helpScroll detailScroll _).keepsFocus.onValue (ih hstays)

end Tui

end Secretov
