import Secretov.TuiEvents

/-! What each operation of the TUI does to the mode, to the selection and to a
value on show, and what calls it makes. -/

namespace Secretov

def Call.writes : Call → Bool
  | set _ _ | remove _ => true
  | _ => false

def ReadOnly (calls : List (Dialogue.Exchange Answer)) : Prop := ∀ c ∈ calls, c.question.writes = false

/-- A value has been fetched, by the only call made. -/
def Gets (calls : List (Dialogue.Exchange Answer)) : Prop :=
  ∃ (key value : Bytes) (answer : Answer (.get key)), calls = [⟨.get key, answer⟩] ∧ answer.result = .ok value

theorem not_gets_nil : ¬Gets [] := by
  rintro ⟨_, _, _, h, -⟩
  cases h

theorem not_gets_cons {c : Dialogue.Exchange Answer} {calls : List (Dialogue.Exchange Answer)}
    (hc : ∀ key, c.question ≠ .get key) : ¬Gets (c :: calls) := by
  rintro ⟨key, _, _, h, -⟩
  exact hc key (congrArg Dialogue.Exchange.question (List.cons.inj h).1)

theorem not_gets_error {key : Bytes} {answer : Answer (.get key)} {calls : List (Dialogue.Exchange Answer)}
    (h : ∀ value, answer.result ≠ .ok value) : ¬Gets (⟨.get key, answer⟩ :: calls) := by
  rintro ⟨key', value, answer', heq, hresult⟩
  have hhead := (List.cons.inj heq).1
  cases hhead
  exact h value hresult

namespace Tui

/-- A value on show stays as it is, or goes. -/
structure Hides (s s' : Tui) : Prop where
  now : s.now ≤ s'.now
  revealed : s'.revealed = none ∨
    s'.revealed = s.revealed ∧ s'.revealedAt = s.revealedAt ∧ s'.selectionId = s.selectionId

namespace Hides

variable {s t s' : Tui}

theorem of_eq (hnow : s'.now = s.now) (hrevealed : s'.revealed = s.revealed) (hat : s'.revealedAt = s.revealedAt)
    (hid : s'.selectionId = s.selectionId) : Hides s s' :=
  ⟨hnow.ge, Or.inr ⟨hrevealed, hat, hid⟩⟩

theorem refl (s : Tui) : Hides s s := of_eq rfl rfl rfl rfl

theorem of_none (hnow : s.now ≤ s'.now) (h : s'.revealed = none) : Hides s s' := ⟨hnow, Or.inl h⟩

theorem trans (h : Hides s t) (h' : Hides t s') : Hides s s' := by
  refine ⟨h.now.trans h'.now, ?_⟩
  rcases h'.revealed with hnone | ⟨hrevealed, hat, hid⟩
  · exact Or.inl hnone
  · rcases h.revealed with hnone | ⟨hrevealed', hat', hid'⟩
    · exact Or.inl (hrevealed.trans hnone)
    · exact Or.inr ⟨hrevealed.trans hrevealed', hat.trans hat', hid.trans hid'⟩

end Hides

/-- Keeps the mode, and a write would still go to the same key. -/
structure Still (s s' : Tui) : Prop where
  mode : s'.mode = s.mode
  tree : s'.tree = s.tree
  activeTab : s'.activeTab = s.activeTab
  addName : s'.form.addName = s.form.addName
  hides : Hides s s'
  synced : s.selectionId = s.selectedId → s'.selectionId = s'.selectedId

namespace Still

variable {s t s' : Tui}

theorem refl (s : Tui) : Still s s := ⟨rfl, rfl, rfl, rfl, .refl s, id⟩

theorem trans (h : Still s t) (h' : Still t s') : Still s s' :=
  ⟨h'.mode.trans h.mode, h'.tree.trans h.tree, h'.activeTab.trans h.activeTab, h'.addName.trans h.addName,
    h.hides.trans h'.hides, fun hs => h'.synced (h.synced hs)⟩

theorem currentKey (h : Still s s') : s'.currentKey = s.currentKey := by
  rw [Tui.currentKey, h.tree, Tui.currentKey]

end Still

theorem syncSelection_selectionId (s : Tui) : s.syncSelection.selectionId = s.syncSelection.selectedId := by
  unfold syncSelection
  split
  · rename_i h
    exact h.symm
  · rfl

theorem syncSelection_still (s : Tui) : Still s s.syncSelection := by
  have hsynced := syncSelection_selectionId s
  unfold syncSelection at hsynced ⊢
  split
  · exact .refl s
  · rename_i hid
    rw [if_neg hid] at hsynced
    exact ⟨rfl, rfl, rfl, rfl, .of_none le_rfl rfl, fun _ => hsynced⟩

theorem syncSelection_now (s : Tui) : s.syncSelection.now = s.now := by
  unfold syncSelection
  split <;> rfl

theorem expire_still (s : Tui) : Still s s.expire := by
  unfold expire
  dsimp only
  split
  · split
    · split <;> exact ⟨rfl, rfl, rfl, rfl, .of_none le_rfl rfl, id⟩
    · split <;> exact ⟨rfl, rfl, rfl, rfl, .of_eq rfl rfl rfl rfl, id⟩
  · split <;> exact ⟨rfl, rfl, rfl, rfl, .of_eq rfl rfl rfl rfl, id⟩

theorem expire_fresh {s : Tui} {value : Bytes} (h : s.expire.revealed = some value) :
    s.expire.now < s.expire.revealedAt + kRevealFor := by
  unfold expire at h ⊢
  dsimp only at h ⊢
  split at h
  · rename_i shown hshown
    split at h
    · split at h <;> cases h
    · rename_i hlate
      rw [if_neg hlate]
      split <;> exact Nat.lt_of_not_le hlate
  · rename_i hnone
    split at h <;> cases hnone.symm.trans h

theorem rebuildRows_eq (id : Bytes) (s : Tui) : ∃ tree, (s.rebuildRows id).2 = { s with tree } := by
  unfold rebuildRows
  dsimp only
  split
  · exact ⟨_, rfl⟩
  · unfold selectRow
    split <;> exact ⟨_, rfl⟩

@[simp] theorem rebuildRows_mode (id : Bytes) (s : Tui) : (s.rebuildRows id).2.mode = s.mode := by
  obtain ⟨tree, h⟩ := rebuildRows_eq id s
  rw [h]

@[simp] theorem rebuildRows_form (id : Bytes) (s : Tui) : (s.rebuildRows id).2.form = s.form := by
  obtain ⟨tree, h⟩ := rebuildRows_eq id s
  rw [h]

@[simp] theorem rebuildRows_keys (id : Bytes) (s : Tui) : (s.rebuildRows id).2.keys = s.keys := by
  obtain ⟨tree, h⟩ := rebuildRows_eq id s
  rw [h]

theorem rebuildRows_hides (id : Bytes) (s : Tui) : Hides s (s.rebuildRows id).2 := by
  obtain ⟨tree, h⟩ := rebuildRows_eq id s
  rw [h]
  exact .of_eq rfl rfl rfl rfl

variable {s s' : Tui} {calls : List (Dialogue.Exchange Answer)}

theorem path_ask {q : Call} {r : Except LocalError q.Value} (h : (ask q s).Path calls (r, s')) :
    ∃ answer : Answer q, calls = [⟨q, answer⟩] ∧ r = answer.result ∧
    s' = { s with now := s.now + answer.elapsed } := by
  obtain ⟨answer, rest, rfl, hdone⟩ := Dialogue.path_ask.mp h
  obtain ⟨rfl, heq⟩ := Dialogue.path_done.mp hdone
  obtain ⟨rfl, rfl⟩ := Prod.mk.inj heq
  exact ⟨answer, rfl, rfl, rfl⟩

theorem path_modify {f : Tui → Tui} {u : PUnit} (h : (modify f : TuiM PUnit) s |>.Path calls (u, s')) :
    calls = [] ∧ s' = f s := by
  obtain ⟨rfl, heq⟩ := Dialogue.path_done.mp h
  exact ⟨rfl, (Prod.mk.inj heq).2.symm⟩

theorem path_call {q : Call} {r : Except LocalError q.Value} (h : (call q s).Path calls (r, s')) :
    ∃ (answer : Answer q) (daemonState : DaemonState), calls = [⟨q, answer⟩] ∧
      s' = { s with now := s.now + answer.elapsed, daemonState } ∧
      (∀ value, r = .ok value ↔ answer.result = .ok value) := by
  obtain ⟨first, result, t, rest, rfl, hask, hrest⟩ := StateT.path_bind.mp h
  obtain ⟨answer, rfl, rfl, rfl⟩ := path_ask hask
  cases hresult : answer.result with
  | ok value =>
    rw [hresult] at hrest
    obtain ⟨first, u, t, rest, rfl, hmodify, hpure⟩ := StateT.path_bind.mp hrest
    obtain ⟨rfl, rfl⟩ := path_modify hmodify
    obtain ⟨rfl, rfl, rfl⟩ := StateT.path_pure.mp hpure
    exact ⟨answer, _, rfl, rfl, fun value => by rw [hresult]⟩
  | error e =>
    rw [hresult] at hrest
    obtain ⟨first, u, t, rest, rfl, hmodify, hpure⟩ := StateT.path_bind.mp hrest
    obtain ⟨rfl, rfl⟩ := path_modify hmodify
    obtain ⟨rfl, rfl, rfl⟩ := StateT.path_pure.mp hpure
    exact ⟨answer, _, rfl, rfl, fun value => by simp [hresult]⟩

theorem path_get_bind {α : Type} {m : Tui → TuiM α} {a : α}
    (h : (((get : TuiM Tui) >>= m) s).Path calls (a, s')) : (m s s).Path calls (a, s') := h

theorem path_modify_bind {α : Type} {f : Tui → Tui} {m : PUnit → TuiM α} {a : α}
    (h : (((modify f : TuiM PUnit) >>= m) s).Path calls (a, s')) : (m ⟨⟩ (f s)).Path calls (a, s') := h

theorem path_modify_pure {α : Type} {f : Tui → Tui} {a b : α}
    (h : (((modify f : TuiM PUnit) >>= fun _ => pure a) s).Path calls (b, s')) :
    calls = [] ∧ a = b ∧ s' = f s := by
  have hpure : ((pure a : TuiM α) (f s)).Path calls (b, s') := h
  obtain ⟨rfl, rfl, rfl⟩ := StateT.path_pure.mp hpure
  exact ⟨rfl, rfl, rfl⟩

theorem path_refresh {id : Bytes} {ok : Bool} (h : (refresh id s).Path calls (ok, s')) :
    ∃ answer : Answer .list, calls = [⟨.list, answer⟩] ∧ s'.mode = s.mode ∧ s'.form = s.form ∧ Hides s s' ∧
      (ok = true → ∃ keys : List Bytes, answer.result = .ok keys ∧ ∀ key, s'.keyExists key = true ↔
      key ∈ keys) := by
  obtain ⟨first, result, t, rest, rfl, hcall, hrest⟩ := StateT.path_bind.mp (path_modify_bind h)
  obtain ⟨answer, daemonState, rfl, rfl, hok⟩ := path_call hcall
  refine ⟨answer, ?_⟩
  cases result with
  | error e =>
    dsimp only at hrest
    obtain ⟨rfl, rfl, rfl⟩ := path_modify_pure hrest
    exact ⟨rfl, rfl, rfl, .of_none (Nat.le_add_right _ _) rfl, fun h => nomatch h⟩
  | ok keys =>
    dsimp only at hrest
    obtain ⟨rfl, rfl, rfl⟩ := path_modify_pure hrest
    refine ⟨rfl, rebuildRows_mode .., rebuildRows_form .., ?_, fun _ => ⟨keys, (hok keys).mp rfl, fun key => ?_⟩⟩
    · exact (Hides.of_none (Nat.le_add_right _ _) rfl).trans (rebuildRows_hides ..)
    · rw [keyExists, rebuildRows_keys, List.contains_iff_mem]
      exact List.mem_mergeSort

theorem path_fail {e : LocalError} {key : Bytes} {u : Unit} (h : (fail e key s).Path calls (u, s')) :
    ReadOnly calls ∧ s'.mode = s.mode ∧ Hides s s' := by
  have hcomplain {message : Bytes} (h : ((modify (complain message) : TuiM Unit) s).Path calls (u, s')) :
      ReadOnly calls ∧ s'.mode = s.mode ∧ Hides s s' := by
    obtain ⟨rfl, rfl⟩ := path_modify h
    exact ⟨by simp [ReadOnly], rfl, .of_eq rfl rfl rfl rfl⟩
  unfold fail at h
  split at h
  · split at h
    · obtain ⟨first, ok, t, rest, rfl, hrefresh, hrest⟩ := StateT.path_bind.mp h
      obtain ⟨answer, rfl, hmode, -, hhides, -⟩ := path_refresh hrefresh
      obtain ⟨rfl, rfl⟩ := path_modify hrest
      exact ⟨by simp [ReadOnly, Call.writes], hmode, hhides.trans (.of_eq rfl rfl rfl rfl)⟩
    · exact hcomplain h
  · exact hcomplain h

theorem path_reload {u : Unit} (h : (reload s).Path calls (u, s')) :
    ReadOnly calls ∧ ¬Gets calls ∧ s'.mode = s.mode ∧ Hides s s' := by
  obtain ⟨first, ok, t, rest, rfl, hrefresh, hrest⟩ := StateT.path_bind.mp (path_get_bind h)
  obtain ⟨answer, rfl, hmode, -, hhides, -⟩ := path_refresh hrefresh
  have hread : ReadOnly [⟨Call.list, answer⟩] := by simp [ReadOnly, Call.writes]
  have hgets : ¬Gets [⟨Call.list, answer⟩] := not_gets_cons nofun
  split at hrest
  · obtain ⟨rfl, rfl⟩ := path_modify hrest
    exact ⟨hread, hgets, hmode, hhides.trans (.of_eq rfl rfl rfl rfl)⟩
  · obtain ⟨rfl, -, rfl⟩ := StateT.path_pure.mp hrest
    exact ⟨hread, hgets, hmode, hhides⟩

theorem needKey_cases (action : Bytes) (s : Tui) :
    (∃ key, s.currentKey = some key ∧ s.needKey action = (some key, s)) ∨
      ∃ message, s.needKey action = (none, s.say message) := by
  unfold needKey
  cases h : s.currentKey with
  | some key => exact Or.inl ⟨key, rfl, rfl⟩
  | none => exact Or.inr ⟨_, rfl⟩

theorem say_still (message : Bytes) (s : Tui) : Still s (s.say message) :=
  ⟨rfl, rfl, rfl, rfl, .of_eq rfl rfl rfl rfl, id⟩

theorem complain_still (message : Bytes) (s : Tui) : Still s (s.complain message) :=
  ⟨rfl, rfl, rfl, rfl, .of_eq rfl rfl rfl rfl, id⟩

theorem remask_still (s : Tui) : Still s s.remask := ⟨rfl, rfl, rfl, rfl, .of_none le_rfl rfl, id⟩

theorem path_set {t : Tui} {u : PUnit} (h : ((set t : TuiM PUnit) s).Path calls (u, s')) :
    calls = [] ∧ s' = t := by
  obtain ⟨rfl, heq⟩ := Dialogue.path_done.mp h
  exact ⟨rfl, (Prod.mk.inj heq).2.symm⟩

theorem path_set_bind {α : Type} {t : Tui} {m : PUnit → TuiM α} {a : α}
    (h : (((set t : TuiM PUnit) >>= m) s).Path calls (a, s')) : (m ⟨⟩ t).Path calls (a, s') := h

theorem readOnly_nil : ReadOnly [] := by simp [ReadOnly]

theorem readOnly_cons {c : Dialogue.Exchange Answer} (hc : c.question.writes = false) (h : ReadOnly calls) :
    ReadOnly (c :: calls) := by
  simpa [ReadOnly, hc] using h

/-- A value has been fetched for the selected key and is on show. -/
def Reveals (s : Tui) (calls : List (Dialogue.Exchange Answer)) (s' : Tui) : Prop :=
  ∃ (key value : Bytes) (answer : Answer (.get key)), s.currentKey = some key ∧ calls = [⟨.get key, answer⟩] ∧
    answer.result = .ok value ∧ s'.revealed = some value ∧ s'.revealedAt = s'.now ∧
    s'.selectionId = s.selectionId ∧ s.now ≤ s'.now

theorem path_reveal {u : Unit} (h : (reveal s).Path calls (u, s')) :
    ReadOnly calls ∧ s'.mode = s.mode ∧ (Hides s s' ∧ ¬Gets calls ∨ Reveals s calls s') := by
  have h := path_get_bind h
  rcases needKey_cases (text "reveal") s with ⟨key, hkey, hneed⟩ | ⟨message, hneed⟩
  · rw [hneed] at h
    obtain ⟨first, result, t, rest, rfl, hcall, hrest⟩ := StateT.path_bind.mp (path_set_bind h)
    obtain ⟨answer, daemonState, rfl, rfl, hok⟩ := path_call hcall
    have hread := @readOnly_cons [] ⟨.get key, answer⟩ rfl readOnly_nil
    cases result with
    | error e =>
      obtain ⟨hfail, hmode, hhides⟩ := path_fail hrest
      have hgets : ¬Gets (_ :: rest) := not_gets_error fun value h => nomatch (hok value).mpr h
      exact ⟨readOnly_cons rfl hfail, hmode,
        Or.inl ⟨(Hides.of_none (Nat.le_add_right _ _) rfl).trans hhides, hgets⟩⟩
    | ok value =>
      obtain ⟨rfl, rfl⟩ := path_modify hrest
      exact ⟨hread, rfl, Or.inr ⟨key, value, answer, hkey, rfl, (hok value).mp rfl, rfl, rfl, rfl,
        Nat.le_add_right _ _⟩⟩
  · rw [hneed] at h
    obtain ⟨rfl, rfl⟩ := path_set h
    exact ⟨readOnly_nil, rfl, Or.inl ⟨(say_still ..).hides, not_gets_nil⟩⟩

theorem path_toggleReveal {u : Unit} (h : (toggleReveal s).Path calls (u, s')) :
    ReadOnly calls ∧ s'.mode = s.mode ∧ (Hides s s' ∧ ¬Gets calls ∨ Reveals s calls s') := by
  have h := path_get_bind h
  split at h
  · obtain ⟨rfl, rfl⟩ := path_modify h
    exact ⟨readOnly_nil, rfl, Or.inl ⟨(remask_still s).hides, not_gets_nil⟩⟩
  · exact path_reveal h

theorem path_copyValue {u : Unit} (h : (copyValue s).Path calls (u, s')) :
    ReadOnly calls ∧ s'.mode = s.mode ∧ Hides s s' := by
  have h := path_get_bind h
  rcases needKey_cases (text "copy") s with ⟨key, hkey, hneed⟩ | ⟨message, hneed⟩
  · rw [hneed] at h
    obtain ⟨first, result, t, rest, rfl, hcall, hrest⟩ := StateT.path_bind.mp (path_set_bind h)
    obtain ⟨answer, daemonState, rfl, rfl, -⟩ := path_call hcall
    have hcalled : Hides s { s with now := s.now + answer.elapsed, daemonState } :=
      ⟨Nat.le_add_right _ _, Or.inr ⟨rfl, rfl, rfl⟩⟩
    cases result with
    | error e =>
      obtain ⟨hfail, hmode, hhides⟩ := path_fail hrest
      exact ⟨readOnly_cons rfl hfail, hmode, hcalled.trans hhides⟩
    | ok value =>
      obtain ⟨first, result, t, rest, rfl, hask, hrest⟩ := StateT.path_bind.mp hrest
      obtain ⟨written, rfl, rfl, rfl⟩ := path_ask hask
      have hwritten := @Hides.trans _ _ { s with now := s.now + answer.elapsed + written.elapsed, daemonState }
        hcalled ⟨Nat.le_add_right _ _, Or.inr ⟨rfl, rfl, rfl⟩⟩
      cases hresult : written.result with
      | error e =>
        rw [hresult] at hrest
        obtain ⟨hfail, hmode, hhides⟩ := path_fail hrest
        exact ⟨readOnly_cons rfl (readOnly_cons rfl hfail), hmode, hwritten.trans hhides⟩
      | ok _ =>
        rw [hresult] at hrest
        obtain ⟨rfl, rfl⟩ := path_modify hrest
        exact ⟨readOnly_cons rfl (readOnly_cons rfl readOnly_nil), rfl, hwritten.trans (say_still ..).hides⟩
  · rw [hneed] at h
    obtain ⟨rfl, rfl⟩ := path_set h
    exact ⟨readOnly_nil, rfl, (say_still ..).hides⟩

/-- The form has been opened on the selected key, with the value fetched for it. -/
def Loads (calls : List (Dialogue.Exchange Answer)) (s' : Tui) : Prop :=
  ∃ (key value : Bytes) (answer : Answer (.get key)), calls = [⟨.get key, answer⟩] ∧ answer.result = .ok value ∧
    s'.currentKey = some key ∧ s'.form.addValue = value ∧ s'.activeTab = 1

theorem path_startEdit {u : Unit} (h : (startEdit s).Path calls (u, s')) :
    ReadOnly calls ∧ Hides s s' ∧ (s'.mode = s.mode ∨ s'.mode = .normal ∨ s'.mode = .edit ∧ Loads calls s') := by
  have h := path_get_bind h
  rcases needKey_cases (text "edit") s with ⟨key, hkey, hneed⟩ | ⟨message, hneed⟩
  · rw [hneed] at h
    obtain ⟨first, result, t, rest, rfl, hcall, hrest⟩ := StateT.path_bind.mp (path_set_bind h)
    obtain ⟨answer, daemonState, rfl, rfl, hok⟩ := path_call hcall
    have hcalled : Hides s { s.remask.closeForm with now := s.now + answer.elapsed, daemonState } :=
      .of_none (Nat.le_add_right _ _) rfl
    cases result with
    | error e =>
      obtain ⟨hfail, hmode, hhides⟩ := path_fail hrest
      exact ⟨readOnly_cons rfl hfail, hcalled.trans hhides, Or.inr (Or.inl hmode)⟩
    | ok value =>
      obtain ⟨rfl, rfl⟩ := path_modify hrest
      exact ⟨readOnly_cons rfl readOnly_nil, hcalled.trans (.of_eq rfl rfl rfl rfl),
        Or.inr (Or.inr ⟨rfl, key, value, answer, rfl, (hok value).mp rfl, hkey, rfl, rfl⟩)⟩
  · rw [hneed] at h
    obtain ⟨rfl, rfl⟩ := path_set h
    exact ⟨readOnly_nil, (say_still ..).hides, Or.inl rfl⟩

/-- Of the two calls that write, only `set` of this key. -/
def OnlySets (key : Bytes) (calls : List (Dialogue.Exchange Answer)) : Prop :=
  ∀ c ∈ calls, c.question.writes = true → ∃ value, c.question = .set key value

theorem saved_closes (key verb : Bytes) (s : Tui) :
    (s.saved key verb).mode = .normal ∧ Hides s (s.saved key verb) := by
  unfold saved
  dsimp only
  split <;> exact ⟨rfl, .of_eq rfl rfl rfl rfl⟩

theorem path_saveForm {key verb : Bytes} {ok : Bool} (h : (saveForm key verb s).Path calls (ok, s')) :
    OnlySets key calls ∧ ¬Gets calls ∧ Hides s s' ∧
    (ok = false ∧ Still s s' ∨ ok = true ∧ s'.mode = .normal) := by
  obtain ⟨first, result, t, rest, rfl, hcall, hrest⟩ := StateT.path_bind.mp (path_get_bind h)
  obtain ⟨answer, daemonState, rfl, rfl, -⟩ := path_call hcall
  have hcalled : Hides s { s with now := s.now + answer.elapsed, daemonState } :=
    ⟨Nat.le_add_right _ _, Or.inr ⟨rfl, rfl, rfl⟩⟩
  cases result with
  | error e =>
    obtain ⟨rfl, rfl, rfl⟩ := path_modify_pure hrest
    have hhides := hcalled.trans (complain_still (setFailed key e) _).hides
    exact ⟨by simp [OnlySets], not_gets_cons nofun, hhides, Or.inl ⟨rfl, rfl, rfl, rfl, rfl, hhides, id⟩⟩
  | ok _ =>
    dsimp only at hrest
    obtain ⟨first, found, t, rest, rfl, hrefresh, hpure⟩ := StateT.path_bind.mp (path_modify_bind hrest)
    obtain ⟨listed, rfl, hmode, -, hhides, -⟩ := path_refresh hrefresh
    obtain ⟨rfl, rfl, rfl⟩ := StateT.path_pure.mp hpure
    obtain ⟨hmode', hhides'⟩ := saved_closes key verb { s with now := s.now + answer.elapsed, daemonState }
    exact ⟨by simp [OnlySets, Call.writes], not_gets_cons nofun, (hcalled.trans hhides').trans hhides,
      Or.inr ⟨rfl, hmode.trans hmode'⟩⟩

/-- What submitting the form can come to. -/
inductive Submitted (s : Tui) : List (Dialogue.Exchange Answer) → Tui → Prop
  | refused {s' : Tui} : Still s s' → Submitted s [] s'
  | edited {calls : List (Dialogue.Exchange Answer)} {s' : Tui} : s.mode = .edit →
      OnlySets (s.currentKey.getD []) calls → (Still s s' ∨ s'.mode = .normal) → Submitted s calls s'
  | unlisted {answer : Answer .list} {s' : Tui} : s.mode ≠ .edit → s'.mode = s.mode →
      Submitted s [⟨.list, answer⟩] s'
  | asked {answer : Answer .list} {keys : List Bytes} {s' : Tui} : s.mode ≠ .edit → answer.result = .ok keys →
      trimKeyName s.form.addName ∈ keys → s.formProblem = none →
      s'.mode = .confirmOverwrite → s'.form = s.form → Submitted s [⟨.list, answer⟩] s'
  | added {answer : Answer .list} {keys : List Bytes} {calls : List (Dialogue.Exchange Answer)} {s' : Tui} :
      s.mode ≠ .edit → answer.result = .ok keys → trimKeyName s.form.addName ∉ keys → s.formProblem = none →
      OnlySets (trimKeyName s.form.addName) calls → (s'.mode = s.mode ∨ s'.mode = .normal) →
      Submitted s (⟨.list, answer⟩ :: calls) s'

theorem path_submitForm {u : Unit} (h : (submitForm s).Path calls (u, s')) :
    Submitted s calls s' ∧ ¬Gets calls ∧ Hides s s' := by
  have h := path_get_bind h
  cases hproblem : s.formProblem with
  | some problem =>
    rw [hproblem] at h
    obtain ⟨rfl, rfl⟩ := path_set h
    have hstill : Still s ({ s with showFormProblem := true }.complain problem) :=
      ⟨rfl, rfl, rfl, rfl, .of_eq rfl rfl rfl rfl, id⟩
    exact ⟨.refused hstill, not_gets_nil, hstill.hides⟩
  | none =>
    rw [hproblem] at h
    dsimp only at h
    split at h
    · rename_i hmode
      obtain ⟨first, ok, t, rest, rfl, hsave, hpure⟩ := StateT.path_bind.mp h
      obtain ⟨rfl, -, rfl⟩ := StateT.path_pure.mp hpure
      obtain ⟨hsets, hgets, hhides, hended⟩ := path_saveForm hsave
      rw [List.append_nil]
      exact ⟨.edited hmode hsets (hended.imp And.right And.right), hgets, hhides⟩
    · rename_i hmode
      obtain ⟨first, ok, t, rest, rfl, hrefresh, hrest⟩ := StateT.path_bind.mp h
      obtain ⟨answer, rfl, hsame, hform, hhides, hkeys⟩ := path_refresh hrefresh
      cases ok with
      | false =>
        obtain ⟨rfl, -, rfl⟩ := StateT.path_pure.mp hrest
        exact ⟨.unlisted hmode hsame, not_gets_cons nofun, hhides⟩
      | true =>
        obtain ⟨keys, hresult, hmem⟩ := hkeys rfl
        rw [if_pos rfl] at hrest
        have hrest := path_get_bind hrest
        split at hrest
        · rename_i hexists
          obtain ⟨rfl, rfl⟩ := path_modify hrest
          exact ⟨.asked hmode hresult ((hmem _).mp hexists) hproblem rfl hform, not_gets_cons nofun,
            hhides.trans (.of_eq rfl rfl rfl rfl)⟩
        · rename_i hnew
          obtain ⟨first, ok, t', rest, rfl, hsave, hpure⟩ := StateT.path_bind.mp hrest
          obtain ⟨rfl, -, rfl⟩ := StateT.path_pure.mp hpure
          obtain ⟨hsets, -, hhides', hended⟩ := path_saveForm hsave
          rw [List.append_nil]
          refine ⟨.added hmode hresult (fun h => hnew ((hmem _).mpr h)) hproblem hsets ?_, not_gets_cons nofun,
            hhides.trans hhides'⟩
          exact hended.imp (fun h => h.2.mode.trans hsame) And.right

/-- Keeps the mode; the selection may move. -/
structure Steady (s s' : Tui) : Prop where
  mode : s'.mode = s.mode
  hides : Hides s s'

namespace Steady

variable {t : Tui}

theorem refl (s : Tui) : Steady s s := ⟨rfl, .refl s⟩

theorem trans (h : Steady s t) (h' : Steady t s') : Steady s s' := ⟨h'.mode.trans h.mode, h.hides.trans h'.hides⟩

theorem withTree (s : Tui) (tree : Tree) : Steady s { s with tree } := ⟨rfl, .of_eq rfl rfl rfl rfl⟩

end Steady

theorem Still.steady (h : Still s s') : Steady s s' := ⟨h.mode, h.hides⟩

theorem rebuildRows_steady (id : Bytes) (s : Tui) : Steady s (s.rebuildRows id).2 :=
  ⟨rebuildRows_mode id s, rebuildRows_hides id s⟩

theorem selectRow_eq (id : Bytes) (s : Tui) : ∃ found tree, s.selectRow id = (found, { s with tree }) := by
  unfold selectRow
  split
  · exact ⟨true, _, rfl⟩
  · exact ⟨false, s.tree, rfl⟩

theorem selectFirst_steady (ids : List Bytes) (s : Tui) : Steady s (selectFirst ids s) := by
  induction ids generalizing s with
  | nil => exact .refl s
  | cons id ids ih =>
    obtain ⟨found, tree, h⟩ := selectRow_eq id s
    rw [selectFirst, h]
    cases found with
    | true => exact .withTree s tree
    | false => exact (Steady.withTree s tree).trans (ih _)

theorem fold_steady (unfold : Option Bool) (s : Tui) : Steady s (s.fold unfold) := by
  unfold fold
  split
  · exact .refl s
  · split
    · exact .refl s
    · split
      · exact (say_still ..).steady
      · dsimp only
        split
        · exact .refl s
        · refine Steady.trans ?_ (rebuildRows_steady ..)
          exact ⟨rfl, .of_eq rfl rfl rfl rfl⟩

theorem goParent_steady (s : Tui) : Steady s s.goParent := by
  unfold goParent
  split
  · exact .refl s
  · split
    · exact .withTree s _
    · exact .refl s

theorem applyFilter_steady (s : Tui) : Steady s s.applyFilter := by
  have h := rebuildRows_steady s.selectedId s
  unfold applyFilter
  rcases hr : s.rebuildRows s.selectedId with ⟨found, t⟩
  rw [hr] at h
  cases found with
  | true => exact h
  | false => exact h.trans (.withTree t _)

theorem clearFilter_steady (s : Tui) : Steady s s.clearFilter := by
  unfold clearFilter
  split
  · exact .refl s
  · dsimp only
    refine Steady.trans ?_ (rebuildRows_steady ..)
    exact ⟨rfl, .of_eq rfl rfl rfl rfl⟩

theorem menuMoves_steady (ftxui : Ftxui) (s : Tui) : Steady s (s.menuMoves ftxui) := by
  unfold menuMoves
  split
  · exact .withTree s _
  · exact .refl s

theorem clickRow_steady (ftxui : Ftxui) (s : Tui) : Steady s (s.clickRow ftxui) := by
  have h := (menuMoves_steady ftxui s).trans (syncSelection_still _).steady
  unfold clickRow
  dsimp only
  split
  · exact h.trans (fold_steady ..)
  · exact h

theorem goLeft_steady (s : Tui) : Steady s s.goLeft := by
  unfold goLeft
  dsimp only
  split
  · exact fold_steady ..
  · exact goParent_steady s

theorem goRight_steady (s : Tui) : Steady s s.goRight := by
  unfold goRight
  split
  · exact .refl s
  · split
    · exact .refl s
    · split
      · exact fold_steady ..
      · split
        · split
          · exact .withTree s _
          · exact .refl s
        · exact .refl s

theorem path_doDelete {u : Unit} (h : (doDelete s).Path calls (u, s')) :
    s'.mode = .normal ∧ Hides s s' ∧ ∃ (answer : Answer (.remove (s.currentKey.getD []))) (rest : _),
      calls = ⟨.remove (s.currentKey.getD []), answer⟩ :: rest ∧ ReadOnly rest := by
  obtain ⟨first, result, t, rest, rfl, hcall, hrest⟩ := StateT.path_bind.mp (path_get_bind (path_modify_bind h))
  obtain ⟨answer, daemonState, rfl, rfl, -⟩ := path_call hcall
  have hcalled : Hides s { s with mode := .normal, now := s.now + answer.elapsed, daemonState } :=
    ⟨Nat.le_add_right _ _, Or.inr ⟨rfl, rfl, rfl⟩⟩
  cases result with
  | error e =>
    have hfailed : ReadOnly rest ∧ s'.mode = .normal ∧ Hides s s' := by
      dsimp only at hrest
      unfold removeFailed at hrest
      split at hrest
      · split at hrest
        · obtain ⟨rfl, rfl⟩ := path_modify hrest
          exact ⟨readOnly_nil, rfl, hcalled.trans (complain_still ..).hides⟩
        · obtain ⟨hread, hmode, hhides⟩ := path_fail hrest
          exact ⟨hread, hmode, hcalled.trans hhides⟩
      · obtain ⟨hread, hmode, hhides⟩ := path_fail hrest
        exact ⟨hread, hmode, hcalled.trans hhides⟩
    exact ⟨hfailed.2.1, hfailed.2.2, answer, rest, rfl, hfailed.1⟩
  | ok _ =>
    dsimp only at hrest
    obtain ⟨first, ok, t, last, rfl, hrefresh, hlast⟩ := StateT.path_bind.mp (path_modify_bind hrest)
    obtain ⟨listed, rfl, hmode, -, hhides, -⟩ := path_refresh hrefresh
    have hread := @readOnly_cons [] ⟨.list, listed⟩ rfl readOnly_nil
    have hhides' := (hcalled.trans (say_still ..).hides).trans hhides
    cases ok with
    | false =>
      obtain ⟨rfl, -, rfl⟩ := StateT.path_pure.mp hlast
      exact ⟨hmode, hhides', answer, _, rfl, hread⟩
    | true =>
      obtain ⟨rfl, rfl⟩ := path_modify hlast
      have hlanded := selectFirst_steady (deleteLanding s.tree.rows s.tree.selected) t
      exact ⟨hlanded.mode.trans hmode, hhides'.trans hlanded.hides, answer, _, rfl, hread⟩

end Tui

end Secretov
