import Secretov.Lib.Since
import Secretov.TuiHandling

/-! What the TUI writes over a whole run, and what its frames show. -/

namespace Secretov

def Call.removed : Call → Option Bytes
  | remove key => some key
  | _ => none

def Call.written : Call → Option Bytes
  | set key _ => some key
  | _ => none

def removes (calls : List (Dialogue.Exchange Answer)) : List Bytes := calls.filterMap (·.question.removed)

def sets (calls : List (Dialogue.Exchange Answer)) : List Bytes := calls.filterMap (·.question.written)

variable {calls : List (Dialogue.Exchange Answer)} {key value : Bytes}

theorem removes_readOnly (h : ReadOnly calls) : removes calls = [] := by
  rw [removes, List.filterMap_eq_nil_iff]
  intro c hc
  have hread := h c hc
  cases hq : c.question with
  | remove key =>
    rw [hq] at hread
    cases hread
  | _ => rfl

theorem sets_readOnly (h : ReadOnly calls) : sets calls = [] := by
  rw [sets, List.filterMap_eq_nil_iff]
  intro c hc
  have hread := h c hc
  cases hq : c.question with
  | set key value =>
    rw [hq] at hread
    cases hread
  | _ => rfl

theorem removes_onlySets (h : Tui.OnlySets key calls) : removes calls = [] := by
  rw [removes, List.filterMap_eq_nil_iff]
  intro c hc
  cases hq : c.question with
  | remove key' =>
    obtain ⟨value, hset⟩ := h c hc (by rw [hq]; rfl)
    cases hq.symm.trans hset
  | _ => rfl

theorem sets_onlySets {key' : Bytes} (h : Tui.OnlySets key calls) (hmem : key' ∈ sets calls) : key' = key := by
  obtain ⟨c, hc, hwritten⟩ := List.mem_filterMap.mp hmem
  cases hq : c.question with
  | set k value =>
    rw [hq] at hwritten
    obtain rfl : k = key' := Option.some.inj hwritten
    obtain ⟨value', hset⟩ := h c hc (by rw [hq]; rfl)
    cases hq.symm.trans hset
    rfl
  | _ =>
    rw [hq] at hwritten
    cases hwritten

namespace Moment

def stays (mode : Mode) (m : Moment) : Prop := m.before.mode = mode ∧ m.after.mode = mode

/-- `d` has opened the question whether to delete this key. -/
def asksDelete (key : Bytes) (m : Moment) : Prop :=
  m.event = .key "d" ∧ m.before.mode = .normal ∧ m.before.currentKey = some key ∧ m.after.mode = .confirmDelete

/-- `e` has loaded the value of this key into the form. -/
def loads (key : Bytes) (m : Moment) : Prop :=
  m.event = .key "e" ∧ m.before.mode = .normal ∧ m.after.mode = .edit ∧
    ∃ (value : Bytes) (answer : Answer (.get key)), m.calls = [⟨.get key, answer⟩] ∧ answer.result = .ok value ∧
      m.after.form.addValue = value

/-- Submitting the form has found this name in the list that it fetched. -/
def asksOverwrite (name : Bytes) (m : Moment) : Prop :=
  m.before.mode = .add ∧ m.after.mode = .confirmOverwrite ∧ name = trimKeyName m.before.form.addName ∧
    keyNameError name = none ∧
    ∃ (answer : Answer .list) (keys : List Bytes), m.calls = [⟨.list, answer⟩] ∧ answer.result = .ok keys ∧
    name ∈ keys

/-- Submitting the form has not found this name in the list that it fetched. -/
def adds (name : Bytes) (m : Moment) : Prop :=
  m.before.mode = .add ∧ name = trimKeyName m.before.form.addName ∧ keyNameError name = none ∧
    ∃ (answer : Answer .list) (keys : List Bytes) (rest : List (Dialogue.Exchange Answer)),
      m.calls = ⟨.list, answer⟩ :: rest ∧ answer.result = .ok keys ∧ name ∉ keys

/-- A successful reveal. -/
def reveals (key value : Bytes) (m : Moment) : Prop :=
  Tui.isRevealKey m.event = true ∧
    ∃ answer : Answer (.get key), m.calls = [⟨.get key, answer⟩] ∧ answer.result = .ok value

end Moment

namespace Tui

variable {marks : ProjectMarks} {past : List Moment} {m : Moment} {s s' : Tui}

/-- What has led to an open question or edit form. -/
structure Asked (past : List Moment) (s : Tui) : Prop where
  delete : s.mode = .confirmDelete →
    ∃ key d, s.currentKey = some key ∧ Since (Moment.stays .confirmDelete) past d ∧ d.asksDelete key
  edit : s.mode = .edit →
    s.activeTab = 1 ∧ ∃ key d, s.currentKey = some key ∧ Since (Moment.stays .edit) past d ∧ d.loads key
  overwrite : s.mode = .confirmOverwrite →
    ∃ d, Since (Moment.stays .confirmOverwrite) past d ∧ d.asksOverwrite (trimKeyName s.form.addName)

namespace Asked

theorem normal (h : s.mode = .normal) : Asked past s := ⟨by simp [h], by simp [h], by simp [h]⟩

theorem still (h : Asked past s) (hstill : Still s s') : Asked past s' where
  delete hmode := by
    rw [hstill.currentKey]
    exact h.delete (hstill.mode.symm.trans hmode)
  edit hmode := by
    rw [hstill.currentKey, hstill.activeTab]
    exact h.edit (hstill.mode.symm.trans hmode)
  overwrite hmode := by
    rw [hstill.addName]
    exact h.overwrite (hstill.mode.symm.trans hmode)

theorem step (h : Asked past m.before)
    (hhandles : Handles m.event m.found m.calls m.after) : Asked (m :: past) m.after where
  delete hmode := by
    rcases hhandles.toDelete hmode with ⟨hopen, htree⟩ | ⟨hevent, hnormal, htree, hsome⟩
    · obtain ⟨key, d, hkey, hsince, hasks⟩ := h.delete hopen
      refine ⟨key, d, ?_, .later ⟨hopen, hmode⟩ hsince, hasks⟩
      rw [Tui.currentKey, htree]
      exact hkey
    · obtain ⟨key, hkey⟩ := Option.isSome_iff_exists.mp hsome
      refine ⟨key, m, hkey, .now m past, hevent, hnormal, ?_, hmode⟩
      rw [Tui.currentKey, htree] at hkey
      exact hkey
  edit hmode := by
    rcases hhandles.toEdit hmode with ⟨hopen, htree, htab⟩ | ⟨hevent, hnormal, key, value, answer, hcalls, hok,
        hkey, hform, htab⟩
    · obtain ⟨hactive, key, d, hkey, hsince, hloads⟩ := h.edit hopen
      refine ⟨htab.trans hactive, key, d, ?_, .later ⟨hopen, hmode⟩ hsince, hloads⟩
      rw [Tui.currentKey, htree]
      exact hkey
    · exact ⟨htab, key, m, hkey, .now m past, hevent, hnormal, hmode, value, answer, hcalls, hok, hform⟩
  overwrite hmode := by
    obtain ⟨hname, hopen | ⟨hadd, answer, keys, hcalls, hok, hmem, hvalid⟩⟩ := hhandles.toOverwrite hmode
    · obtain ⟨d, hsince, hasks⟩ := h.overwrite hopen
      rw [hname]
      exact ⟨d, .later ⟨hopen, hmode⟩ hsince, hasks⟩
    · rw [hname]
      exact ⟨m, .now m past, hadd, hmode, rfl, hvalid, answer, keys, hcalls, hok, hmem⟩

end Asked

theorem start_mode (h : (Tui.start marks .initial).Path calls ((), s)) : s.mode = .normal ∧ Hides .initial s := by
  obtain ⟨first, ok, t, rest, rfl, hrefresh, hrest⟩ := StateT.path_bind.mp h
  obtain ⟨answer, -, hmode, -, hhides, -⟩ := path_refresh hrefresh
  obtain ⟨rfl, rfl⟩ := path_modify hrest
  split
  · exact ⟨hmode, hhides.trans (complain_still ..).hides⟩
  · split
    · exact ⟨hmode, hhides.trans (say_still ..).hides⟩
    · exact ⟨hmode, hhides⟩

theorem frame_still (helpScroll detailScroll : Int) (s : Tui) : Still s (s.frame helpScroll detailScroll) := by
  refine (syncSelection_still s).trans ?_
  exact ⟨rfl, rfl, rfl, rfl, .of_eq rfl rfl rfl rfl, id⟩

theorem path_moment (hasked : Asked past m.before)
    (h : (Tui.handle m.event m.ftxui m.found).Path m.calls ((), m.after)) :
    Handles m.event m.found m.calls m.after ∧ Fresh m.at m.after := by
  have hactive : m.found.mode = .edit → m.found.activeTab = 1 := fun hedit => (hasked.edit hedit).1
  exact path_handle hactive h

theorem asked_of_run (h : TuiRun marks past s) : Asked past s := by
  induction h with
  | start hstart => exact .normal (start_mode hstart).1
  | event hrun hpath ih => exact ih.step (path_moment ih hpath).1
  | frame helpScroll detailScroll hrun ih => exact ih.still (frame_still ..)

/-- The state that an event of the run has found, and what handling it comes to. -/
theorem run_moment {earlier : List Moment} (h : TuiRun marks past s) (hm : m :: earlier <:+ past) :
    TuiRun marks earlier m.before ∧ Handles m.event m.found m.calls m.after := by
  induction h with
  | start hstart => cases List.suffix_nil.mp hm
  | event hrun hpath ih =>
    rcases List.suffix_cons_iff.mp hm with heq | hm
    · obtain ⟨rfl, rfl⟩ := List.cons.inj heq
      exact ⟨hrun, (path_moment (asked_of_run hrun) hpath).1⟩
    · exact ih hm
  | frame helpScroll detailScroll hrun ih => exact ih hm

/-- What is deleted is what `d` has asked about, and what is set is what the form
was opened on, a new name, or a name that has been asked about. -/
structure WritesAsked (earlier : List Moment) (m : Moment) : Prop where
  removes : removes m.calls = [] ∨
    m.before.mode = .confirmDelete ∧ isYes m.event = true ∧ ∃ key d, removes m.calls = [key] ∧
      Since (Moment.stays .confirmDelete) earlier d ∧ d.asksDelete key
  sets : ∀ key ∈ sets m.calls,
    m.before.mode = .edit ∧ (∃ d, Since (Moment.stays .edit) earlier d ∧ d.loads key) ∨
    m.adds key ∨
    m.before.mode = .confirmOverwrite ∧ isYes m.event = true ∧
      ∃ d, Since (Moment.stays .confirmOverwrite) earlier d ∧ d.asksOverwrite key

theorem run_writes {earlier : List Moment} (h : TuiRun marks past s) (hm : m :: earlier <:+ past) :
    WritesAsked earlier m := by
  suffices hwrites : _ ∧ _ from ⟨hwrites.1, hwrites.2⟩
  obtain ⟨hrun, hhandles⟩ := run_moment h hm
  have hasked := asked_of_run hrun
  generalize hcalls : m.calls = calls at hhandles ⊢
  cases hhandles.writes with
  | none hread =>
    rw [sets_readOnly hread]
    exact ⟨Or.inl (removes_readOnly hread), nofun⟩
  | edit hmode hsets =>
    refine ⟨Or.inl (removes_onlySets hsets), fun key hkey => Or.inl ⟨hmode, ?_⟩⟩
    obtain ⟨-, key', d, hcurrent, hsince, hloads⟩ := hasked.edit hmode
    obtain rfl : key = key' := by
      have hcurrent' : m.found.currentKey = some key' := hcurrent
      simpa [hcurrent'] using sets_onlySets hsets hkey
    exact ⟨d, hsince, hloads⟩
  | @add answer keys rest hmode hresult hnew hname hsets =>
    have hlisted : removes (⟨.list, answer⟩ :: rest) = removes rest ∧
        sets (⟨.list, answer⟩ :: rest) = sets rest :=
      ⟨rfl, rfl⟩
    rw [hlisted.1, hlisted.2]
    refine ⟨Or.inl (removes_onlySets hsets), fun key hkey => Or.inr (Or.inl ?_)⟩
    obtain rfl := sets_onlySets hsets hkey
    exact ⟨hmode, rfl, hname, answer, keys, rest, hcalls, hresult, hnew⟩
  | overwrite hmode hyes hsets =>
    refine ⟨Or.inl (removes_onlySets hsets), fun key hkey => Or.inr (Or.inr ⟨hmode, hyes, ?_⟩)⟩
    obtain rfl := sets_onlySets hsets hkey
    exact hasked.overwrite hmode
  | @delete answer rest hmode hyes hread =>
    obtain ⟨key, d, hcurrent, hsince, hasks⟩ := hasked.delete hmode
    have hcurrent' : m.found.currentKey = some key := hcurrent
    have hremoves : removes (⟨.remove (m.found.currentKey.getD []), answer⟩ :: rest) = [key] := by
      have hrest := removes_readOnly hread
      simp only [removes, List.filterMap_cons, Call.removed, hcurrent', Option.getD_some] at hrest ⊢
      rw [hrest]
    refine ⟨Or.inr ⟨hmode, hyes, key, d, hremoves, hsince, hasks⟩, ?_⟩
    have hsets : sets (⟨.remove (m.found.currentKey.getD []), answer⟩ :: rest) = [] := by
      simp only [sets, List.filterMap_cons, Call.written]
      exact sets_readOnly hread
    rw [hsets]
    exact nofun

/-- The next event of a run in which the calls get these answers. -/
def played (answer : (q : Call) → Answer q) (elapsed : Time) (before : Tui) (event : TuiEvent) : Moment :=
  let found : Moment := ⟨before, elapsed, event, ⟨0, false, id⟩, [], before⟩
  let replied := (Tui.handle event found.ftxui found.found).reply answer
  { found with calls := replied.1, after := replied.2.2 }

def opened (answer : (q : Call) → Answer q) : Tui := ((Tui.start ⟨[], []⟩ .initial).reply answer).2.2

theorem run_opened (answer : (q : Call) → Answer q) : TuiRun ⟨[], []⟩ [] (opened answer) :=
  .start (Dialogue.path_reply answer (Tui.start ⟨[], []⟩ .initial))

theorem run_played (hrun : TuiRun marks past s) (answer : (q : Call) → Answer q)
    (elapsed : Time) (event : TuiEvent) :
    TuiRun marks (played answer elapsed s event :: past) (played answer elapsed s event).after := by
  have hpath := Dialogue.path_reply answer (Tui.handle event ⟨0, false, id⟩ { s with now := s.now + elapsed })
  exact @TuiRun.event _ _ (played answer elapsed s event) hrun hpath

def sampleAnswer : (q : Call) → Answer q
  | .list => ⟨.ok [text "b", text "a"], 0⟩
  | .get _ => ⟨.ok (text "v"), 0⟩
  | .set _ _ => ⟨.ok (), 0⟩
  | .remove _ => ⟨.ok (), 0⟩
  | .writeToTerminal _ => ⟨.ok (), 0⟩

def sampleAsked : Moment := played sampleAnswer kInfoFor (opened sampleAnswer) (.key "d")

def sampleDeleted : Moment := played sampleAnswer kInfoFor sampleAsked.after (.key "y")

theorem run_writes_sample : WritesAsked [sampleAsked] sampleDeleted := by
  have hasked := run_played (run_opened sampleAnswer) sampleAnswer kInfoFor (.key "d")
  exact run_writes (run_played hasked sampleAnswer kInfoFor (.key "y")) (List.suffix_refl _)

/-- A value on show has been fetched by the last successful reveal, for the
selected key. -/
def Shown (past : List Moment) (s : Tui) : Prop :=
  ∀ value, s.revealed = some value →
    ∃ key d, Since (fun m => ∀ key value, ¬m.reveals key value) past d ∧ d.reveals key value ∧
      s.selectionId = key ∧ s.revealedAt = d.after.now

namespace Shown

theorem hides (h : Shown past s) (hhides : Hides s s') : Shown past s' := by
  intro value hvalue
  rcases hhides.revealed with hnone | ⟨hrevealed, hat, hid⟩
  · cases hnone.symm.trans hvalue
  · rw [hid, hat]
    exact h value (hrevealed.symm.trans hvalue)

theorem step (h : Shown past m.before) (hhandles : Handles m.event m.found m.calls m.after) :
    Shown (m :: past) m.after := by
  rcases hhandles.shown with ⟨hhides, hgets⟩ | ⟨hkey, key, value, answer, hcalls, hok, hrevealed, hid, hat⟩
  · intro value hvalue
    have hkept : Shown past m.after := by
      refine Shown.hides (s := m.found) ?_ hhides
      exact h
    obtain ⟨key, d, hsince, hrest⟩ := hkept value hvalue
    refine ⟨key, d, .later ?_ hsince, hrest⟩
    rintro key' value' ⟨hevent, answer, hcalls, hok⟩
    exact hgets hevent ⟨key', value', answer, hcalls, hok⟩
  · intro value' hvalue
    obtain rfl := Option.some.inj (hrevealed.symm.trans hvalue)
    exact ⟨key, m, .now m past, ⟨hkey, answer, hcalls, hok⟩, hid, hat⟩

end Shown

theorem shown_of_run (h : TuiRun marks past s) : Shown past s := by
  induction h with
  | start hstart =>
    intro value hvalue
    rcases (start_mode hstart).2.revealed with hnone | ⟨hnone, -, -⟩ <;> cases hnone.symm.trans hvalue
  | event hrun hpath ih => exact ih.step (path_moment (asked_of_run hrun) hpath).1
  | frame helpScroll detailScroll hrun ih => exact ih.hides (frame_still ..).hides

theorem fresh_of_run {earlier : List Moment} (h : TuiRun marks past s) (hm : past = m :: earlier) :
    Fresh m.at s := by
  induction h with
  | start hstart => cases hm
  | event hrun hpath ih =>
    obtain ⟨rfl, -⟩ := List.cons.inj hm
    exact (path_moment (asked_of_run hrun) hpath).2
  | @frame past s helpScroll detailScroll hrun ih =>
    intro hsome
    rcases (frame_still helpScroll detailScroll s).hides.revealed with hnone | ⟨hrevealed, hat, -⟩
    · rw [hnone] at hsome
      cases hsome
    · rw [hat]
      exact ih hm (hrevealed ▸ hsome)

theorem detail_value {s : Tui} {key value : Bytes} (h : s.detail = .value key value) :
    ∃ row, s.tree.row? = some row ∧ row.dir = false ∧ row.id = key ∧ s.revealed = some value := by
  unfold detail at h
  split at h
  · cases h
  · rename_i row hrow
    split at h
    · cases h
    · rename_i hdir
      split at h
      · cases h
      · rename_i shown hshown
        cases h
        exact ⟨row, hrow, by simpa using hdir, rfl, hshown⟩

def ValidTree (t : Tree) : Prop := t.labels.length = t.rows.length ∧ (t.rows = [] ∨ t.selected < t.rows.length)

/-- A value that a frame draws is drawn on a secret's row, which is that of the key
that the last successful reveal has fetched it for, within a minute. -/
def ShowsOwn (past : List Moment) (f : Tui) : Prop :=
  ∀ key value, f.detail = .value key value →
    ∃ row d, f.tree.row? = some row ∧ row.dir = false ∧ row.id = key ∧ d.reveals key value ∧
      Since (fun m => ∀ key value, ¬m.reveals key value) past d ∧
      ∀ m earlier, past = m :: earlier → m.at < d.after.now + kRevealFor

theorem run_shows (h : TuiRun marks past s) (helpScroll detailScroll : Int) :
    ValidTree s.tree ∧ ValidTree (s.frame helpScroll detailScroll).tree ∧
      ShowsOwn past (s.frame helpScroll detailScroll) := by
  refine ⟨⟨s.tree.parallel, s.tree.inRange⟩, ⟨Tree.parallel _, Tree.inRange _⟩, fun key value hdetail => ?_⟩
  have hframe : TuiRun marks past (s.frame helpScroll detailScroll) := .frame helpScroll detailScroll h
  obtain ⟨row, hrow, hdir, rfl, hrevealed⟩ := detail_value hdetail
  obtain ⟨key, d, hsince, hreveals, hid, hat⟩ := shown_of_run hframe value hrevealed
  have hsynced : (s.frame helpScroll detailScroll).selectionId = (s.frame helpScroll detailScroll).selectedId :=
    syncSelection_selectionId s
  have hkey : row.id = key := by
    rw [← hid, hsynced, selectedId, hrow]
    rfl
  refine ⟨row, d, hrow, hdir, rfl, hkey ▸ hreveals, hsince, fun m earlier hpast => ?_⟩
  rw [← hat]
  exact fresh_of_run hframe hpast (Option.isSome_of_eq_some hrevealed)

def sampleRevealed : Moment := played sampleAnswer kInfoFor (opened sampleAnswer) (.key "r")

theorem run_shows_sample :
    ValidTree sampleRevealed.after.tree ∧ ValidTree (sampleRevealed.after.frame 0 0).tree ∧
      ShowsOwn [sampleRevealed] (sampleRevealed.after.frame 0 0) :=
  run_shows (run_played (run_opened sampleAnswer) sampleAnswer kInfoFor (.key "r")) 0 0

end Tui

end Secretov
