import Secretov.ExecRuns

/-! The marker of nested runs: what `exec` leaves in SECRETOV_INJECTED. -/

namespace Secretov

def comma : UInt8 := 44

/-- The items of a comma-separated variable. -/
def itemsOf (variable_ : Option CString) : List Bytes :=
  match variable_.filter (·.bytes ≠ []) with
  | some list => list.bytes.splitOn comma
  | none => []

/-- The names that SECRETOV_INJECTED lists. -/
def listed (environ : Environ) : List Bytes := itemsOf (environ (.of kInjectedVar))

theorem joinWith_cons (separator name : Bytes) {names : List Bytes} (h : names ≠ []) :
    joinWith separator (name :: names) = name ++ separator ++ joinWith separator names := by
  obtain ⟨next, rest, rfl⟩ := List.exists_cons_of_ne_nil h
  simp [joinWith, List.intercalate]

/-- A name without a comma is an item of the list it was joined into. -/
theorem mem_splitOn_joinWith {names : List Bytes} {name : Bytes} (h : name ∈ names) (hcomma : comma ∉ name) :
    name ∈ (joinWith (text ",") names).splitOn comma := by
  induction names with
  | nil => cases h
  | cons first rest ih =>
    by_cases hrest : rest = []
    · subst hrest
      obtain rfl := List.mem_singleton.mp h
      simp [joinWith, List.splitOn_eq_singleton hcomma]
    · have hjoin : joinWith (text ",") (first :: rest) = first ++ comma :: joinWith (text ",") rest := by
        rw [joinWith_cons _ _ hrest, List.append_assoc]
        rfl
      rw [hjoin, List.splitOn_append_cons_self, List.mem_append]
      obtain rfl | hmem := List.mem_cons.mp h
      · exact Or.inl (by simp [List.splitOn_eq_singleton hcomma])
      · exact Or.inr (ih hmem)

theorem joinWith_noNul {names : List Bytes} (h : ∀ name ∈ names, 0 ∉ name) : 0 ∉ joinWith (text ",") names := by
  induction names with
  | nil => simp [joinWith]
  | cons name names ih =>
    obtain ⟨hname, hrest⟩ := List.forall_mem_cons.mp h
    by_cases hempty : names = []
    · simpa [hempty, joinWith] using hname
    · rw [joinWith_cons _ _ hempty, List.mem_append, List.mem_append]
      have hcomma : 0 ∉ text "," := by decide
      simp [hname, hcomma, ih hrest]

theorem markerValue_noNul (inherited : Option CString) {injected : List Bytes} (h : ∀ name ∈ injected, 0 ∉ name) :
    0 ∉ markerValue inherited injected := by
  unfold markerValue
  split
  · rename_i marker _
    have hcomma : 0 ∉ text "," := by decide
    simp [marker.noNul, hcomma, joinWith_noNul h]
  · exact joinWith_noNul h

/-- The new marker lists what the inherited one does, and the injected names. -/
theorem itemsOf_markerValue {inherited : Option CString} {injected : List Bytes}
    (h : ∀ name ∈ injected, 0 ∉ name) :
    (∀ item ∈ itemsOf inherited, item ∈ itemsOf (some (.of (markerValue inherited injected)))) ∧
      ∀ name ∈ injected, name ≠ [] → comma ∉ name →
        name ∈ itemsOf (some (.of (markerValue inherited injected))) := by
  have hitems : markerValue inherited injected ≠ [] →
      itemsOf (some (.of (markerValue inherited injected))) = (markerValue inherited injected).splitOn comma := by
    intro hne
    have hbytes := CString.of_bytes_eq_iff.mpr (markerValue_noNul inherited h)
    simp [itemsOf, Option.filter, hbytes, hne]
  cases hmarker : inherited.filter (·.bytes ≠ []) with
  | none =>
    have hvalue : markerValue inherited injected = joinWith (text ",") injected := by rw [markerValue, hmarker]
    have hold : itemsOf inherited = [] := by rw [itemsOf, hmarker]
    refine ⟨by simp [hold], fun name hname hne hcomma => ?_⟩
    have hmem := mem_splitOn_joinWith hname hcomma
    have hjoin : joinWith (text ",") injected ≠ [] := by
      intro hempty
      rw [hempty] at hmem
      exact hne (by simpa using hmem)
    rw [hitems (by rwa [hvalue]), hvalue]
    exact hmem
  | some marker =>
    have hvalue : markerValue inherited injected = marker.bytes ++ comma :: joinWith (text ",") injected := by
      rw [markerValue, hmarker]
      exact List.append_assoc _ _ _
    have hne : markerValue inherited injected ≠ [] := by simp [hvalue]
    have hold : itemsOf inherited = marker.bytes.splitOn comma := by rw [itemsOf, hmarker]
    rw [hitems hne, hvalue, List.splitOn_append_cons_self, hold]
    exact ⟨fun item hitem => List.mem_append_left _ hitem, fun name hname _ hcomma =>
      List.mem_append_right _ (mem_splitOn_joinWith hname hcomma)⟩

/-! One run, and runs inside each other. -/

section

variable {σ : Type}

/-- What one `exec` is given, apart from its environment. -/
structure ExecLevel (σ : Type) where
  ask : Bytes → Bytes → Option Bytes → Prog LocalError σ Json
  session : σ
  yaml : YamlCpp
  around : ExecSurroundings
  files : ManifestFiles
  argv : List CString

namespace ExecLevel

def args (level : ExecLevel σ) : Except Bytes ExecArgs := parseExecArgs noArgs (level.argv.map CString.bytes)

def run (level : ExecLevel σ) (environ : Environ) : Except ExecError ExecOutcome × ExecState σ :=
  cmdExec level.ask level.yaml level.around level.files level.argv ⟨level.session, environ, []⟩

/-- The names that it takes from its manifest. -/
def manifestNames (level : ExecLevel σ) (environ : Environ) : List Bytes :=
  match level.args with
  | .error _ => []
  | .ok args => match execScope level.yaml level.around level.files args environ with
    | .error _ => []
    | .ok scope => (scope.plain ++ scope.targets).map Prod.fst

/-- No `--secret` of it overwrites the marker. -/
def KeepsMarker (level : ExecLevel σ) : Prop :=
  ∀ args, level.args = .ok args → ∀ r ∈ args.raw, r.2 ≠ kInjectedVar

end ExecLevel

theorem mem_foldl_addInjected {names injected : List Bytes} {name : Bytes} :
    name ∈ names.foldl addInjected injected ↔ name ∈ injected ∨ name ∈ names := by
  induction names generalizing injected with
  | nil => simp
  | cons first names ih =>
    rw [List.foldl_cons, ih, addInjected]
    split_ifs with hmem
    · constructor
      · rintro (h | h)
        · exact Or.inl h
        · exact Or.inr (List.mem_cons_of_mem _ h)
      · rintro (h | h)
        · exact Or.inl h
        · obtain rfl | h := List.mem_cons.mp h
          · exact Or.inl hmem
          · exact Or.inr h
    · simp [or_assoc]

theorem listed_marked (s : ExecState σ) (injected : List Bytes) (h : ∀ name ∈ injected, 0 ∉ name) :
    (∀ item ∈ listed s.environ, item ∈ listed (marked s injected).environ) ∧
      ∀ name ∈ injected, name ≠ [] → comma ∉ name → name ∈ listed (marked s injected).environ := by
  by_cases hempty : injected = []
  · simp [marked, hempty]
  · have hmarker : listed (marked s injected).environ =
        itemsOf (some (.of (markerValue (s.environ (.of kInjectedVar)) injected))) := by
      simp only [marked, if_neg hempty, listed, Function.update_self]
    rw [hmarker]
    exact itemsOf_markerValue h

theorem Settable.noComma {name : Bytes} (h : Settable name) : comma ∉ name := fun hmem => by
  have hcomma := h.mem.2 _ hmem
  revert hcomma
  decide

theorem ExecLevel.mem_manifestNames {level : ExecLevel σ}
    {environ : Environ} {args : ExecArgs} {scope : ExecScope}
    (hargs : level.args = .ok args)
    (hscope : execScope level.yaml level.around level.files args environ = .ok scope)
    {name : Bytes} (h : name ∈ level.manifestNames environ) (value : Bytes → Bytes) :
    Settable name ∧ name ∈ (exports scope args value).map Prod.fst := by
  obtain ⟨hplain, htargets⟩ := execScope_settable hscope
  simp only [manifestNames, hargs, hscope, List.map_append, List.mem_append, List.mem_map] at h
  rw [exports, wanted]
  obtain ⟨var, hvar, rfl⟩ | ⟨target, htarget, rfl⟩ := h
  · exact ⟨hplain var hvar, List.mem_map_of_mem (List.mem_append_left _ hvar)⟩
  · refine ⟨htargets target htarget, ?_⟩
    have hmem := List.mem_map_of_mem (f := fun item : Bytes × Bytes => (item.1, value item.2))
      (List.mem_append_left args.targets htarget)
    exact List.mem_map.mpr ⟨_, List.mem_append_right scope.plain hmem, rfl⟩

/-- The marker of a child: the names of the manifest, and what the run was given,
unless it gave that variable a value of its own. -/
theorem ExecLevel.marker_of_started {level : ExecLevel σ} {environ : Environ} {program : List Bytes}
    {s' : ExecState σ} (h : level.run environ = (.ok (.started program), s')) :
    (∀ name ∈ level.manifestNames environ, name ∈ listed s'.environ) ∧
      (level.KeepsMarker → ∀ name ∈ listed environ, name ∈ listed s'.environ) := by
  obtain ⟨args, scope, fetched, t, hargs, hscope, -, -, hinject⟩ := cmdExec_started h
  obtain ⟨-, middle, hall, rfl⟩ := injectFetched_eq_ok.mp hinject
  let value : Bytes → Bytes := fun p => fetched.values[p]?.getD []
  obtain ⟨-, hmiddle⟩ := setenvAll_eq_some.mp hall
  have hnul := exports_noNul hargs hscope value
  have hnames : ∀ name, name ∈ injectedNames (exports scope args value) [] ↔
      name ∈ (exports scope args value).map Prod.fst := by
    simp [injectedNames, mem_foldl_addInjected]
  obtain ⟨hold, hnew⟩ := listed_marked ⟨t, middle, [] ++ exports scope args value⟩
    (injectedNames (exports scope args value) []) fun name hname => by
      obtain ⟨item, hitem, rfl⟩ := List.mem_map.mp ((hnames name).mp hname)
      exact hnul item hitem
  refine ⟨fun name hname => ?_, fun hkeeps name hname => hold name ?_⟩
  · obtain ⟨hsettable, hmem⟩ := mem_manifestNames hargs hscope hname value
    exact hnew name ((hnames name).mpr hmem) hsettable.mem.1 hsettable.noComma
  · obtain ⟨hplain, htargets⟩ := execScope_settable hscope
    have hlast : lastOf kInjectedVar (exports scope args value) = none := by
      simp only [lastOf_eq_none_iff, exports, wanted, ExecArgs.targets, List.forall_mem_append,
        List.forall_mem_map, List.map_append]
      exact ⟨fun var hvar => (hplain var hvar).ne_injected,
        fun target htarget => (htargets target htarget).ne_injected, fun r hr => hkeeps args hargs r hr⟩
    have hkept : middle (.of kInjectedVar) = environ (.of kInjectedVar) := by
      have hread := congrFun hmiddle (.of kInjectedVar)
      rw [lastOf_asRead hnul (by decide), hlast] at hread
      exact hread
    have hsame : listed middle = listed environ := congrArg itemsOf hkept
    exact hsame ▸ hname

/-- Runs inside each other: each is started by the child of the one before, which has
left SECRETOV_INJECTED alone. -/
inductive NestedExecs (start : Environ) : List (ExecLevel σ × Environ) → Environ → Prop
  | nil : NestedExecs start [] start
  | exec {levels : List (ExecLevel σ × Environ)} {environ inherited : Environ} {level : ExecLevel σ}
      {program : List Bytes} {s' : ExecState σ} (outer : NestedExecs start levels environ)
      (leaves : inherited (.of kInjectedVar) = environ (.of kInjectedVar))
      (started : level.run inherited = (.ok (.started program), s')) :
      NestedExecs start (levels ++ [(level, inherited)]) s'.environ

/-- Every name of the manifests, and every name that was listed at the start, is listed. -/
def MarkerComplete (start : Environ) (levels : List (ExecLevel σ × Environ)) (environ : Environ) : Prop :=
  (∀ entry ∈ levels, ∀ name ∈ entry.1.manifestNames entry.2, name ∈ listed environ) ∧
    ∀ name ∈ listed start, name ∈ listed environ

theorem nested_marker_complete {start : Environ} {levels : List (ExecLevel σ × Environ)} {environ : Environ}
    (h : NestedExecs start levels environ) (hkeeps : ∀ entry ∈ levels, entry.1.KeepsMarker) :
    MarkerComplete start levels environ := by
  induction h with
  | nil => exact ⟨by simp, fun name => id⟩
  | @exec levels environ inherited level program s' outer leaves started ih =>
    obtain ⟨houter, hlevel⟩ := List.forall_mem_append.mp hkeeps
    obtain ⟨hnames, hstart⟩ := ih houter
    obtain ⟨hown, hold⟩ := level.marker_of_started started
    have hinherited : listed inherited = listed environ := by rw [listed, leaves, listed]
    have hkept : ∀ name ∈ listed environ, name ∈ listed s'.environ := by
      rw [← hinherited]
      exact hold (hlevel _ (List.mem_singleton_self _))
    refine ⟨?_, fun name hname => hkept name (hstart name hname)⟩
    rw [List.forall_mem_append, List.forall_mem_singleton]
    exact ⟨fun entry hentry name hname => hkept name (hnames entry hentry name hname), hown⟩

end

def plainLevel : ExecLevel (Session (storeFormat taggedBoxes)) where
  ask := (execChannel (text "x") plainReply).localRequest
  session := (execStart (text "x")).session
  yaml := loadOnly execText execTree
  around := execSurroundings
  files := execFiles
  argv := execArgv

def innerText : Bytes := text "name: cart\nenv:\n  dev:\n    vars:\n      UV_PUBLISH_PASSWORD: me\n"

/-- `exec -e dev --secret D=B -- prog`, in another project. -/
def innerLevel : ExecLevel (Session (storeFormat taggedBoxes)) :=
  { plainLevel with
    yaml := loadOnly innerText (.map [(.ofText "name", .ofText "cart"),
      (.ofText "env", .map [(.ofText "dev", .map [
      (.ofText "vars", .map [(.ofText "UV_PUBLISH_PASSWORD", .ofText "me")])])])])
    files := fun path => if path = text "m" then some innerText else none
    argv := [text "-e", text "dev", text "--secret", text "D=B", text "--", text "prog"].map CString.of }

/-- What a run that injected `name` leaves its child. -/
def leftBy (name : Bytes) : Environ := fun var => if var = .of kInjectedVar then some (.of name) else none

def outerRun : Except ExecError ExecOutcome × ExecState (Session (storeFormat taggedBoxes)) :=
  plainLevel.run (leftBy (text "C"))

def innerRun : Except ExecError ExecOutcome × ExecState (Session (storeFormat taggedBoxes)) :=
  innerLevel.run outerRun.2.environ

theorem nested_marker_complete_sample :
    NestedExecs (leftBy (text "C")) [(plainLevel, leftBy (text "C")), (innerLevel, outerRun.2.environ)]
      innerRun.2.environ ∧
    MarkerComplete (leftBy (text "C")) [(plainLevel, leftBy (text "C")), (innerLevel, outerRun.2.environ)]
      innerRun.2.environ := by
  have houter : outerRun.1 = .ok (.started [text "prog"]) := by decide +kernel
  have hinner : innerRun.1 = .ok (.started [text "prog"]) := by decide +kernel
  have hnested : NestedExecs (leftBy (text "C"))
      [(plainLevel, leftBy (text "C")), (innerLevel, outerRun.2.environ)] innerRun.2.environ :=
    .exec (.exec (.nil : NestedExecs _ [] _) rfl (Prod.ext houter rfl)) rfl (Prod.ext hinner rfl)
  refine ⟨hnested, nested_marker_complete hnested ?_⟩
  have hplain : plainLevel.args = .ok execArgs := by decide
  have hother : innerLevel.args = .ok { execArgs with raw := [(text "D", text "B")] } := by decide
  refine List.forall_mem_cons.mpr ⟨fun args hargs => ?_, List.forall_mem_singleton.mpr fun args hargs => ?_⟩
  · obtain rfl := Except.ok.inj (hplain.symm.trans hargs)
    decide
  · obtain rfl := Except.ok.inj (hother.symm.trans hargs)
    decide

/-- `exec --secret D=SECRETOV_INJECTED -- prog`. -/
def overwritingLevel : ExecLevel (Session (storeFormat taggedBoxes)) :=
  { plainLevel with argv := [text "--secret", text "D=SECRETOV_INJECTED", text "--", text "prog"].map CString.of }

def overwritingRun : Except ExecError ExecOutcome × ExecState (Session (storeFormat taggedBoxes)) :=
  overwritingLevel.run (leftBy (text "A"))

theorem overwritingRun_eq : (overwritingRun.1, listed overwritingRun.2.environ) =
    (.ok (.started [text "prog"]), [text "x", text "SECRETOV_INJECTED"]) := by decide

theorem not_markerComplete_overwriting :
    ¬∀ (start : Environ) (levels : List (ExecLevel (Session (storeFormat taggedBoxes)) × Environ))
      (environ : Environ), NestedExecs start levels environ → MarkerComplete start levels environ := by
  intro h
  obtain ⟨hstarted, hlisted⟩ := Prod.mk.inj overwritingRun_eq
  have hnested : NestedExecs (leftBy (text "A"))
      [(overwritingLevel, leftBy (text "A"))] overwritingRun.2.environ :=
    .exec (.nil : NestedExecs _ [] _) rfl (Prod.ext hstarted rfl)
  have hlost := (h _ _ _ hnested).2 (text "A") (by decide)
  rw [hlisted] at hlost
  revert hlost
  decide

end Secretov
