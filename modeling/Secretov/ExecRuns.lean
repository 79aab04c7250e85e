import Secretov.Exec
import Secretov.FetchMany
import Secretov.ImportChecks
import Secretov.ManifestTrust

/-! What `exec` exports: the last value for each name, of secrets that are all stored. -/

namespace Secretov

/-! The command line. -/

theorem secretSpec_noNul {spec : Bytes} (h : 0 ∉ spec) : 0 ∉ (secretSpec spec).1 ∧ 0 ∉ (secretSpec spec).2 := by
  unfold secretSpec
  split
  · exact ⟨h, h⟩
  · rename_i envvar hdrop
    have hsuffix := List.dropWhile_suffix (· ≠ equalsSign) (l := spec)
    rw [hdrop] at hsuffix
    refine ⟨fun hmem => h ((List.takeWhile_prefix _).subset hmem), fun hmem => h (hsuffix.subset ?_)⟩
    exact List.mem_cons_of_mem _ hmem

theorem parseExecArgs_noNul {args args' : ExecArgs} {argv : List Bytes} (h : parseExecArgs args argv = .ok args')
    (hargv : ∀ arg ∈ argv, 0 ∉ arg) (hraw : ∀ r ∈ args.raw, 0 ∉ r.1 ∧ 0 ∉ r.2) :
    ∀ r ∈ args'.raw, 0 ∉ r.1 ∧ 0 ∉ r.2 := by
  fun_induction parseExecArgs args argv with
  | case1 =>
    obtain rfl := Except.ok.inj h
    exact hraw
  | case2 =>
    obtain rfl := Except.ok.inj h
    exact hraw
  | case3 | case5 | case8 | case10 => cases h
  | case4 _ _ _ _ _ _ ih | case6 _ _ _ _ _ _ _ ih =>
    exact ih h (fun arg harg => hargv arg (by simp [harg])) hraw
  | case7 _ _ _ _ _ ih => exact ih h (fun arg harg => hargv arg (by simp [harg])) hraw
  | case9 args spec rest _ _ _ _ ih =>
    refine ih h (fun arg harg => hargv arg (by simp [harg])) ?_
    rw [List.forall_mem_append, List.forall_mem_singleton]
    exact ⟨hraw, secretSpec_noNul (hargv spec (by simp))⟩

/-! Names from a manifest. -/

theorem Settable.mem {name : Bytes} (h : Settable name) :
    name ≠ [] ∧ ∀ b ∈ name, isAlnum b = true ∨ b = underscore := by
  obtain ⟨⟨c, rest, rfl, hc, hrest⟩, -⟩ := h
  refine ⟨by simp, List.forall_mem_cons.mpr ⟨hc.imp_left fun halpha => ?_, hrest⟩⟩
  simp [isAlnum, halpha]

theorem Settable.noNul {name : Bytes} (h : Settable name) : 0 ∉ name := fun h0 => by
  have hzero := h.mem.2 0 h0
  revert hzero
  decide

theorem Settable.nameable {name : Bytes} (h : Settable name) : Nameable name := by
  rw [Nameable, CString.of_bytes_eq_iff.mpr h.noNul]
  refine ⟨h.mem.1, fun hmem => ?_⟩
  have hequals := h.mem.2 _ hmem
  revert hequals
  decide

theorem Settable.ne_injected {name : Bytes} (h : Settable name) : name ≠ kInjectedVar := by
  rintro rfl
  have hdenied := (settable_iff.mpr h).2
  revert hdenied
  decide

section

variable {yaml : YamlCpp} {around : ExecSurroundings} {files : ManifestFiles} {args : ExecArgs}
  {environ : Environ} {scope : ExecScope}

theorem loadManifest_vetted {path : Bytes} {m : Manifest} (h : loadManifest yaml around files path = .ok m) :
    ∃ envPairs, EnvsVetted yaml envPairs m := by
  obtain ⟨contents, -, h⟩ := Prog.except_bind_eq_ok.mp h
  obtain ⟨doc, -, hdoc⟩ := parseManifest_eq_ok.mp h
  exact ⟨_, (parseDocument_eq_ok hdoc).envs⟩

theorem resolveManifest_vetted {project : Option Bytes} {m : Manifest}
    (h : resolveManifest yaml around files project = .ok m) : ∃ envPairs, EnvsVetted yaml envPairs m := by
  unfold resolveManifest at h
  cases project with
  | none =>
    obtain ⟨found, -, h⟩ := Prog.except_bind_eq_ok.mp h
    cases found with
    | none => cases h
    | some found => exact loadManifest_vetted h
  | some project =>
    obtain ⟨root, -, h⟩ := Prog.except_bind_eq_ok.mp h
    cases root with
    | none => cases h
    | some root =>
      obtain ⟨m', hload, h⟩ := Prog.except_bind_eq_ok.mp h
      obtain ⟨_, -, h⟩ := Prog.except_bind_eq_ok.mp h
      obtain rfl := Except.ok.inj h
      exact loadManifest_vetted hload

theorem execScope_settable (h : execScope yaml around files args environ = .ok scope) :
    (∀ var ∈ scope.plain, Settable var.1) ∧ ∀ target ∈ scope.targets, Settable target.1 := by
  unfold execScope at h
  split_ifs at h with hmanifest
  · obtain ⟨m, hm, h⟩ := Prog.except_bind_eq_ok.mp h
    obtain ⟨_, -, h⟩ := Prog.except_bind_eq_ok.mp h
    obtain ⟨env, -, h⟩ := Prog.except_bind_eq_ok.mp h
    obtain ⟨entries, hentries, h⟩ := Prog.except_bind_eq_ok.mp h
    obtain rfl := Except.ok.inj h
    obtain ⟨envPairs, hvetted⟩ := resolveManifest_vetted hm
    obtain ⟨hnone, -⟩ | ⟨entries', plain, hentries', hplain, pair, -, -, henv⟩ := hvetted env
    · simp [entriesFor, hnone] at hentries
    · obtain rfl : entries' = entries := by simpa [entriesFor, hentries'] using hentries
      refine ⟨by simpa [varsFor, hplain] using henv.eachVar, ?_⟩
      simp only [ExecScope.targets, List.forall_mem_map]
      intro e he
      obtain ⟨_, -, -, hentry⟩ := henv.eachEntry e he
      exact hentry.envVar.1
  · obtain rfl := Except.ok.inj h
    simp [ExecScope.targets]

end

/-! Exports, one after another. -/

section

variable {σ : Type} {s s' : ExecState σ}

theorem fail_eq_ok {α : Type} {r : Except Bytes α} {a : α} : fail r s = (.ok a, s') ↔ r = .ok a ∧ s' = s := by
  cases r <;> simp [fail, Except.mapError, eq_comm]

theorem exportEnvVar_eq_ok {name value : Bytes} {u : PUnit} : exportEnvVar name value s = (.ok u, s') ↔
    ∃ environ, setenv s.environ name value = some environ ∧
      s' = ⟨s.session, environ, s.setenvs ++ [(name, value)]⟩ := by
  unfold exportEnvVar
  dsimp only
  cases hset : setenv s.environ name value with
  | none => simp
  | some environ => simp [eq_comm]

theorem inject_eq_ok {injected injected' : List Bytes} {item : Bytes × Bytes} :
    inject injected item s = (.ok injected', s') ↔ injected' = addInjected injected item.1 ∧
      ∃ environ, setenv s.environ item.1 item.2 = some environ ∧
        s' = ⟨s.session, environ, s.setenvs ++ [item]⟩ := by
  unfold inject
  constructor
  · intro h
    obtain ⟨_, t, hexport, h⟩ := Prog.bind_eq_ok.mp h
    obtain ⟨hinjected, rfl⟩ := Prod.mk.inj h
    exact ⟨(Except.ok.inj hinjected).symm, exportEnvVar_eq_ok.mp hexport⟩
  · rintro ⟨rfl, hexport⟩
    exact Prog.bind_eq_ok.mpr ⟨⟨⟩, s', exportEnvVar_eq_ok.mpr hexport, rfl⟩

def injectedNames (exports : KeyValues) (injected : List Bytes) : List Bytes :=
  (exports.map Prod.fst).foldl addInjected injected

theorem foldlM_inject_eq_ok {exports : KeyValues} {injected injected' : List Bytes} :
    exports.foldlM inject injected s = (.ok injected', s') ↔ injected' = injectedNames exports injected ∧
      ∃ environ, setenvAll s.environ exports = some environ ∧
        s' = ⟨s.session, environ, s.setenvs ++ exports⟩ := by
  induction exports generalizing injected s with
  | nil => simp [injectedNames, setenvAll, eq_comm]
  | cons item exports ih =>
    rw [List.foldlM_cons, Prog.bind_eq_ok]
    constructor
    · rintro ⟨_, t, hitem, hrest⟩
      obtain ⟨rfl, middle, hmiddle, rfl⟩ := inject_eq_ok.mp hitem
      obtain ⟨rfl, environ, hall, rfl⟩ := ih.mp hrest
      exact ⟨rfl, environ, Option.bind_eq_some_iff.mpr ⟨middle, hmiddle, hall⟩, by simp⟩
    · rintro ⟨rfl, environ, hall, rfl⟩
      obtain ⟨middle, hmiddle, hall⟩ := Option.bind_eq_some_iff.mp hall
      exact ⟨_, _, inject_eq_ok.mpr ⟨rfl, middle, hmiddle, rfl⟩, ih.mpr ⟨rfl, environ, hall, by simp⟩⟩

/-- Everything that an exec exports, in its order. -/
def exports (scope : ExecScope) (args : ExecArgs) (value : Bytes → Bytes) : KeyValues :=
  scope.plain ++ (wanted scope args).map fun item => (item.1, value item.2)

theorem foldlM_injectSecret_eq_ok {fetched : Fetched} {targets : KeyValues} {injected injected' : List Bytes} :
    targets.foldlM (injectSecret fetched) injected s = (.ok injected', s') ↔
      (∀ item ∈ targets, item.2 ∈ fetched.values) ∧
        (targets.map fun item => (item.1, fetched.values[item.2]?.getD [])).foldlM inject injected s =
          (.ok injected', s') := by
  induction targets generalizing injected s with
  | nil => simp
  | cons item targets ih =>
    rw [List.foldlM_cons, List.map_cons, List.foldlM_cons, List.forall_mem_cons]
    cases hvalue : fetched.values[item.2]? with
    | none =>
      have hmissing : item.2 ∉ fetched.values := by simpa using hvalue
      have hstep : injectSecret fetched injected item s = (.error (.failed (text "map::at")), s) := by
        simp [injectSecret, valueAt, hvalue, fail, Except.mapError, Prog.bind_apply]
      simp [Prog.bind_apply, hstep, hmissing]
    | some value =>
      have hmem : item.2 ∈ fetched.values := by
        rw [Std.ExtTreeMap.mem_iff_isSome_getElem?, hvalue]
        rfl
      have hstep : injectSecret fetched injected item =
          (inject injected (item.1, value) : ExecM σ (List Bytes)) := by
        funext t
        simp [injectSecret, valueAt, hvalue, fail, Except.mapError, Prog.bind_apply]
      rw [hstep, Option.getD_some, Prog.bind_eq_ok, Prog.bind_eq_ok]
      simp only [ih, hmem, true_and]
      tauto

/-- The process after `markInjected`. -/
def marked (s : ExecState σ) (injected : List Bytes) : ExecState σ :=
  if injected = [] then s
  else
    let value := markerValue (s.environ (.of kInjectedVar)) injected
    ⟨s.session, Function.update s.environ (.of kInjectedVar) (some (.of value)),
      s.setenvs ++ [(kInjectedVar, value)]⟩

theorem markInjected_eq (injected : List Bytes) : markInjected injected s = (.ok ⟨⟩, marked s injected) := by
  have hnameable : Nameable kInjectedVar := by decide
  unfold markInjected marked
  by_cases hempty : injected = []
  · simp [hempty]
  · rw [if_pos hempty, if_neg hempty]
    exact exportEnvVar_eq_ok.mpr ⟨_, setenv_eq_some.mpr ⟨hnameable, rfl⟩, rfl⟩

variable {scope : ExecScope} {args : ExecArgs} {fetched : Fetched}

theorem injectFetched_eq_ok {u : PUnit} : injectFetched scope args fetched s = (.ok u, s') ↔
    (∀ item ∈ wanted scope args, item.2 ∈ fetched.values) ∧
      ∃ environ, setenvAll s.environ (exports scope args fun p => fetched.values[p]?.getD []) = some environ ∧
        s' = marked ⟨s.session, environ, s.setenvs ++ exports scope args fun p => fetched.values[p]?.getD []⟩
          (injectedNames (exports scope args fun p => fetched.values[p]?.getD []) []) := by
  have hfolds : injectFetched scope args fetched s = (.ok u, s') ↔
      (∀ item ∈ wanted scope args, item.2 ∈ fetched.values) ∧ ∃ injected t,
        (exports scope args fun p => fetched.values[p]?.getD []).foldlM inject [] s = (.ok injected, t) ∧
          markInjected injected t = (.ok u, s') := by
    simp only [injectFetched, exports, Prog.bind_eq_ok, foldlM_injectSecret_eq_ok, Prog.foldlM_append_eq_ok]
    constructor
    · rintro ⟨middle, t, hplain, injected, t', ⟨hmem, hwanted⟩, hmark⟩
      exact ⟨hmem, injected, t', ⟨middle, t, hplain, hwanted⟩, hmark⟩
    · rintro ⟨hmem, injected, t', ⟨middle, t, hplain, hwanted⟩, hmark⟩
      exact ⟨middle, t, hplain, injected, t', ⟨hmem, hwanted⟩, hmark⟩
  rw [hfolds]
  refine and_congr_right fun _ => ?_
  constructor
  · rintro ⟨injected, t, hexports, hmark⟩
    obtain ⟨rfl, environ, hall, rfl⟩ := foldlM_inject_eq_ok.mp hexports
    rw [markInjected_eq] at hmark
    exact ⟨environ, hall, (Prod.mk.inj hmark).2.symm⟩
  · rintro ⟨environ, hall, rfl⟩
    exact ⟨_, _, foldlM_inject_eq_ok.mpr ⟨rfl, environ, hall, rfl⟩, markInjected_eq _⟩

end

theorem environ_marked {σ : Type} (s : ExecState σ) (injected : List Bytes)
    {name : Bytes} (hname : name ≠ kInjectedVar)
    (hnul : 0 ∉ name) : (marked s injected).environ (.of name) = s.environ (.of name) := by
  unfold marked
  split_ifs with hempty
  · rfl
  · have hne : CString.of name ≠ CString.of kInjectedVar := mt (CString.of_eq_iff hnul (by decide)).mp hname
    simp [Function.update_of_ne hne]

/-! The whole command. -/

section

variable {σ : Type} {ask : Bytes → Bytes → Option Bytes → Prog LocalError σ Json} {yaml : YamlCpp}
  {around : ExecSurroundings} {files : ManifestFiles} {argv : List CString} {args : ExecArgs} {scope : ExecScope}
  {fetched : Fetched} {s s' : ExecState σ}

def noArgs : ExecArgs := ⟨none, none, false, [], []⟩

theorem exports_noNul (hargs : parseExecArgs noArgs (argv.map CString.bytes) = .ok args) {environ : Environ}
    (hscope : execScope yaml around files args environ = .ok scope) (value : Bytes → Bytes) :
    ∀ item ∈ exports scope args value, 0 ∉ item.1 := by
  obtain ⟨hplain, htargets⟩ := execScope_settable hscope
  have hraw := parseExecArgs_noNul hargs (by simp [CString.noNul]) (by simp [noArgs])
  simp only [exports, wanted, ExecArgs.targets, List.forall_mem_append, List.forall_mem_map, List.map_append]
  exact ⟨fun var hvar => (hplain var hvar).noNul, fun target htarget => (htargets target htarget).noNul,
    fun r hr => (hraw r hr).2⟩

theorem cmdExec_started {program : List Bytes}
    (h : cmdExec ask yaml around files argv s = (.ok (.started program), s')) :
    ∃ args scope fetched t, parseExecArgs noArgs (argv.map CString.bytes) = .ok args ∧
      execScope yaml around files args s.environ = .ok scope ∧ args.program = program ∧ 
      getMany ask ((wanted scope args).map Prod.snd) s.session = (.ok fetched, t) ∧
      injectFetched scope args fetched ⟨t, s.environ, s.setenvs⟩ = (.ok ⟨⟩, s') := by
  obtain ⟨args, hargs, h₁⟩ := Prog.bind_ofExcept_eq_ok.mp h
  obtain ⟨_, -, h₂⟩ := Prog.bind_ofExcept_eq_ok.mp h₁
  rw [Prog.bind_get] at h₂
  obtain ⟨scope, t₁, hscope, h₃⟩ := Prog.bind_eq_ok.mp h₂
  obtain ⟨hscope, rfl⟩ := fail_eq_ok.mp hscope
  have hargs := Prog.mapError_eq_ok hargs
  have hscope := Prog.mapError_eq_ok hscope
  split_ifs at h₃ with hdry
  · cases (Prod.mk.inj h₃).1
  obtain ⟨_, t₂, hopen, h₄⟩ := Prog.bind_eq_ok.mp h₃
  obtain ⟨-, rfl⟩ := fail_eq_ok.mp hopen
  obtain ⟨fetched, t₃, hfetched, h₅⟩ := Prog.bind_eq_ok.mp h₄
  obtain ⟨hgot, rfl⟩ := Prod.mk.inj hfetched
  have hgot := Prog.mapError_eq_ok hgot
  obtain ⟨_, t₄, hmissing, h₆⟩ := Prog.bind_eq_ok.mp h₅
  obtain ⟨-, rfl⟩ := fail_eq_ok.mp hmissing
  obtain ⟨_, t₅, hinject, h₇⟩ := Prog.bind_eq_ok.mp h₆
  obtain ⟨hprogram, rfl⟩ := Prod.mk.inj h₇
  exact ⟨args, scope, fetched, _, hargs, hscope, ExecOutcome.started.inj (Except.ok.inj hprogram),
    Prod.ext hgot rfl, hinject⟩

/-- An exec that has fetched everything it wanted. -/
theorem cmdExec_of_fetched {t : σ} (hargs : parseExecArgs noArgs (argv.map CString.bytes) = .ok args)
    (hprogram : args.program ≠ []) (hdry : args.dryRun = false)
    (hscope : execScope yaml around files args s.environ = .ok scope) (hlocal : scope.backend.type = .local)
    (hopen : around.openClient = .ok ())
    (hfetched : getMany ask ((wanted scope args).map Prod.snd) s.session = (.ok fetched, t)) :
    cmdExec ask yaml around files argv s = (do
      let _ ← fail (checkMissing (wanted scope args) fetched)
      let _ ← injectFetched scope args fetched
      return .started args.program : ExecM σ ExecOutcome) ⟨t, s.environ, s.setenvs⟩ := by
  have hargs : parseExecArgs ⟨none, none, false, [], []⟩ (argv.map CString.bytes) = .ok args := hargs
  have hfetch : fetchWanted ask (wanted scope args) s = (.ok fetched, ⟨t, s.environ, s.setenvs⟩) := by
    simp only [fetchWanted, hfetched, Except.mapError]
  simp only [cmdExec, hargs, Except.mapError, Prog.throwIf, hprogram, false_and, if_false, hdry,
    Bool.false_eq_true,
    fail, openBackend, hlocal, hopen, hscope, Prog.bind_apply, Prog.ofExcept_apply, Prog.get_apply, hfetch]

end

/-! What is missing, and what each name is set to. -/

section

variable {stored : Bytes → Option Bytes}

theorem foldlM_addMissing {paths : List Bytes} {fetched : Fetched} (h : Recorded stored paths fetched)
    {targets : KeyValues} (htargets : ∀ item ∈ targets, item.2 ∈ paths) (missing : List Bytes) :
    targets.foldlM (addMissing fetched) missing =
      .ok (missing ++ (targets.map Prod.snd).filter fun p => (stored p).isNone) := by
  induction targets generalizing missing with
  | nil => simp [pure, Except.pure]
  | cons item targets ih =>
    obtain ⟨hitem, hrest⟩ := List.forall_mem_cons.mp htargets
    rw [List.foldlM_cons, List.map_cons]
    cases hstored : stored item.2 with
    | none =>
      have hfailure : fetched.failures[item.2]? = some notFoundError := (h.failures _ _).mpr ⟨hitem, hstored, rfl⟩
      have hstep : addMissing fetched missing item = .ok (missing ++ [item.2]) := by
        simp [addMissing, hfailure, notFoundError]
      simp [hstep, hstored, bind, Except.bind, ih hrest]
    | some value =>
      have hfailure : fetched.failures[item.2]? = none := by
        rw [Option.eq_none_iff_forall_ne_some]
        intro e he
        have hnone := ((h.failures _ _).mp he).2.1
        rw [hstored] at hnone
        cases hnone
      have hstep : addMissing fetched missing item = .ok missing := by simp [addMissing, hfailure]
      simp [hstep, hstored, bind, Except.bind, ih hrest]

theorem missingPaths_recorded {paths : List Bytes} {fetched : Fetched} (h : Recorded stored paths fetched)
    (targets : KeyValues) (htargets : ∀ item ∈ targets, item.2 ∈ paths) :
    missingPaths fetched targets = .ok ((targets.map Prod.snd).filter fun p => (stored p).isNone) :=
  foldlM_addMissing h htargets []

/-- The value that the last source of a name gives it: `--secret`, then the entries,
then the vars. -/
def sourceOf (scope : ExecScope) (args : ExecArgs) (stored : Bytes → Option Bytes) (name : Bytes) :
    Option Bytes :=
  ((lastOf name args.targets).bind stored).or
    (((lastOf name scope.targets).bind stored).or (lastOf name scope.plain))

variable {scope : ExecScope} {args : ExecArgs}

theorem lastOf_exports (name : Bytes) (value : Bytes → Bytes)
    (h : ∀ item ∈ wanted scope args, stored item.2 = some (value item.2)) :
    lastOf name (exports scope args value) = sourceOf scope args stored name := by
  have hbind : ∀ targets : KeyValues, (∀ item ∈ targets, stored item.2 = some (value item.2)) →
      lastOf name (targets.map fun item => (item.1, value item.2)) = (lastOf name targets).bind stored := by
    intro targets htargets
    rw [lastOf_map]
    cases hlast : lastOf name targets with
    | none => rfl
    | some path => exact (htargets _ (mem_of_lastOf hlast)).symm
  obtain ⟨hentries, hraw⟩ := List.forall_mem_append.mp h
  rw [exports, wanted, List.map_append, lastOf_append, lastOf_append, hbind _ hentries, hbind _ hraw, sourceOf,
    Option.or_assoc]

theorem lastOf_marked {σ : Type} (s : ExecState σ) (injected : List Bytes) {name : Bytes}
    (hname : name ≠ kInjectedVar) :
    lastOf name (marked s injected).setenvs = lastOf name s.setenvs := by
  unfold marked
  split_ifs with hempty
  · rfl
  · rw [lastOf_append, lastOf_singleton, if_neg hname.symm]
    rfl

end

/-! A run on a local store, with a daemon that answers. -/

section

variable {S : Sodium} {F : Format S}

structure AnsweredExec (c : Channel) (yaml : YamlCpp) (around : ExecSurroundings) (files : ManifestFiles)
    (argv : List CString) (args : ExecArgs) (scope : ExecScope) (s : ExecState (Session F)) : Prop where
  parsed : parseExecArgs noArgs (argv.map CString.bytes) = .ok args
  program : args.program ≠ []
  notDry : args.dryRun = false
  manifest : execScope yaml around files args s.environ = .ok scope
  onLocal : scope.backend.type = .local
  opens : around.openClient = .ok ()
  replies : ∀ n, ∃ turn, s.session.fates n = .connected (.replies turn)
  strings : HoldsStrings s.session.world.store.data
  paths : ∀ item ∈ wanted scope args, item.2 ≠ [] ∧ c.Reaches s.session.world (text "get") item.2
  scopes : ∀ p ∈ wanted scope args, ∀ q ∈ wanted scope args, p.2 ≠ q.2 → scopeOf p.2 = scopeOf q.2 →
    scopeOf p.2 ≠ [] → c.Reaches s.session.world (text "getprefix") (scopeOf p.2)
  begins : s.setenvs = []

variable {c : Channel} {yaml : YamlCpp} {around : ExecSurroundings} {files : ManifestFiles} {argv : List CString}
  {args : ExecArgs} {scope : ExecScope} {s : ExecState (Session F)}

theorem AnsweredExec.fetches (h : AnsweredExec c yaml around files argv args scope s)
    (hparse : c.json.ParseUndoesDump) (htoken : c.token = c.expectedToken) :
    ∃ fetched t, Recorded (storedIn s.session.world.store.data) ((wanted scope args).map Prod.snd) fetched ∧
      cmdExec c.localRequest yaml around files argv s = (do
        let _ ← fail (checkMissing (wanted scope args) fetched)
        let _ ← injectFetched scope args fetched
        return .started args.program : ExecM (Session F) ExecOutcome) ⟨t, s.environ, []⟩ := by
  obtain ⟨fetched, hmany, hrecorded⟩ := getMany_yields hparse htoken
    h.strings (List.forall_mem_map.mpr h.paths) (by simpa only [List.forall_mem_map] using h.scopes)
  obtain ⟨t, ht, -⟩ := hmany s.session ⟨rfl, h.replies⟩
  refine ⟨fetched, t, hrecorded, ?_⟩
  rw [cmdExec_of_fetched h.parsed h.program h.notDry h.manifest h.onLocal h.opens ht, h.begins]

theorem AnsweredExec.nameable_iff (h : AnsweredExec c yaml around files argv args scope s)
    (value : Bytes → Bytes) :
    (∀ item ∈ exports scope args value, Nameable item.1) ↔ ∀ r ∈ args.raw, r.2 ≠ [] ∧ equalsSign ∉ r.2 := by
  obtain ⟨hplain, htargets⟩ := execScope_settable h.manifest
  have hraw := parseExecArgs_noNul h.parsed (by simp [CString.noNul]) (by simp [noArgs])
  have hnameable : ∀ r ∈ args.raw, Nameable r.2 ↔ r.2 ≠ [] ∧ equalsSign ∉ r.2 := by
    intro r hr
    rw [Nameable, CString.of_bytes_eq_iff.mpr (hraw r hr).2]
  simp only [exports, wanted, ExecArgs.targets, List.forall_mem_append, List.forall_mem_map, List.map_append]
  constructor
  · rintro ⟨-, -, hnames⟩ r hr
    exact (hnameable r hr).mp (hnames r hr)
  · intro hnames
    exact ⟨fun var hvar => (hplain var hvar).nameable, fun target htarget => (htargets target htarget).nameable,
      fun r hr => (hnameable r hr).mpr (hnames r hr)⟩

section

variable (h : AnsweredExec c yaml around files argv args scope s) (hparse : c.json.ParseUndoesDump)
  (htoken : c.token = c.expectedToken)
include h hparse htoken

theorem AnsweredExec.stops
    (hmissing : ∃ item ∈ wanted scope args, storedIn s.session.world.store.data item.2 = none) :
    ∃ t, cmdExec c.localRequest yaml around files argv s = (.error (.failed (text "missing secrets: " ++
      joinWith (text ", ") (((wanted scope args).map Prod.snd).filter fun p =>
        (storedIn s.session.world.store.data p).isNone))), ⟨t, s.environ, []⟩) := by
  obtain ⟨fetched, t, hrecorded, hrun⟩ := h.fetches hparse htoken
  obtain ⟨item, hitem, hnone⟩ := hmissing
  have hpaths := missingPaths_recorded hrecorded (wanted scope args) fun item => List.mem_map_of_mem
  have hne : ((wanted scope args).map Prod.snd).filter (fun p =>
      (storedIn s.session.world.store.data p).isNone) ≠ [] :=
    List.ne_nil_of_mem (List.mem_filter.mpr ⟨List.mem_map_of_mem hitem, by simp [hnone]⟩)
  refine ⟨t, hrun.trans ?_⟩
  simp only [checkMissing, hpaths, bind, Except.bind, Prog.throwIf, if_pos hne, fail, Except.mapError,
    Prog.ofExcept_apply]

/-- A run that finds everything: its exports, each of a name that can be set. -/
theorem AnsweredExec.starts_iff
    (hstored : ∀ item ∈ wanted scope args, storedIn s.session.world.store.data item.2 ≠ none) :
    ∃ (value : Bytes → Bytes) (t : Session F),
      (∀ item ∈ wanted scope args, storedIn s.session.world.store.data item.2 = some (value item.2)) ∧
        ∀ outcome s', cmdExec c.localRequest yaml around files argv s = (.ok outcome, s') ↔
          outcome = .started args.program ∧ ∃ environ,
            setenvAll s.environ (exports scope args value) = some environ ∧
            s' = marked ⟨t, environ, exports scope args value⟩ (injectedNames (exports scope args value) []) := by
  obtain ⟨fetched, t, hrecorded, hrun⟩ := h.fetches hparse htoken
  have hvalue : ∀ item ∈ wanted scope args,
      storedIn s.session.world.store.data item.2 = some (fetched.values[item.2]?.getD []) := by
    intro item hitem
    obtain ⟨v, hv⟩ := Option.ne_none_iff_exists'.mp (hstored item hitem)
    rw [hv, (hrecorded.values item.2 v).mpr ⟨List.mem_map_of_mem hitem, hv⟩, Option.getD_some]
  have hmissing : checkMissing (wanted scope args) fetched = .ok ⟨⟩ := by
    have hpaths := missingPaths_recorded hrecorded (wanted scope args) fun item => List.mem_map_of_mem
    have hnil : ((wanted scope args).map Prod.snd).filter (fun p =>
        (storedIn s.session.world.store.data p).isNone) = [] := by
      rw [List.filter_eq_nil_iff, List.forall_mem_map]
      exact fun item hitem => by simpa [Option.isSome_iff_ne_none] using hstored item hitem
    simp [checkMissing, hpaths, hnil, bind, Except.bind, Prog.throwIf]
  have hinject : ∀ outcome s', cmdExec c.localRequest yaml around files argv s = (.ok outcome, s') ↔
      injectFetched scope args fetched ⟨t, s.environ, []⟩ = (.ok ⟨⟩, s') ∧ outcome = .started args.program := by
    intro outcome s'
    rw [hrun, hmissing, Prog.bind_of_ok (fail_eq_ok.mpr ⟨rfl, rfl⟩), Prog.bind_eq_ok]
    constructor
    · rintro ⟨⟨⟩, t', hfetched, hpure⟩
      obtain ⟨houtcome, rfl⟩ := Prod.mk.inj hpure
      exact ⟨hfetched, (Except.ok.inj houtcome).symm⟩
    · rintro ⟨hfetched, rfl⟩
      exact ⟨⟨⟩, s', hfetched, rfl⟩
  refine ⟨fun p => fetched.values[p]?.getD [], t, hvalue, fun outcome s' => ?_⟩
  have hfound : ∀ item ∈ wanted scope args, item.2 ∈ fetched.values := by
    intro item hitem
    have hsome := (hrecorded.values item.2 _).mpr ⟨List.mem_map_of_mem hitem, hvalue item hitem⟩
    rw [Std.ExtTreeMap.mem_iff_isSome_getElem?, hsome]
    rfl
  rw [hinject, injectFetched_eq_ok, and_comm, and_iff_right hfound]
  rfl

theorem AnsweredExec.stored_of_started {program : List Bytes}
    (hrun : (cmdExec c.localRequest yaml around files argv s).1 = .ok (.started program)) :
    ∀ item ∈ wanted scope args, storedIn s.session.world.store.data item.2 ≠ none := by
  intro item hitem hnone
  obtain ⟨t, hstops⟩ := h.stops hparse htoken ⟨item, hitem, hnone⟩
  rw [hstops] at hrun
  cases hrun

/-- A child finds what C reads of the last value for a name. -/
theorem AnsweredExec.environ_of_started {program : List Bytes}
    (hrun : (cmdExec c.localRequest yaml around files argv s).1 = .ok (.started program))
    (name : Bytes) {v : Bytes} (hname : name ≠ kInjectedVar)
    (hsource : sourceOf scope args (storedIn s.session.world.store.data) name = some v) :
    (∀ r ∈ args.raw, r.2 ≠ [] ∧ equalsSign ∉ r.2) ∧
      (cmdExec c.localRequest yaml around files argv s).2.environ (.of name) = some (CString.of v) := by
  obtain ⟨value, t, hvalue, hiff⟩ := h.starts_iff hparse htoken (h.stored_of_started hparse htoken hrun)
  obtain ⟨-, environ, hall, hstate⟩ := (hiff _ _).mp (Prod.ext hrun rfl)
  obtain ⟨hnames, henviron⟩ := setenvAll_eq_some.mp hall
  refine ⟨(h.nameable_iff value).mp hnames, ?_⟩
  have hnul := exports_noNul h.parsed h.manifest value
  have hlast := (lastOf_exports name value hvalue).trans hsource
  have hname0 : 0 ∉ name := hnul _ (mem_of_lastOf hlast)
  refine (congrArg (fun t : ExecState (Session F) => t.environ (.of name)) hstate).trans ?_
  have hread : environ (.of name) = some (CString.of v) := by
    have hread := congrFun henviron (.of name)
    rw [lastOf_asRead hnul hname0, hlast] at hread
    exact hread
  exact (environ_marked _ _ hname hname0).trans hread

end

/-- All or nothing: either every secret is stored, and each name gets the value of
its last source, or nothing is exported and the error lists what is missing. -/
theorem exec_all_or_nothing (h : AnsweredExec c yaml around files argv args scope s)
    (hparse : c.json.ParseUndoesDump) (htoken : c.token = c.expectedToken) :
    let stored := storedIn s.session.world.store.data
    let run := cmdExec c.localRequest yaml around files argv s
    ((∃ item ∈ wanted scope args, stored item.2 = none) → run.2.setenvs = [] ∧ run.2.environ = s.environ ∧
      run.1 = .error (.failed (text "missing secrets: " ++
        joinWith (text ", ") (((wanted scope args).map Prod.snd).filter fun p => (stored p).isNone)))) ∧
    ((∀ item ∈ wanted scope args, stored item.2 ≠ none) →
      (run.1 = .ok (.started args.program) ↔ ∀ r ∈ args.raw, r.2 ≠ [] ∧ equalsSign ∉ r.2) ∧
      ((∃ r ∈ args.raw, r.2 = [] ∨ equalsSign ∈ r.2) → ∃ e, run.1 = .error e) ∧
      (run.1 = .ok (.started args.program) → ∀ name, name ≠ kInjectedVar →
        lastOf name run.2.setenvs = sourceOf scope args stored name)) := by
  intro stored run
  refine ⟨fun hmissing => ?_, fun hstored => ?_⟩
  · obtain ⟨t, hrun⟩ := h.stops hparse htoken hmissing
    have hrun : run = _ := hrun
    rw [hrun]
    exact ⟨rfl, rfl, rfl⟩
  · obtain ⟨value, t, hvalue, hiff⟩ := h.starts_iff hparse htoken hstored
    have hstarted : ∀ outcome, run.1 = .ok outcome ↔ outcome = .started args.program ∧
        ∀ r ∈ args.raw, r.2 ≠ [] ∧ equalsSign ∉ r.2 := by
      intro outcome
      rw [← h.nameable_iff value]
      constructor
      · intro hok
        obtain ⟨rfl, environ, hall, -⟩ := (hiff outcome run.2).mp (Prod.ext hok rfl)
        exact ⟨rfl, (setenvAll_eq_some.mp hall).1⟩
      · rintro ⟨rfl, hnames⟩
        exact congrArg Prod.fst ((hiff _ _).mpr ⟨rfl, _, setenvAll_eq_some.mpr ⟨hnames, rfl⟩, rfl⟩)
    refine ⟨by simp [hstarted], ?_, fun hok name hname => ?_⟩
    · rintro ⟨r, hr, hbad⟩
      cases hresult : run.1 with
      | error e => exact ⟨e, rfl⟩
      | ok outcome =>
        obtain ⟨hne, heq⟩ := ((hstarted outcome).mp hresult).2 r hr
        exact absurd hbad (by simp [hne, heq])
    · obtain ⟨-, environ, -, hstate⟩ := (hiff _ run.2).mp (Prod.ext hok rfl)
      rw [hstate, lastOf_marked _ _ hname, lastOf_exports name value hvalue]

/-- The child finds each name with the value of its last source. -/
def CarriesValues (scope : ExecScope) (args : ExecArgs) (stored : Bytes → Option Bytes)
    (run : Except ExecError ExecOutcome × ExecState (Session F)) : Prop :=
  run.1 = .ok (.started args.program) → ∀ name value, name ≠ kInjectedVar →
    sourceOf scope args stored name = some value → (run.2.environ (.of name)).map CString.bytes = some value

theorem exec_carries_values_iff (h : AnsweredExec c yaml around files argv args scope s)
    (hparse : c.json.ParseUndoesDump) (htoken : c.token = c.expectedToken) :
    let stored := storedIn s.session.world.store.data
    CarriesValues scope args stored (cmdExec c.localRequest yaml around files argv s) ↔
      ((∀ item ∈ wanted scope args, stored item.2 ≠ none) → (∀ r ∈ args.raw, r.2 ≠ [] ∧ equalsSign ∉ r.2) →
        ∀ name value, name ≠ kInjectedVar → sourceOf scope args stored name = some value → 0 ∉ value) := by
  intro stored
  constructor
  · intro hcarries hstored hraw name v hname hsource
    obtain ⟨value, t, hvalue, hiff⟩ := h.starts_iff hparse htoken hstored
    have hnames := (h.nameable_iff value).mpr hraw
    have hrun := (hiff _ _).mpr ⟨rfl, _, setenvAll_eq_some.mpr ⟨hnames, rfl⟩, rfl⟩
    obtain ⟨found, -, rfl⟩ := Option.map_eq_some_iff.mp
      (hcarries (congrArg Prod.fst hrun) name v hname hsource)
    exact found.noNul
  · intro hnul hrun name v hname hsource
    obtain ⟨hraw, hfound⟩ := h.environ_of_started hparse htoken hrun name hname hsource
    have hv := hnul (h.stored_of_started hparse htoken hrun) hraw name v hname hsource
    rw [hfound, Option.map_some, CString.of_bytes_eq_iff.mpr hv]

end

def execText : Bytes :=
  text "name: shop\nenv:\n  dev:\n" ++ text "    vars:\n      UV_PUBLISH_USERNAME: me\n"

def execTree : Yaml :=
  .map [(.ofText "name", .ofText "shop"), (.ofText "env", .map [(.ofText "dev", .map [(.ofText "vars", .map [
    (.ofText "UV_PUBLISH_USERNAME", .ofText "me")])])])]

/-- A project directory with a manifest. -/
def execSurroundings : ExecSurroundings where
  registryProjectRoot _ := .ok none
  findManifestUpward := .ok (some (text "m"))
  cwd := text "/w"
  envOverride := none
  linkExists _ := .ok true
  requireReadable _ := .ok ()
  canonical path := .ok path
  requireCreatableManifestDir _ := .ok ()
  readFileString _ := .error (.runtimeError (text "open"))
  openClient := .ok ()
  writeFails _ := none
  registry := text "r"

def execFiles : ManifestFiles := fun path => if path = text "m" then some execText else none

/-- `exec -e dev --secret D=A -- prog`. -/
def execArgv : List CString :=
  [text "-e", text "dev", text "--secret", text "D=A", text "--", text "prog"].map CString.of

def execArgs : ExecArgs := ⟨none, some (text "dev"), false, [(text "D", text "A")], [text "prog"]⟩

def execScopeSample : ExecScope where
  backend := ⟨.local, []⟩
  entries := []
  plain := [(text "UV_PUBLISH_USERNAME", text "me")]

def execTable (value reply : Bytes) : List (Bytes × Json) :=
  [(braced "\"key\":\"D\",\"op\":\"get\",\"token\":\"t\"", requestObject (text "t") (text "get") (text "D") none),
    (reply, .object [(text "ok", .boolean true), (text "value", .string value)])]

def execChannel (value reply : Bytes) : Channel :=
    ⟨tableOf (execTable value reply), text "sock", text "t", text "t"⟩

/-- A store with one secret, and a process with an empty environment. -/
def execStart (value : Bytes) : ExecState (Session (storeFormat taggedBoxes)) where
  session :=
    { world := { sampleStart with
      store := { sampleStart.store with data := (∅ : Data).insert (text "D") (.string value) } }
      fates _ := .connected (.replies sampleTurn) }
  environ _ := none
  setenvs := []

theorem execScope_sample : execScope (loadOnly execText execTree) execSurroundings execFiles execArgs
    (fun _ => none) = .ok execScopeSample := by decide

theorem execStart_answered (value reply : Bytes)
    (hline :
      (serializeRequest (execChannel value reply).json (text "t") (text "get") (text "D") none).isOk = true)
    (hreply : okValue (execChannel value reply).json value = .ok reply)
    (hlong : reply.length ≤ kMaxResponseBytes) :
    AnsweredExec (execChannel value reply) (loadOnly execText execTree)
      execSurroundings execFiles execArgv execArgs execScopeSample (execStart value) := by
  have hstored : (execStart value).session.world.store.data[text "D"]? = some (.string value) := by
    simp [execStart]
  have hstrings : HoldsStrings (execStart value).session.world.store.data := by
    intro key j hj
    simp only [execStart, Std.ExtTreeMap.getElem?_insert] at hj
    split_ifs at hj
    · exact ⟨_, (Option.some.inj hj).symm⟩
    · simp at hj
  have hwanted : ∀ item ∈ wanted execScopeSample execArgs, item.2 = text "D" := by decide
  refine ⟨by decide, by decide, rfl, execScope_sample, rfl, rfl, fun _ => ⟨_, rfl⟩, hstrings, ?_, ?_, rfl⟩
  · intro item hitem
    rw [hwanted item hitem]
    refine ⟨by decide, reaches_get (by decide) hstrings (Prog.except_exists_of_isOk hline) ⟨reply, ?_, hlong⟩⟩
    rw [storedIn_eq_some.mpr hstored]
    exact hreply
  · intro p hp q hq hne
    rw [hwanted p hp, hwanted q hq] at hne
    exact absurd rfl hne

theorem execStart_started (value reply : Bytes)
    (hline :
      (serializeRequest (execChannel value reply).json (text "t") (text "get") (text "D") none).isOk = true)
    (hreply : okValue (execChannel value reply).json value = .ok reply)
    (hlong : reply.length ≤ kMaxResponseBytes) :
    ∃ s', cmdExec (execChannel value reply).localRequest (loadOnly execText execTree) execSurroundings execFiles
        execArgv
      (execStart value) = (.ok (.started [text "prog"]), s') := by
  have hanswered := execStart_answered value reply hline hreply hlong
  have hstored : storedIn (execStart value).session.world.store.data (text "D") = some value := by
    simp [storedIn, execStart]
  have hwanted : ∀ item ∈ wanted execScopeSample execArgs, item.2 = text "D" := by decide
  obtain ⟨value', t, -, hiff⟩ := hanswered.starts_iff (tableOf_parseUndoesDump _) rfl fun item hitem => by
    simp [hwanted item hitem, hstored]
  have hnames := (hanswered.nameable_iff value').mpr (by decide)
  exact ⟨_, (hiff _ _).mpr ⟨rfl, _, setenvAll_eq_some.mpr ⟨hnames, rfl⟩, rfl⟩⟩

def plainReply : Bytes := braced "\"ok\":true,\"value\":\"x\""

theorem exec_all_or_nothing_sample :
    (cmdExec (execChannel (text "x") plainReply).localRequest (loadOnly execText execTree)
      execSurroundings execFiles execArgv (execStart (text "x"))).1 = .ok (.started [text "prog"]) ∧
    lastOf (text "A") (cmdExec (execChannel (text "x") plainReply).localRequest (loadOnly execText execTree)
      execSurroundings execFiles execArgv (execStart (text "x"))).2.setenvs = some (text "x") := by
  obtain ⟨-, hall⟩ := exec_all_or_nothing (execStart_answered (text "x") plainReply
    (by decide) (by decide) (by decide)) (tableOf_parseUndoesDump _) rfl
  obtain ⟨hstarts, -, hlast⟩ := hall (by decide)
  have hstarted := hstarts.mpr (by decide)
  exact ⟨hstarted, (hlast hstarted (text "A") (by decide)).trans (by decide)⟩

/-- A value with a zero byte, as `set` takes it from a pipe. -/
def zeroValue : Bytes := text "a" ++ 0 :: text "b"

def zeroReply : Bytes := braced "\"ok\":true,\"value\":\"a\\u0000b\""

def zeroRun : Except ExecError ExecOutcome × ExecState (Session (storeFormat taggedBoxes)) :=
  cmdExec (execChannel zeroValue zeroReply).localRequest (loadOnly execText execTree) execSurroundings execFiles
    execArgv (execStart zeroValue)

theorem zeroRun_eq : zeroRun.1 = .ok (.started [text "prog"]) ∧
    (zeroRun.2.environ (.of (text "A"))).map CString.bytes = some (text "a") := by
  have hanswered := execStart_answered zeroValue zeroReply (by decide)
    (by decide) (by decide)
  obtain ⟨s', hrun⟩ := execStart_started zeroValue zeroReply (by decide)
    (by decide) (by decide)
  have hstarted : (cmdExec (execChannel zeroValue zeroReply).localRequest (loadOnly execText execTree)
      execSurroundings execFiles execArgv (execStart zeroValue)).1 = .ok (.started [text "prog"]) := by rw [hrun]
  obtain ⟨-, hread⟩ := hanswered.environ_of_started (tableOf_parseUndoesDump _) rfl hstarted (text "A")
    (v := zeroValue) (by decide) (by decide)
  have hbytes : (CString.of zeroValue).bytes = text "a" := by decide
  rw [zeroRun]
  refine ⟨hstarted, ?_⟩
  rw [hread, Option.map_some, hbytes]

theorem not_carriesValues_zero : ¬CarriesValues execScopeSample execArgs
    (storedIn (execStart zeroValue).session.world.store.data) zeroRun := by
  intro h
  obtain ⟨hstarted, hread⟩ := zeroRun_eq
  have hcarried := h hstarted (text "A") zeroValue (by decide) (by decide)
  rw [hread] at hcarried
  revert hcarried
  decide

theorem exec_carries_values_iff_sample :
    CarriesValues execScopeSample execArgs (storedIn (execStart (text "x")).session.world.store.data)
      (cmdExec (execChannel (text "x") plainReply).localRequest (loadOnly execText execTree)
        execSurroundings execFiles execArgv (execStart (text "x"))) := by
  refine (exec_carries_values_iff (execStart_answered (text "x") plainReply (by decide)
    (by decide) (by decide)) (tableOf_parseUndoesDump _) rfl).mpr fun _ _ name value _ hsource => ?_
  have hvalues : ∀ v ∈ exports execScopeSample execArgs fun _ => text "x", 0 ∉ v.2 := by decide
  have hstored : ∀ item ∈ wanted execScopeSample execArgs,
      storedIn (execStart (text "x")).session.world.store.data item.2 = some (text "x") := by decide
  have hlast := (lastOf_exports name (fun _ => text "x") hstored).trans hsource
  exact hvalues _ (mem_of_lastOf hlast)

end Secretov
