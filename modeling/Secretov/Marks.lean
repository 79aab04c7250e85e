import Secretov.ManifestNames
import Secretov.Printable
import Secretov.TuiEvents
import Secretov.VouchedScopes

/-! The project's marks in the TUI (tui.cpp): for which variables of its manifest a key is. -/

namespace Secretov

open LinkTree

/-- What `run_ui` takes, and what its details show. -/
structure LoadedMarks extends ProjectMarks where
  envVarsByKey : Std.ExtTreeMap Bytes (List Bytes) compare

def noMarks : LoadedMarks := ⟨⟨[], []⟩, ∅⟩

def markLabel (env : Bytes) (entry : SecretEntry) : Bytes :=
    printable (entry.envVar ++ text " (" ++ env ++ text ")")

def addMark (env : Bytes) (marks : Std.ExtTreeMap Bytes (List Bytes) compare) (entry : SecretEntry) :
    Std.ExtTreeMap Bytes (List Bytes) compare :=
  marks.insert entry.path (marks[entry.path]?.getD [] ++ [markLabel env entry])

def marksOf (m : Manifest) : Std.ExtTreeMap Bytes (List Bytes) compare :=
  m.envs.toList.foldl (fun marks env => env.2.foldl (addMark env.1) marks) ∅

/-- Every place of `old` from the left, after `skip` bytes of one. -/
def replaceAll (old new : Bytes) : Nat → Bytes → Bytes
  | _, [] => []
  | skip + 1, _ :: rest => replaceAll old new skip rest
  | 0, c :: rest =>
    if old <+: c :: rest then new ++ replaceAll old new (old.length - 1) rest else c :: replaceAll old new 0 rest

/-- The reason for the status bar, with the manifest's path made relative where the system can. -/
def shortReason (relative : Bytes → Option Bytes) (manifestPath reason : Bytes) : Bytes :=
  match relative manifestPath with
  | some shortPath => replaceAll manifestPath shortPath 0 reason
  | none => reason

namespace Process

variable (p : Process)

def loadManifest (path : Bytes) : Except Thrown Manifest := do
  let contents ← (p.fs.readManifestText p.host path (text "manifest")).mapError (Thrown.runtimeError ·.what)
  parseManifest p.yaml contents path

/-- `relative` is the path relative to the working directory, where the system gives one. -/
def loadProjectMarks (relative : Bytes → Option Bytes) : LoadedMarks :=
  match p.fs.findManifestUpward p.host (rootedPath p.fs.cwd) with
  | none => noMarks
  | some manifestPath => match p.loadManifest manifestPath with
    | .error e => { noMarks with problem := text "nothing marked: " ++ shortReason relative manifestPath e.what }
    | .ok manifest =>
      if manifest.backend.type ≠ .local then noMarks
      else { noMarks with project := printable manifest.project, envVarsByKey := marksOf manifest }

variable {p} {rest : ExecSurroundings}

theorem loadManifest_surroundings (path : Bytes) :
    Secretov.loadManifest p.yaml (p.surroundings rest) p.files path = p.loadManifest path := by
  rw [Secretov.loadManifest, readManifestText_surroundings, loadManifest]

end Process

theorem foldl_addMark (env key : Bytes) (entries : List SecretEntry)
    (marks : Std.ExtTreeMap Bytes (List Bytes) compare) :
    (entries.foldl (addMark env) marks)[key]?.getD [] =
      marks[key]?.getD [] ++ (entries.filter (·.path = key)).map (markLabel env) := by
  induction entries generalizing marks with
  | nil => simp
  | cons e entries ih =>
    rw [List.foldl_cons, ih, addMark, Std.ExtTreeMap.getElem?_insert]
    by_cases hkey : e.path = key
    · simp [hkey]
    · have hcompare : compare e.path key ≠ .eq := fun heq => hkey (Std.LawfulEqCmp.eq_of_compare heq)
      simp [hkey, hcompare]

/-- The marks of a key, environment after environment. -/
theorem marksOf_getD (m : Manifest) (key : Bytes) : (marksOf m)[key]?.getD [] =
    m.envs.toList.flatMap fun env => (env.2.filter (·.path = key)).map (markLabel env.1) := by
  have hall : ∀ (envs : List (Bytes × List SecretEntry)) (marks : Std.ExtTreeMap Bytes (List Bytes) compare),
      (envs.foldl (fun marks env => env.2.foldl (addMark env.1) marks) marks)[key]?.getD [] =
        marks[key]?.getD [] ++ envs.flatMap fun env => (env.2.filter (·.path = key)).map (markLabel env.1) := by
    intro envs
    induction envs with
    | nil => simp
    | cons env envs ih =>
      intro marks
      rw [List.foldl_cons, ih, foldl_addMark, List.flatMap_cons, List.append_assoc]
  rw [marksOf, hall]
  simp

theorem mem_marksOf {m : Manifest} {key label : Bytes} : label ∈ (marksOf m)[key]?.getD [] ↔
    ∃ env entries, m.envs[env]? = some entries ∧ ∃ e ∈ entries, e.path = key ∧ markLabel env e = label := by
  rw [marksOf_getD]
  simp only [List.mem_flatMap, List.mem_map, List.mem_filter, decide_eq_true_eq, Prod.exists,
    Std.ExtTreeMap.mem_toList_iff_getElem?_eq_some, and_assoc]

/-- For every value that the paths may have, `exec` sets the variable to that of `key`. -/
def ExecScope.Takes (scope : ExecScope) (args : ExecArgs) (var key : Bytes) : Prop :=
  ∀ value : Bytes → Bytes, lastOf var (exports scope args value) = some (value key)

section

variable {scope : ExecScope} {args : ExecArgs} {var key : Bytes}

/-- The last entry of a variable counts. -/
theorem ExecScope.takes_iff (hraw : args.raw = []) :
    scope.Takes args var key ↔ lastOf var scope.targets = some key := by
  have hexports : ∀ value : Bytes → Bytes, lastOf var (exports scope args value) =
      ((lastOf var scope.targets).map value).or (lastOf var scope.plain) := by
    intro value
    rw [exports, wanted, ExecArgs.targets, hraw, List.map_nil, List.append_nil, lastOf_append, lastOf_map]
  constructor
  · intro htakes
    cases hlast : lastOf var scope.targets with
    | none =>
      -- a plain value is the same whatever the paths have
      have hempty := htakes fun _ => []
      have hone := htakes fun _ => [0]
      rw [hexports, hlast, Option.map_none, Option.none_or] at hempty hone
      cases hempty.symm.trans hone
    | some path =>
      have hpath := htakes id
      rwa [hexports, hlast, Option.map_some, Option.some_or] at hpath
  · intro hlast value
    rw [hexports, hlast]
    rfl

theorem lastOf_of_nodup {α β : Type*} [BEq α] [LawfulBEq α] {xs : List (α × β)} (hxs : (xs.map Prod.fst).Nodup)
    {name : α} {value : β} (h : (name, value) ∈ xs) : lastOf name xs = some value := by
  cases hlast : lastOf name xs with
  | none => exact absurd rfl (lastOf_eq_none_iff.mp hlast _ h)
  | some other =>
    have hsame := List.inj_on_of_nodup_map hxs (mem_of_lastOf hlast) h rfl
    rw [(Prod.mk.inj hsame).2]

end

namespace Process

variable {p : Process} {rest : ExecSurroundings}

/-- The scope of `exec -e env`, from the manifest that the search finds. -/
theorem execScope_env_iff {env : Bytes} {program : List Bytes} {environ : Environ} {scope : ExecScope} :
    execScope p.yaml (p.surroundings rest) p.files ⟨none, some env, false, [], program⟩ environ = .ok scope ↔
      ∃ path m entries, p.fs.findManifestUpward p.host (rootedPath p.fs.cwd) = some path ∧
        p.loadManifest path = .ok m ∧ m.envs[env]? = some entries ∧
        scope = ⟨m.backend, entries, varsFor m env⟩ := by
  have hentries : ∀ (m : Manifest) entries, entriesFor m env = .ok entries ↔ m.envs[env]? = some entries := by
    intro m entries
    rw [entriesFor]
    cases m.envs[env]? <;> simp
  have hresolve : ∀ m, resolveManifest p.yaml (p.surroundings rest) p.files none = .ok m ↔
      ∃ path, p.fs.findManifestUpward p.host (rootedPath p.fs.cwd) = some path ∧ p.loadManifest path = .ok m := by
    intro m
    have hfound : (p.surroundings rest).findManifestUpward =
        .ok (p.fs.findManifestUpward p.host (rootedPath p.fs.cwd)) := rfl
    rw [resolveManifest, hfound]
    cases p.fs.findManifestUpward p.host (rootedPath p.fs.cwd) with
    | none =>
      constructor
      · intro h
        cases h
      · rintro ⟨path, h, -⟩
        cases h
    | some path =>
      change Secretov.loadManifest p.yaml (p.surroundings rest) p.files path = .ok m ↔ _
      rw [loadManifest_surroundings]
      simp
  rw [execScope, if_pos (by simp)]
  constructor
  · intro h
    obtain ⟨m, hm, h⟩ := Prog.except_bind_eq_ok.mp h
    obtain ⟨_, -, h⟩ := Prog.except_bind_eq_ok.mp h
    obtain ⟨_, henv, h⟩ := Prog.except_bind_eq_ok.mp h
    obtain rfl := Except.ok.inj henv
    obtain ⟨entries, hfound, h⟩ := Prog.except_bind_eq_ok.mp h
    obtain ⟨path, hpath, hload⟩ := (hresolve m).mp hm
    exact ⟨path, m, entries, hpath, hload, (hentries m entries).mp hfound, (Except.ok.inj h).symm⟩
  · rintro ⟨path, m, entries, hpath, hload, hfound, rfl⟩
    rw [(hresolve m).mpr ⟨path, hpath, hload⟩]
    refine Prog.except_bind_eq_ok.mpr ⟨m, rfl, Prog.except_bind_eq_ok.mpr ⟨⟨⟩, ?_, ?_⟩⟩
    · exact if_neg fun h => h.1 rfl
    · refine Prog.except_bind_eq_ok.mpr ⟨env, rfl, Prog.except_bind_eq_ok.mpr ⟨entries, ?_, rfl⟩⟩
      exact (hentries m entries).mpr hfound

/-- The scope of `exec -e env -- program` in the working directory. -/
def ScopeIn (p : Process) (rest : ExecSurroundings) (environ : Environ) (program : List Bytes) (env : Bytes)
    (scope : ExecScope) : Prop :=
  execScope p.yaml (p.surroundings rest) p.files ⟨none, some env, false, [], program⟩ environ = .ok scope ∧
    scope.backend.type = .local

/-- In the environment `env`, `exec` takes the variable from the key. -/
def Takes (p : Process) (rest : ExecSurroundings) (environ : Environ) (program : List Bytes)
    (env var key : Bytes) : Prop :=
  ∃ scope, p.ScopeIn rest environ program env scope ∧ scope.Takes ⟨none, some env, false, [], program⟩ var key

variable {environ : Environ} {program : List Bytes} {relative : Bytes → Option Bytes}

theorem scopeIn_iff {env : Bytes} {scope : ExecScope} : p.ScopeIn rest environ program env scope ↔
    ∃ path m entries, p.fs.findManifestUpward p.host (rootedPath p.fs.cwd) = some path ∧
      p.loadManifest path = .ok m ∧ m.backend.type = .local ∧ m.envs[env]? = some entries ∧
        scope = ⟨m.backend, entries, varsFor m env⟩ := by
  rw [ScopeIn, execScope_env_iff]
  constructor
  · rintro ⟨⟨path, m, entries, hpath, hload, hfound, rfl⟩, hlocal⟩
    exact ⟨path, m, entries, hpath, hload, hlocal, hfound, rfl⟩
  · rintro ⟨path, m, entries, hpath, hload, hlocal, hfound, rfl⟩
    exact ⟨⟨path, m, entries, hpath, hload, hfound, rfl⟩, hlocal⟩

theorem noMarks_iff {key label : Bytes} {q : Prop} (hq : ¬ q) : label ∈ noMarks.envVarsByKey[key]?.getD [] ↔ q :=
  iff_of_false (by simp [noMarks]) hq

/-- The marks are those of the entries in the scopes that `exec -e` has here. -/
theorem mem_loadProjectMarks {key label : Bytes} :
    label ∈ (p.loadProjectMarks relative).envVarsByKey[key]?.getD [] ↔ ∃ env scope,
      p.ScopeIn rest environ program env scope ∧ ∃ e ∈ scope.entries, e.path = key ∧ markLabel env e = label := by
  have hscopes : (∃ env scope, p.ScopeIn rest environ program env scope ∧
      ∃ e ∈ scope.entries, e.path = key ∧ markLabel env e = label) ↔ ∃ path m,
        p.fs.findManifestUpward p.host (rootedPath p.fs.cwd) = some path ∧ p.loadManifest path = .ok m ∧
          m.backend.type = .local ∧ label ∈ (marksOf m)[key]?.getD [] := by
    simp only [scopeIn_iff, mem_marksOf]
    constructor
    · rintro ⟨env, _, ⟨path, m, entries, hpath, hload, hlocal, hfound, rfl⟩, hentry⟩
      exact ⟨path, m, hpath, hload, hlocal, env, entries, hfound, hentry⟩
    · rintro ⟨path, m, hpath, hload, hlocal, env, entries, hfound, hentry⟩
      exact ⟨env, _, ⟨path, m, entries, hpath, hload, hlocal, hfound, rfl⟩, hentry⟩
  rw [hscopes, loadProjectMarks]
  cases hpath : p.fs.findManifestUpward p.host (rootedPath p.fs.cwd) with
  | none => exact noMarks_iff (by simp)
  | some path =>
    dsimp only
    cases hload : p.loadManifest path with
    | error e => exact noMarks_iff (by simp [hload])
    | ok m =>
      dsimp only
      split_ifs with hremote
      · exact noMarks_iff (by simp [hload, hremote])
      · simp [hload, not_not.mp hremote]

/-- The problem is told where the manifest that was found can't be loaded. -/
theorem loadProjectMarks_problem : (p.loadProjectMarks relative).problem ≠ [] ↔ ∃ path e,
    p.fs.findManifestUpward p.host (rootedPath p.fs.cwd) = some path ∧ p.loadManifest path = .error e ∧
      p.loadProjectMarks relative =
        { noMarks with problem := text "nothing marked: " ++ shortReason relative path e.what } := by
  rw [loadProjectMarks]
  cases hpath : p.fs.findManifestUpward p.host (rootedPath p.fs.cwd) with
  | none => simp [noMarks]
  | some path =>
    dsimp only
    cases hload : p.loadManifest path with
    | error e => exact iff_of_true (by simp [text]) ⟨path, e, rfl, hload, rfl⟩
    | ok m =>
      dsimp only
      split_ifs <;> simp [noMarks, hload]

/-- A key is marked with `VAR (env)` exactly if the manifest that `exec -e env` takes here sets VAR from it.
Where the environment has no variable twice, `exec` takes VAR from just this key; else from one that is marked
so. Marks have no control characters, and where the manifest can't be used nothing is marked and the problem is
told. -/
theorem marks_agree_with_exec (relative : Bytes → Option Bytes) (environ : Environ) (program : List Bytes) :
    let marks := p.loadProjectMarks relative
    (∀ key label : Bytes, label ∈ marks.envVarsByKey[key]?.getD [] ↔ ∃ env scope,
      p.ScopeIn rest environ program env scope ∧ ∃ e ∈ scope.entries, e.path = key ∧ markLabel env e = label) ∧
    (∀ env scope, p.ScopeIn rest environ program env scope → (scope.entries.map (·.envVar)).Nodup →
      ∀ e ∈ scope.entries, ∀ key, e.path = key ↔ p.Takes rest environ program env e.envVar key) ∧
    (∀ env var key, p.Takes rest environ program env var key →
      printable (var ++ text " (" ++ env ++ text ")") ∈ marks.envVarsByKey[key]?.getD []) ∧
    (∀ key : Bytes, ∀ label ∈ marks.envVarsByKey[key]?.getD [], hasControlChar label = false) ∧
    (marks.problem ≠ [] ↔ ∃ path e, p.fs.findManifestUpward p.host (rootedPath p.fs.cwd) = some path ∧
      p.loadManifest path = .error e ∧
        marks = { noMarks with problem := text "nothing marked: " ++ shortReason relative path e.what }) := by
  have hmarks : ∀ key label : Bytes, label ∈ (p.loadProjectMarks relative).envVarsByKey[key]?.getD [] ↔
      ∃ env scope,
      p.ScopeIn rest environ program env scope ∧ ∃ e ∈ scope.entries, e.path = key ∧ markLabel env e = label :=
    fun _ _ => mem_loadProjectMarks
  refine ⟨hmarks, fun env scope hscope hnames e he key => ?_, fun env var key h => ?_, fun key label hlabel => ?_,
    loadProjectMarks_problem⟩
  · have honce : (scope.targets.map Prod.fst).Nodup := by
      rw [ExecScope.targets, List.map_map]
      exact hnames
    have hlast : lastOf e.envVar scope.targets = some e.path := lastOf_of_nodup honce (List.mem_map_of_mem he)
    constructor
    · rintro rfl
      exact ⟨scope, hscope, (ExecScope.takes_iff rfl).mpr hlast⟩
    · rintro ⟨scope', hscope', htakes⟩
      obtain rfl := Except.ok.inj (hscope'.1.symm.trans hscope.1)
      exact Option.some.inj (hlast.symm.trans ((ExecScope.takes_iff rfl).mp htakes))
  · obtain ⟨scope, hscope, htakes⟩ := h
    obtain ⟨e, he, hpair⟩ := List.mem_map.mp (mem_of_lastOf ((ExecScope.takes_iff rfl).mp htakes))
    obtain ⟨rfl, rfl⟩ := Prod.mk.inj hpair
    exact (hmarks _ _).mpr ⟨env, scope, hscope, e, he, rfl, rfl⟩
  · obtain ⟨env, _, -, e, -, -, rfl⟩ := (hmarks _ _).mp hlabel
    exact hasControlChar_printable _

end Process

/-- Two secrets for one variable: both are marked, and `exec` takes the second. -/
def twiceProcess : Process :=
  { execProcess with
    fs := { nestedFiles with
      entries := Entries.ofList [([], .directory rootDirectory), ([.home], .directory privateDirectory),
        ([.home, .manifest], .leaf { sampleLeaf with reads := [.bytes twiceText] }),
        ([.home, .work], .directory privateDirectory)] (fun _ => true) (by decide) }
    yaml := loadOnly twiceText twiceTree }

def twiceEntry (name : Bytes) : SecretEntry :=
  ⟨name, .text, text "dev/shop/" ++ name, [], [], text "UV_PUBLISH_TOKEN"⟩

theorem marks_agree_with_exec_sample : text "UV_PUBLISH_TOKEN (dev)" ∈
    (twiceProcess.loadProjectMarks fun _ => none).envVarsByKey[text "dev/shop/new"]?.getD [] := by
  have hscope : twiceProcess.ScopeIn execSurroundings (fun _ => none) [text "prog"] (text "dev")
      ⟨⟨.local, []⟩, [twiceEntry (text "old"), twiceEntry (text "new")], []⟩ := ⟨by decide +kernel, rfl⟩
  have htakes : twiceProcess.Takes execSurroundings (fun _ => none) [text "prog"] (text "dev")
      (text "UV_PUBLISH_TOKEN") (text "dev/shop/new") := ⟨_, hscope, fun _ => rfl⟩
  exact (Process.marks_agree_with_exec _ _ _).2.2.1 _ _ _ htakes

end Secretov
