import Secretov.Commands
import Secretov.ExecRuns
import Secretov.Registry

/-! Where a command has its scope from (client.cpp), and `exec` the variables that it sets: from the
command line, the environment, or a manifest that only we can have written. -/

namespace Secretov

open LinkTree

/-- The environment of a scope: by its flag, by `SECRETOV_ENV` or by the manifest's default. -/
def GivesEnv (environ : Environ) (scope : ScopeArgs) (manifest : Option Manifest) (env : Bytes) : Prop :=
  scope.env = some env ∨
    (scope.env = none ∧ ∃ value, environ (.of kEnvOverrideVar) = some value ∧ value.bytes = env ∧ env ≠ []) ∨
    (scope.env = none ∧ (∀ value, environ (.of kEnvOverrideVar) = some value → value.bytes = []) ∧
      ∃ m, manifest = some m ∧ m.defaultEnv = some env)

theorem resolveEnv_gives {environ : Environ} {around : Surroundings} {flags : ScopeArgs}
    {manifest : Option Manifest}
    {env : Bytes} (hoverride : around.envOverride = (environ (.of kEnvOverrideVar)).map CString.bytes)
    (h : resolveEnv ⟨flags.project, flags.env, false, []⟩ around manifest = .ok env) :
    GivesEnv environ flags manifest env := by
  rw [resolveEnv, hoverride] at h
  cases hflag : flags.env with
  | some env' =>
    rw [hflag] at h
    exact .inl (hflag.trans (congrArg some (Except.ok.inj h)))
  | none =>
    rw [hflag] at h
    cases hvalue : ((environ (.of kEnvOverrideVar)).map CString.bytes).filter (· ≠ []) with
    | some env' =>
      rw [hvalue] at h
      obtain rfl := Except.ok.inj h
      obtain ⟨hfound, hset⟩ := Option.filter_eq_some_iff.mp hvalue
      obtain ⟨value, hfound, hbytes⟩ := Option.map_eq_some_iff.mp hfound
      exact .inr (.inl ⟨hflag, value, hfound, hbytes, by simpa using hset⟩)
    | none =>
      rw [hvalue] at h
      cases hdefault : manifest.bind Manifest.defaultEnv with
      | none => rw [hdefault] at h; cases h
      | some env' =>
        rw [hdefault] at h
        obtain rfl := Except.ok.inj h
        refine .inr (.inr ⟨hflag, fun value hfound => ?_, Option.bind_eq_some_iff.mp hdefault⟩)
        rw [hfound] at hvalue
        simpa [Option.filter] using hvalue

namespace Process

variable {p : Process} {rest : ExecSurroundings} {args : ExecArgs} {environ : Environ} {scope : ExecScope}

/-- Where get, set, list and delete have their scope from. A project is named by its vouched
manifest; without a manifest it is the one of the command line, and no registered one. -/
theorem scope_is_vouched {info : FileInfo} (hcwd : p.fs.entries.node p.fs.cwd = some (.directory info))
    {flags : ScopeArgs} {resolved : ResolvedScope}
    (h : resolveScope p.yaml (p.surroundings rest) p.files flags = .ok resolved) :
    GivesEnv p.environ flags resolved.manifest resolved.env ∧
      ((∃ m, resolved.manifest = some m ∧ p.Vouches flags.project m ∧ resolved.project = m.project) ∨
        ∃ name, flags.project = some name ∧ resolved.manifest = none ∧ resolved.project = name ∧
          p.registryProjectRoot name = .ok none) := by
  obtain ⟨needed, hneeded, h⟩ := Prog.except_bind_eq_ok.mp h
  obtain ⟨manifest, hmanifest, h⟩ := Prog.except_bind_eq_ok.mp h
  obtain ⟨env, henv, h⟩ := Prog.except_bind_eq_ok.mp h
  obtain rfl := Except.ok.inj h
  refine ⟨resolveEnv_gives rfl henv, ?_⟩
  have hneeds : needed = true → ∃ m, manifest = some m ∧ p.Vouches flags.project m := by
    rintro rfl
    obtain ⟨m, hm, hsome⟩ := Prog.except_bind_eq_ok.mp hmanifest
    exact ⟨m, (Except.ok.inj hsome).symm, resolveManifest_vouches hcwd hm⟩
  cases hproject : flags.project with
  | none =>
    rw [hproject] at hneeded
    obtain ⟨m, rfl, hvouches⟩ := hneeds (Except.ok.inj hneeded).symm
    exact .inl ⟨m, rfl, hproject ▸ hvouches, rfl⟩
  | some name =>
    rw [hproject] at hneeded
    change (p.registryProjectRoot name).map Option.isSome = .ok needed at hneeded
    cases hroot : p.registryProjectRoot name with
    | error e => rw [hroot] at hneeded; cases hneeded
    | ok root =>
      rw [hroot] at hneeded
      obtain rfl := Except.ok.inj hneeded
      cases root with
      | none => exact .inr ⟨name, rfl, (Except.ok.inj hmanifest).symm, rfl, hroot⟩
      | some root =>
        obtain ⟨m, rfl, hvouches⟩ := hneeds rfl
        rw [hproject] at hvouches
        obtain ⟨_, _, -, -, -, hname⟩ := id hvouches
        exact .inl ⟨m, rfl, hvouches, (hname name rfl).symm⟩

theorem scope_is_vouched_sample : ∃ m, sampleProcess.Vouches (some (text "p")) m ∧ m.project = text "p" := by
  have hresolved :
      (resolveScope sampleProcess.yaml (sampleProcess.surroundings execSurroundings) sampleProcess.files
      ⟨some (text "p"), some (text "dev")⟩).map (fun resolved => (resolved.project, resolved.manifest.isSome)) =
        .ok (text "p", true) := by
    decide +kernel
  cases hscope : resolveScope sampleProcess.yaml (sampleProcess.surroundings execSurroundings) sampleProcess.files
      ⟨some (text "p"), some (text "dev")⟩ with
  | error e => rw [hscope] at hresolved; cases hresolved
  | ok resolved =>
    rw [hscope] at hresolved
    obtain ⟨hproject, hmanifest⟩ := Prod.mk.inj (Except.ok.inj hresolved)
    obtain ⟨-, ⟨m, -, hvouches, hsame⟩ | ⟨name, -, hnone, -⟩⟩ := scope_is_vouched rfl hscope
    · exact ⟨m, hvouches, hsame.symm.trans hproject⟩
    · rw [hnone] at hmanifest
      cases hmanifest

theorem execScope_vouched {info : FileInfo} (hcwd : p.fs.entries.node p.fs.cwd = some (.directory info))
    (h : execScope p.yaml (p.surroundings rest) p.files args environ = .ok scope) :
    scope.entries = [] ∧ scope.plain = [] ∨ ∃ m env, p.Vouches args.project m ∧
      GivesEnv environ ⟨args.project, args.env⟩ (some m) env ∧ m.envs[env]? = some scope.entries ∧
        scope.plain = varsFor m env := by
  unfold execScope at h
  split_ifs at h
  · obtain ⟨m, hm, h⟩ := Prog.except_bind_eq_ok.mp h
    obtain ⟨_, -, h⟩ := Prog.except_bind_eq_ok.mp h
    obtain ⟨env, henv, h⟩ := Prog.except_bind_eq_ok.mp h
    obtain ⟨entries, hentries, h⟩ := Prog.except_bind_eq_ok.mp h
    obtain rfl := Except.ok.inj h
    refine .inr ⟨m, env, resolveManifest_vouches hcwd hm, resolveEnv_gives rfl henv, ?_, rfl⟩
    rw [entriesFor] at hentries
    cases hfound : m.envs[env]? with
    | none => simp [hfound] at hentries
    | some found =>
      rw [hfound] at hentries
      exact congrArg some (Except.ok.inj hentries)
  · obtain rfl := Except.ok.inj h
    exact .inl ⟨rfl, rfl⟩

theorem exports_name {value : Bytes → Bytes} {name v : Bytes} (h : (name, v) ∈ exports scope args value) :
    (∃ key, (key, name) ∈ args.raw) ∨ (∃ v, (name, v) ∈ scope.plain) ∨ ∃ e ∈ scope.entries, e.envVar = name := by
  rw [exports, wanted, List.map_append, List.mem_append, List.mem_append] at h
  rcases h with hplain | hentry | hraw
  · exact .inr (.inl ⟨v, hplain⟩)
  · obtain ⟨_, htarget, heq⟩ := List.mem_map.mp hentry
    obtain ⟨e, he, rfl⟩ := List.mem_map.mp htarget
    exact .inr (.inr ⟨e, he, (Prod.mk.inj heq).1⟩)
  · obtain ⟨_, htarget, heq⟩ := List.mem_map.mp hraw
    obtain ⟨pair, hpair, rfl⟩ := List.mem_map.mp htarget
    obtain ⟨rfl, -⟩ := Prod.mk.inj heq
    exact .inl ⟨pair.1, hpair⟩

/-- The manifest has the name in the environment: a variable, or a secret's. -/
def Declares (m : Manifest) (env name : Bytes) : Prop :=
  (∃ value, (name, value) ∈ varsFor m env) ∨ ∃ entries, m.envs[env]? = some entries ∧
    ∃ e ∈ entries, e.envVar = name

variable {σ : Type} {ask : Bytes → Bytes → Option Bytes → Prog LocalError σ Json}

/-- What differs in the environment of a program that exec starts, its marker apart, was asked for on
the command line, or is declared for the environment in a vouched manifest, by a name that manifests
may set. -/
theorem exec_environment_vouched {info : FileInfo} (hcwd : p.fs.entries.node p.fs.cwd = some (.directory info))
    {argv : List CString} {program : List Bytes} {s s' : ExecState σ}
    (h : cmdExec ask p.yaml (p.surroundings rest) p.files argv s = (.ok (.started program), s')) :
    ∃ args, parseExecArgs noArgs (argv.map CString.bytes) = .ok args ∧ ∀ name, 0 ∉ name → name ≠ kInjectedVar →
      s'.environ (.of name) ≠ s.environ (.of name) → (∃ key, (key, name) ∈ args.raw) ∨
        ∃ m env, p.Vouches args.project m ∧ GivesEnv s.environ ⟨args.project, args.env⟩ (some m) env ∧
          Declares m env name ∧ Settable name := by
  obtain ⟨args, scope, fetched, t, hargs, hscope, -, -, hinject⟩ := cmdExec_started h
  obtain ⟨-, environ, hall, rfl⟩ := injectFetched_eq_ok.mp hinject
  refine ⟨args, hargs, fun name hnul hname hchanged => ?_⟩
  rw [environ_marked _ _ hname hnul, (setenvAll_eq_some.mp hall).2] at hchanged
  dsimp only at hchanged
  rw [lastOf_asRead (exports_noNul hargs hscope _) hnul] at hchanged
  cases hlast : lastOf name (exports scope args fun path => fetched.values[path]?.getD []) with
  | none =>
    rw [hlast] at hchanged
    exact absurd rfl hchanged
  | some value =>
    obtain ⟨hplain, htargets⟩ := execScope_settable hscope
    have hsettable : (∃ value, (name, value) ∈ scope.plain) ∨ (∃ e ∈ scope.entries, e.envVar = name) →
        Settable name := by
      rintro (⟨value, hmem⟩ | ⟨e, he, rfl⟩)
      · exact hplain _ hmem
      · exact htargets (e.envVar, e.path) (List.mem_map_of_mem he)
    rcases exports_name (mem_of_lastOf hlast) with hraw | hfromScope
    · exact .inl hraw
    · rcases execScope_vouched hcwd hscope with ⟨hentries, hvars⟩ | ⟨m, env, hvouches, hgives, hentries, hvars⟩
      · rw [hentries, hvars] at hfromScope
        simp at hfromScope
      · refine .inr ⟨m, env, hvouches, hgives, ?_, hsettable hfromScope⟩
        rcases hfromScope with hvar | hentry
        · exact .inl (hvars ▸ hvar)
        · exact .inr ⟨scope.entries, hentries, hentry⟩

end Process

/-- A project in the home directory, and no registry. -/
def execProcess : Process :=
  { sampleProcess with
    fs := { nestedFiles with
      entries := Entries.ofList [([], .directory rootDirectory), ([.home], .directory privateDirectory),
        ([.home, .manifest], .leaf { sampleLeaf with reads := [.bytes execText] }),
        ([.home, .work], .directory privateDirectory)] (fun _ => true) (by decide) }
    yaml := loadOnly execText execTree }

/-- `exec -e dev -- prog`. -/
def vouchedArgv : List CString := [text "-e", text "dev", text "--", text "prog"].map CString.of

theorem exec_environment_vouched_sample :
    ∃ m, execProcess.Vouches none m ∧ Process.Declares m (text "dev") (text "UV_PUBLISH_USERNAME") ∧
      Settable (text "UV_PUBLISH_USERNAME") := by
  have hstarted : (cmdExec (execChannel (text "x") plainReply).localRequest execProcess.yaml
      (execProcess.surroundings execSurroundings) execProcess.files vouchedArgv (execStart (text "x"))).1 =
        .ok (.started [text "prog"]) ∧
      (cmdExec (execChannel (text "x") plainReply).localRequest execProcess.yaml
        (execProcess.surroundings execSurroundings) execProcess.files vouchedArgv
          (execStart (text "x"))).2.environ (.of (text "UV_PUBLISH_USERNAME")) = some (.of (text "me")) := by
    decide +kernel
  generalize hrun : cmdExec (execChannel (text "x") plainReply).localRequest execProcess.yaml
    (execProcess.surroundings execSurroundings) execProcess.files vouchedArgv (execStart (text "x")) =
    run at hstarted
  obtain ⟨result, s'⟩ := run
  obtain ⟨rfl, hset⟩ := hstarted
  obtain ⟨args, hargs, hall⟩ := Process.exec_environment_vouched rfl hrun
  have hvouched : parseExecArgs noArgs (vouchedArgv.map CString.bytes) =
      .ok ⟨none, some (text "dev"), false, [], [text "prog"]⟩ := by decide
  obtain rfl := Except.ok.inj (hvouched.symm.trans hargs)
  have hchanged : s'.environ (.of (text "UV_PUBLISH_USERNAME")) ≠ none := by
    rw [hset]
    exact Option.some_ne_none _
  rcases hall (text "UV_PUBLISH_USERNAME") (by decide) (by decide) hchanged with ⟨key, hkey⟩ | hdeclared
  · cases hkey
  · obtain ⟨m, env, hvouches, hgives, hdeclares, hsettable⟩ := hdeclared
    have henv : env = text "dev" := by
      rcases hgives with hflag | ⟨hnone, -⟩ | ⟨hnone, -⟩
      · exact (Option.some.inj hflag).symm
      · cases hnone
      · cases hnone
    exact ⟨m, hvouches, henv ▸ hdeclares, hsettable⟩

end Secretov
