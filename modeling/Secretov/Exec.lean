import Secretov.Import
import Secretov.Lib.Environ

/-! `secretov exec` (client.cpp): a program run with secrets in its environment. -/

namespace Secretov

def kEnvOverrideVar : Bytes := text "SECRETOV_ENV"

def kInjectedVar : Bytes := text "SECRETOV_INJECTED"

structure ExecArgs where
  project : Option Bytes
  env : Option Bytes
  dryRun : Bool
  raw : KeyValues
  program : List Bytes
deriving DecidableEq

/-- `KEY[=ENVVAR]`, as (key, envvar). -/
def secretSpec (spec : Bytes) : Bytes × Bytes :=
  match spec.dropWhile (· ≠ equalsSign) with
  | [] => (spec, spec)
  | _ :: envvar => (spec.takeWhile (· ≠ equalsSign), envvar)

def parseExecArgs (args : ExecArgs) : List Bytes → Except Bytes ExecArgs
  | [] => .ok args
  | arg :: rest =>
    if arg = text "--" then .ok { args with program := rest }
    else if arg = text "-p" ∨ arg = text "--project" then match rest with
      | [] => .error (arg ++ text " requires a value")
      | value :: rest => parseExecArgs { args with project := some value } rest
    else if arg = text "-e" ∨ arg = text "--env" then match rest with
      | [] => .error (arg ++ text " requires a value")
      | value :: rest => parseExecArgs { args with env := some value } rest
    else if arg = text "--dry-run" then parseExecArgs { args with dryRun := true } rest
    else if arg = text "--secret" then match rest with
      | [] => .error (text "--secret requires KEY[=ENVVAR]")
      | spec :: rest => parseExecArgs { args with raw := args.raw ++ [secretSpec spec] } rest
    else .error (text "unexpected argument '" ++ arg ++ text "' before '--'")

structure ExecSurroundings extends Surroundings where
  registry : Bytes

/-- What the manifest contributes to an exec. -/
structure ExecScope where
  backend : BackendConfig
  entries : List SecretEntry
  plain : KeyValues
deriving DecidableEq

section

variable (yaml : YamlCpp) (around : ExecSurroundings) (files : ManifestFiles)

def loadManifest (path : Bytes) : Except Thrown Manifest := do
  parseManifest yaml (← readManifestText around.toSurroundings files path) path

def resolveManifest (project : Option Bytes) : Except Thrown Manifest := do
  match project with
  | some project => match ← around.registryProjectRoot project with
    | none => throw (.runtimeError (text "project '" ++ project ++ text "' is not in " ++ around.registry ++
        text "; add it there or run from inside the project"))
    | some root =>
      let m ← loadManifest yaml around files (root ++ slash :: kManifestFileName)
      Prog.throwIf (m.project ≠ project)
        (.runtimeError (text "manifest " ++ m.path ++ text " names project '" ++ m.project ++
          text "' but registry entry is '" ++ project ++ text "'"))
      return m
  | none => match ← around.findManifestUpward with
    | none => throw (.runtimeError (text "no " ++ kManifestFileName ++
        text " found from the current directory upward; pass -p NAME"))
    | some found => loadManifest yaml around files found

/-- `resolve_env`, which finds the override in the environment of the process. -/
def resolveEnvIn (environ : Environ) (args : ExecArgs) (manifest : Manifest) : Except Thrown Bytes :=
  resolveEnv ⟨args.project, args.env, false, []⟩
    { around.toSurroundings with envOverride := (environ (.of kEnvOverrideVar)).map CString.bytes }
    (some manifest)

def entriesFor (m : Manifest) (env : Bytes) : Except Thrown (List SecretEntry) :=
  match m.envs[env]? with
  | none => .error (.runtimeError (text "environment '" ++ env ++ text "' not found in " ++ m.path))
  | some entries => .ok entries

def varsFor (m : Manifest) (env : Bytes) : KeyValues := m.vars[env]?.getD []

/-- Without a scope flag, `--secret` alone needs no manifest. -/
def execScope (args : ExecArgs) (environ : Environ) : Except Thrown ExecScope := do
  if args.project.isSome ∨ args.env.isSome ∨ args.raw = [] then
    let manifest ← resolveManifest yaml around files args.project
    Prog.throwIf (args.raw ≠ [] ∧ manifest.backend.type ≠ .local)
      (.runtimeError (text "--secret names raw local-store keys; this manifest uses " ++
        backendTypeName manifest.backend.type))
    let env ← resolveEnvIn around environ args manifest
    let entries ← entriesFor manifest env
    return ⟨manifest.backend, entries, varsFor manifest env⟩
  else return ⟨⟨.local, []⟩, [], []⟩

def openBackend (type : BackendType) : Except Bytes Unit :=
  match type with
  | .local => around.openClient.mapError Thrown.what
  | .aws => .error (text "backend 'aws' not compiled in (rebuild with -DSECRETOV_BACKEND_AWS=ON)")
  | .gcp => .error (text "backend 'gcp' not compiled in (rebuild with -DSECRETOV_BACKEND_GCP=ON)")

end

/-- The pairs (envvar, path) of the manifest's entries. -/
def ExecScope.targets (scope : ExecScope) : KeyValues := scope.entries.map fun e => (e.envVar, e.path)

/-- The pairs (envvar, key) of the `--secret` arguments. -/
def ExecArgs.targets (args : ExecArgs) : KeyValues := args.raw.map Prod.swap

def wanted (scope : ExecScope) (args : ExecArgs) : KeyValues := scope.targets ++ args.targets

def dryRunText (scope : ExecScope) (args : ExecArgs) : Bytes :=
  scope.plain.flatMap (fun var => var.1 ++ text " = " ++ var.2 ++ [newline]) ++
    (wanted scope args).flatMap fun item => item.1 ++ text " <- " ++ item.2 ++ [newline]

def addMissing (fetched : Fetched) (missing : List Bytes) (item : Bytes × Bytes) : Except Bytes (List Bytes) :=
  match fetched.failures[item.2]? with
  | none => .ok missing
  | some failure => if failure.kind ≠ .notFound then .error failure.what else .ok (missing ++ [item.2])

def missingPaths (fetched : Fetched) (targets : KeyValues) : Except Bytes (List Bytes) :=
  targets.foldlM (addMissing fetched) []

/-- `fetched.values.at(path)`. -/
def valueAt (fetched : Fetched) (path : Bytes) : Except Bytes Bytes :=
  match fetched.values[path]? with
  | some value => .ok value
  | none => .error (text "map::at")

inductive ExecError where
  | usage (what : Option Bytes)
  | failed (what : Bytes)
deriving DecidableEq

inductive ExecOutcome where
  | printed (lines : Bytes)
  | started (program : List Bytes)
deriving DecidableEq

/-- The process, with the strings that it has passed to `setenv`. -/
structure ExecState (σ : Type) where
  session : σ
  environ : Environ
  setenvs : KeyValues

abbrev ExecM (σ α : Type) := Prog ExecError (ExecState σ) α

section

variable {σ : Type}

def fail {α : Type} (r : Except Bytes α) : ExecM σ α := Prog.ofExcept (r.mapError .failed)

def exportEnvVar (name value : Bytes) : ExecM σ PUnit := fun s =>
  let s := { s with setenvs := s.setenvs ++ [(name, value)] }
  match setenv s.environ name value with
  | some environ => (.ok ⟨⟩, { s with environ })
  | none => (.error (.failed (text "setenv '" ++ name ++ text "' failed")), s)

def addInjected (injected : List Bytes) (envvar : Bytes) : List Bytes :=
  if envvar ∈ injected then injected else injected ++ [envvar]

def inject (injected : List Bytes) (item : Bytes × Bytes) : ExecM σ (List Bytes) := do
  let _ ← exportEnvVar item.1 item.2
  return addInjected injected item.1

def injectSecret (fetched : Fetched) (injected : List Bytes) (item : Bytes × Bytes) : ExecM σ (List Bytes) := do
  let value ← fail (valueAt fetched item.2)
  inject injected (item.1, value)

/-- The new value of `SECRETOV_INJECTED`, from the one that is there. -/
def markerValue (inherited : Option CString) (injected : List Bytes) : Bytes :=
  match inherited.filter (·.bytes ≠ []) with
  | some inherited => inherited.bytes ++ text "," ++ joinWith (text ",") injected
  | none => joinWith (text ",") injected

def markInjected (injected : List Bytes) : ExecM σ PUnit := do
  if injected ≠ [] then
    let inherited := (← Prog.get).environ (.of kInjectedVar)
    exportEnvVar kInjectedVar (markerValue inherited injected)

def injectFetched (scope : ExecScope) (args : ExecArgs) (fetched : Fetched) : ExecM σ PUnit := do
  let injected ← scope.plain.foldlM inject []
  let injected ← (wanted scope args).foldlM (injectSecret fetched) injected
  markInjected injected

variable (ask : Bytes → Bytes → Option Bytes → Prog LocalError σ Json)

def fetchWanted (targets : KeyValues) : ExecM σ Fetched := fun s =>
  let r := getMany ask (targets.map Prod.snd) s.session
  (r.1.mapError fun e => .failed e.what, { s with session := r.2 })

def checkMissing (targets : KeyValues) (fetched : Fetched) : Except Bytes PUnit := do
  let missing ← missingPaths fetched targets
  Prog.throwIf (missing ≠ []) (text "missing secrets: " ++ joinWith (text ", ") missing)

/-- `cmd_exec`, up to `execvp`. -/
def cmdExec (yaml : YamlCpp) (around : ExecSurroundings) (files : ManifestFiles) (argv : List CString) :
    ExecM σ ExecOutcome := do
  let args ← Prog.ofExcept ((parseExecArgs ⟨none, none, false, [], []⟩ (argv.map CString.bytes)).mapError
    fun what => .usage (some what))
  let _ ← Prog.ofExcept (Prog.throwIf (args.program = [] ∧ !args.dryRun) (.usage none))
  let scope ← fail ((execScope yaml around files args (← Prog.get).environ).mapError Thrown.what)
  if args.dryRun then return .printed (dryRunText scope args)
  else
    let _ ← fail (openBackend around scope.backend.type)
    let fetched ← fetchWanted ask (wanted scope args)
    let _ ← fail (checkMissing (wanted scope args) fetched)
    let _ ← injectFetched scope args fetched
    return .started args.program

end

end Secretov
