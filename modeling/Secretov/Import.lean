import Secretov.Backend
import Secretov.Dotenv
import Secretov.Exchanges
import Secretov.ManifestEdit

/-! `secretov import` (client.cpp): a dotenv file into the store and the manifest. -/

namespace Secretov

def Thrown.what : Thrown → Bytes
  | runtimeError what => what
  | yaml what => what

structure ImportArgs where
  project : Option Bytes
  env : Option Bytes
  overwrite : Bool
  file : Bytes

/-- What an import reads around it. A call that throws is an error. -/
structure Surroundings where
  registryProjectRoot : Bytes → Except Thrown (Option Bytes)
  findManifestUpward : Except Thrown (Option Bytes)
  cwd : Bytes
  envOverride : Option Bytes
  linkExists : Bytes → Except Thrown Bool
  requireReadable : Bytes → Except Thrown Unit
  canonical : Bytes → Except Thrown Bytes
  requireCreatableManifestDir : Bytes → Except Thrown Unit
  readFileString : Bytes → Except Thrown Bytes
  openClient : Except Thrown Unit
  writeFails : Bytes → Option Bytes

abbrev ManifestFiles := Bytes → Option Bytes

structure Located where
  manifestPath : Bytes
  writePath : Bytes
  manifestText : Bytes
  manifest : Option Manifest
  project : Bytes

def joinWith (separator : Bytes) (items : List Bytes) : Bytes := separator.intercalate items

section

variable (yaml : YamlCpp) (args : ImportArgs) (around : Surroundings)

def locateManifest : Except Thrown Bytes := do
  match args.project with
  | some project =>
    match ← around.registryProjectRoot project with
    | some root => return root ++ slash :: kManifestFileName
    | none => match ← around.findManifestUpward with
      | some found => return found
      | none => return around.cwd ++ slash :: kManifestFileName
  | none => match ← around.findManifestUpward with
    | some found => return found
    | none => throw (.runtimeError (text "no " ++ kManifestFileName ++
        text " found from the current directory upward; pass -p NAME to create one here"))

/-- `read_manifest_text`: the checks of the file and its directories, then the text. -/
def readManifestText (files : ManifestFiles) (path : Bytes) : Except Thrown Bytes := do
  let real ← around.canonical path
  around.requireReadable path
  match files real with
  | some contents => return contents
  | none => throw (.runtimeError (text "open '" ++ path ++ text "'"))

def loadLocated (files : ManifestFiles) : Except Thrown Located := do
  let manifestPath ← locateManifest args around
  if !(← around.linkExists manifestPath) then
    return { manifestPath, writePath := manifestPath, manifestText := [], manifest := none,
             project := args.project.getD [] }
  else
    let manifestText ← readManifestText around files manifestPath
    let manifest ← parseManifest yaml manifestText manifestPath
    Prog.throwIf (args.project.any (· ≠ manifest.project))
      (.runtimeError (text "manifest " ++ manifestPath ++ text " names project '" ++ manifest.project ++
        text "', not '" ++ args.project.getD [] ++ text "'"))
    Prog.throwIf (manifest.backend.type ≠ .local)
      (.runtimeError (text ("import is local-only for now; add entries to .secretov.yaml by hand, then " ++
        "'secretov set ENTRY -p NAME -e ENV'")))
    return { manifestPath, writePath := ← around.canonical manifestPath, manifestText, manifest := some manifest,
             project := manifest.project }

def resolveEnv (manifest : Option Manifest) : Except Thrown Bytes :=
  match args.env, around.envOverride.filter (· ≠ []), manifest.bind Manifest.defaultEnv with
  | some env, _, _ => .ok env
  | none, some env, _ => .ok env
  | none, none, some env => .ok env
  | none, none, none => .error (.runtimeError (text ("no environment: pass -e ENV, set SECRETOV_ENV, " ++
      "or add default_env to the manifest")))

def scopePrefix (env project : Bytes) : Except Thrown Bytes := do
  requireSegment env (text "environment")
  requireSegment project (text "project")
  return env ++ slash :: (project ++ [slash])

structure Target where
  located : Located
  env : Bytes
  pairs : KeyValues

/-- Everything up to the first request. -/
def importTarget (files : ManifestFiles) : Except Bytes Target := do
  let located ← (loadLocated yaml args around files).mapError Thrown.what
  let env ← (resolveEnv args around located.manifest).mapError Thrown.what
  let contents ← (around.readFileString args.file).mapError Thrown.what
  let pairs ← (parseDotenv contents).1.mapError Error.what
  Prog.throwIf (pairs = []) (text "nothing to import from " ++ args.file)
  around.openClient.mapError Thrown.what
  return { located, env, pairs }

/-- `value("values", {})` as a map of strings. -/
def valuesOf (resp : Json) : Except Error Scope :=
  match resp with
  | .object members => match members.lookup (text "values") with
    | none => .ok ∅
    | some (.object values) => values.foldlM (fun scope item => do
        return scope.insertIfNew item.1 (← item.2.getString)) ∅
    | some j => .error (.typeError (text "[json.exception.type_error.302] type must be object, but is " ++
        j.typeName))
  | j => .error (.typeError (text "[json.exception.type_error.306] cannot use value() with " ++ j.typeName))

structure Plan where
  target : Target
  collisions : List Bytes
  newText : Bytes

def importCollisions (target : Target) (existing : Scope) : Except Thrown (List Bytes) :=
  target.pairs.foldlM (fun collisions pair => do
    let key ← scopedKey target.env target.located.project pair.1
    return if key ∈ existing then collisions ++ [key] else collisions) []

/-- The set request of a pair as the client would serialize it. -/
def checkRequest (c : Channel) (target : Target) (pair : Bytes × Bytes) : Except Bytes Unit :=
  let checked : Except Bytes Unit := do
    let key ← (scopedKey target.env target.located.project pair.1).mapError Thrown.what
    let _ ← (serializeRequest c.json c.token (text "set") key (some pair.2)).mapError Error.what
    return ()
  checked.mapError fun what => pair.1 ++ text ": " ++ what ++ text "; nothing imported"

/-- Everything between the first request and the first set. -/
def importPlan (c : Channel) (target : Target) (existing : Scope) : Except Bytes Plan := do
  let collisions ← (importCollisions target existing).mapError Thrown.what
  Prog.throwIf (collisions ≠ [] ∧ !args.overwrite)
    (text "already in store (pass --overwrite to replace):\n  " ++ joinWith (text "\n  ") collisions)
  target.pairs.forM (checkRequest c target)
  let newText ← (manifestWithEntries yaml target.located.manifestText target.located.project target.env
    (target.pairs.map fun pair => (pair.1, pair.1))).mapError Thrown.what
  if newText ≠ target.located.manifestText then
    (around.requireCreatableManifestDir target.located.writePath).mapError Thrown.what
    return { target, collisions, newText }
  else return { target, collisions, newText }

end

/-- How an import fails: before its first set, at a set, or at the manifest. -/
inductive ImportError where
  | refused (what : Bytes)
  | set (var : Bytes) (e : ClientError) (stored : List Bytes)
  | write (what : Bytes)
deriving DecidableEq

def ImportError.what : ImportError → Bytes
  | refused what => what
  | set var e stored => var ++ text ": " ++ e.what ++ if stored = [] then [] else
      text "; manifest not updated; already stored (rerun with --overwrite once fixed):\n  " ++
        joinWith (text "\n  ") stored
  | write what => what

structure Imported where
  count : Nat
  scope : Bytes
  overwritten : Nat
  manifestPath : Bytes
deriving DecidableEq

structure ImportState (σ : Type) where
  session : σ
  files : ManifestFiles

section

variable {σ : Type} (ask : Bytes → Bytes → Option Bytes → Prog ClientError σ Json) (c : Channel) (yaml : YamlCpp)
  (args : ImportArgs) (around : Surroundings)

abbrev ImportM (σ α : Type) := Prog ImportError (ImportState σ) α

def refuse {α : Type} (r : Except Bytes α) : ImportM σ α := Prog.ofExcept (r.mapError .refused)

def importRequest (failure : ClientError → ImportError) (op key : Bytes) (value : Option Bytes) :
    ImportM σ Json :=
  fun s =>
    let r := ask op key value s.session
    (r.1.mapError failure, { s with session := r.2 })

def importChecks : ImportM σ Plan := do
  let target ← refuse (importTarget yaml args around (← Prog.get).files)
  let pre ← refuse ((scopePrefix target.env target.located.project).mapError Thrown.what)
  let resp ← importRequest ask (fun e => .refused e.what) (text "getprefix") pre none
  let existing ← refuse ((valuesOf resp).mapError Error.what)
  refuse (importPlan yaml args around c target existing)

def storePair (target : Target) (stored : List Bytes) (pair : Bytes × Bytes) : ImportM σ (List Bytes) := do
  let key ← refuse ((scopedKey target.env target.located.project pair.1).mapError Thrown.what)
  let _ ← importRequest ask (fun e => .set pair.1 e stored) (text "set") key (some pair.2)
  return stored ++ [key]

/-- `write_file_atomic` on the manifest: the new text, or a throw with the old one in place. -/
def writeManifest (path contents : Bytes) : ImportM σ PUnit :=
  match around.writeFails path with
  | some what => Prog.throw (.write what)
  | none => Prog.modify fun s => { s with files := Function.update s.files path (some contents) }

def cmdImport : ImportM σ Imported := do
  let plan ← importChecks ask c yaml args around
  let _ ← plan.target.pairs.foldlM (storePair ask plan.target) []
  let located := plan.target.located
  let _ ← (if plan.newText ≠ located.manifestText then writeManifest around located.writePath plan.newText
    else pure ⟨⟩ : ImportM σ PUnit)
  let pre ← refuse ((scopePrefix plan.target.env located.project).mapError Thrown.what)
  return { count := plan.target.pairs.length, scope := pre, overwritten := plan.collisions.length,
           manifestPath := located.manifestPath }

end

end Secretov
