import Secretov.SecretPaths
import Std.Data.ExtTreeMap

/-! `parse_manifest` (manifest.cpp). -/

namespace Secretov

inductive EntryKind where
  | text
  | kv
deriving DecidableEq

structure BackendConfig where
  type : BackendType
  location : Bytes
deriving DecidableEq

structure SecretEntry where
  name : Bytes
  kind : EntryKind
  path : Bytes
  field : Bytes
  location : Bytes
  envVar : Bytes
deriving DecidableEq

abbrev KeyValues := List (Bytes × Bytes)

structure Manifest where
  path : Bytes
  project : Bytes
  backend : BackendConfig
  defaultEnv : Option Bytes
  envs : Std.ExtTreeMap Bytes (List SecretEntry) compare
  vars : Std.ExtTreeMap Bytes KeyValues compare

def kManifestFileName : Bytes := text ".secretov.yaml"

def requireManifestEnvName (name path what : Bytes) : Except Thrown Unit :=
  if !isIdentifier name then
    .error (manifestError path (what ++ text " is not a valid environment variable name"))
  else if isDeniedEnvName name then
    .error (manifestError path (what ++ text
      (" cannot be set from a manifest (it can load code into the child " ++
      "process, redirect its traffic, or steer secretov)")))
  else .ok ()

variable (yaml : YamlCpp)

def refuseUnknownKeys (map : Yaml) (allowed : List Bytes) (path «where» : Bytes) : Except Thrown Unit :=
  map.pairs.forM fun pair => do
    let key ← yaml.asString pair.1
    Prog.throwIf (key ∉ allowed) (manifestError path (text "unknown key '" ++ key ++ text "' in " ++ «where»))

def ownKey : BackendType → Bytes
  | .aws => text "region"
  | .gcp => text "project"
  | .local => []

def requireLocation (type : BackendType) (value path «where» : Bytes) : Except Thrown Unit :=
  if type = .aws then requireAwsRegion value path «where» else requireGcpProject value path «where»

def parseLocation (node : Yaml) (type : BackendType) (path «where» : Bytes) : Except Thrown (Option Bytes) := do
  [text "region", text "project"].forM fun key =>
    Prog.throwIf ((node.find? key).isSome ∧ key ≠ ownKey type)
      (manifestError path («where» ++ text " '" ++ key ++ text "' is not valid with backend type " ++
        backendTypeName type))
  match if ownKey type = [] then none else node.find? (ownKey type) with
  | none => return none
  | some valueNode =>
    Prog.throwIf (!valueNode.isScalar)
      (manifestError path («where» ++ text " " ++ ownKey type ++ text " must be a string"))
    let value ← yaml.asString valueNode
    requireLocation type value path «where»
    return some value

def backendType (typeName path : Bytes) : Except Thrown BackendType :=
  if typeName = text "local" then .ok .local
  else if typeName = text "aws" then .ok .aws
  else if typeName = text "gcp" then .ok .gcp
  else .error (manifestError path (text "backend type '" ++ typeName ++ text "' is not one of local, aws, gcp"))

def parseBackend (node : Option Yaml) (path : Bytes) : Except Thrown BackendConfig :=
  match node with
  | none => return ⟨.local, []⟩
  | some node => do
    Prog.throwIf (!node.isMap) (manifestError path (text "'backend' must be a mapping"))
    refuseUnknownKeys yaml node [text "type", text "region", text "project"] path (text "backend:")
    match (node.find? (text "type")).filter Yaml.isScalar with
    | none => throw (manifestError path (text "backend needs a type: local, aws or gcp"))
    | some typeNode =>
      let type ← backendType (← yaml.asString typeNode) path
      match type, ← parseLocation yaml node type path (text "backend") with
      | .local, _ => return ⟨.local, []⟩
      | type, some location => return ⟨type, location⟩
      | type, none =>
        throw (manifestError path (text "backend type " ++ backendTypeName type ++ text " needs " ++ ownKey type))

def optionalScalar (body : Yaml) (key manifestPath described entryName : Bytes) : Except Thrown (Option Bytes) :=
  match body.find? key with
  | none => return none
  | some node => do
    Prog.throwIf (!node.isScalar)
      (manifestError manifestPath (described ++ text " " ++ key ++ text " must be a string"))
    let value ← yaml.asString node
    Prog.throwIf (value = [])
      (manifestError manifestPath (text "secret '" ++ entryName ++ text "' has an empty " ++ key))
    return some value

def entryKind (kind : Option Bytes) (path described : Bytes) : Except Thrown EntryKind :=
  match kind with
  | none => .ok .text
  | some kind =>
    if kind = text "kv" then .ok .kv
    else if kind ≠ text "text" then .error (manifestError path (described ++ text " kind must be text or kv"))
    else .ok .text

/-- The path, field and location of an entry of a local backend. -/
def localTarget (path env project name described : Bytes) (kind : EntryKind) (key secretPath : Option Bytes) :
    Except Thrown (Bytes × Bytes × Bytes) := do
  Prog.throwIf secretPath.isSome
    (manifestError path (described ++ text " path is for cloud backends; a local entry uses key:"))
  Prog.throwIf (kind = .kv)
    (manifestError path (described ++ text " kind kv needs a cloud backend; local entries are text"))
  match key with
  | some key => return (key, [], [])
  | none => return (← scopedKey env project name, [], [])

/-- The path, field and location of an entry of a cloud backend. -/
def cloudTarget (path described envLocation : Bytes) (type : BackendType) (kind : EntryKind)
    (key secretPath : Option Bytes) : Except Thrown (Bytes × Bytes × Bytes) := do
  match secretPath with
  | none => throw (manifestError path (described ++ text " needs an explicit path"))
  | some secretPath =>
    Prog.throwIf (kind = .text ∧ key.isSome)
      (manifestError path (described ++ text " key names a JSON field and needs kind: kv"))
    Prog.throwIf (kind = .kv ∧ key.isNone) (manifestError path (described ++ text " kind kv needs key"))
    let resolve := if type = .aws then resolveAwsPath else resolveGcpPath
    let location ← resolve secretPath envLocation path described
    return (secretPath, if kind = .kv then key.getD [] else [], location)

def entryTarget (path env project name described envLocation : Bytes) (type : BackendType) (kind : EntryKind)
    (key secretPath : Option Bytes) : Except Thrown (Bytes × Bytes × Bytes) :=
  if type = .local then localTarget path env project name described kind key secretPath
  else cloudTarget path described envLocation type kind key secretPath

/-- One turn of the loop of `parse_env_secrets`. -/
def parseEnvSecret (path env project : Bytes) (type : BackendType) (envLocation : Bytes)
    (secretPair : Yaml × Yaml) : Except Thrown SecretEntry := do
  let name ← yaml.asString secretPair.1
  let described := text "secret '" ++ name ++ text "' (env " ++ env ++ text ")"
  let body := secretPair.2
  match if body.isMap then (body.find? (text "env_var_name")).filter Yaml.isScalar else none with
  | none => throw (manifestError path (described ++ text " missing env_var_name"))
  | some envVarNode =>
    refuseUnknownKeys yaml body [text "env_var_name", text "key", text "kind", text "path"] path described
    let envVar ← yaml.asString envVarNode
    requireManifestEnvName envVar path (described ++ text " env_var_name '" ++ envVar ++ text "'")
    let kind ← entryKind (← optionalScalar yaml body (text "kind") path described name) path described
    let key ← optionalScalar yaml body (text "key") path described name
    let secretPath ← optionalScalar yaml body (text "path") path described name
    let target ← entryTarget path env project name described envLocation type kind key secretPath
    return { name, kind, path := target.1, field := target.2.1, location := target.2.2, envVar }

def parseEnvSecrets (secrets : Option Yaml)
    (path env project : Bytes) (type : BackendType) (envLocation : Bytes) : Except Thrown (List SecretEntry) :=
  match secrets with
  | none | some .null => return []
  | some (.map pairs) => pairs.mapM (parseEnvSecret yaml path env project type envLocation)
  | some _ => throw (manifestError path (text "env '" ++ env ++ text "' secrets must be a mapping"))

def parseEnvVar (path env : Bytes) (varPair : Yaml × Yaml) : Except Thrown (Bytes × Bytes) := do
  let varName ← yaml.asString varPair.1
  requireManifestEnvName varName path (text "var '" ++ varName ++ text "' (env " ++ env ++ text ")")
  Prog.throwIf (!varPair.2.isScalar)
    (manifestError path (text "var '" ++ varName ++ text "' (env " ++ env ++ text ") must be a scalar value"))
  return (varName, ← yaml.asString varPair.2)

def parseEnvVars (vars : Option Yaml) (path env : Bytes) : Except Thrown KeyValues :=
  match vars with
  | none | some .null => return []
  | some (.map pairs) => pairs.mapM (parseEnvVar yaml path env)
  | some _ => throw (manifestError path (text "env '" ++ env ++ text "' vars must be a mapping"))

def refuseSetTwice (plain : KeyValues) (entries : List SecretEntry) (path env : Bytes) : Except Thrown Unit :=
  plain.forM fun var => entries.forM fun entry =>
    Prog.throwIf (entry.envVar = var.1) (manifestError path
      (text "'" ++ var.1 ++ text "' (env " ++ env ++ text ") is set in both vars and secrets"))

/-- The part of the loop of `parse_manifest` that reads one environment. -/
def parseEnv (path project : Bytes) (backend : BackendConfig) (env : Bytes) (envNode : Yaml) :
    Except Thrown (List SecretEntry × KeyValues) :=
  if envNode.isNull then return ([], [])
  else do
    Prog.throwIf (!envNode.isMap) (manifestError path (text "env '" ++ env ++ text "' must be a mapping"))
    refuseUnknownKeys yaml envNode [text "vars", text "secrets", text "region", text "project"] path
      (text "env '" ++ env ++ text "'")
    let location ← parseLocation yaml envNode backend.type path (text "env '" ++ env ++ text "'")
    let entries ← parseEnvSecrets yaml (envNode.find? (text "secrets")) path env project backend.type
      (location.getD backend.location)
    let plain ← parseEnvVars yaml (envNode.find? (text "vars")) path env
    refuseSetTwice plain entries path env
    return (entries, plain)

def addEnv (path : Bytes) (m : Manifest) (envPair : Yaml × Yaml) : Except Thrown Manifest := do
  let env ← yaml.asString envPair.1
  requireSegment env (text "environment")
  let parsed ← parseEnv yaml path m.project m.backend env envPair.2
  return { m with envs := m.envs.insert env parsed.1, vars := m.vars.insert env parsed.2 }

def parseDefaultEnv (node : Option Yaml) (path : Bytes) : Except Thrown (Option Bytes) :=
  match node with
  | none => return none
  | some node => do
    Prog.throwIf (!node.isScalar) (manifestError path (text "default_env must be a string"))
    return some (← yaml.asString node)

/-- `parse_manifest` on a loaded document. -/
def parseDocument (doc : Yaml) (path : Bytes) : Except Thrown Manifest := do
  Prog.throwIf (!doc.isMap) (.runtimeError (text "manifest '" ++ path ++ text "' is not a mapping"))
  refuseUnknownKeys yaml doc [text "version", text "name", text "backend", text "default_env", text "env"] path
    kManifestFileName
  match (doc.find? (text "name")).filter Yaml.isScalar with
  | none => throw (.runtimeError (text "manifest '" ++ path ++ text "' missing 'name' field"))
  | some nameNode =>
    let project ← yaml.asString nameNode
    requireSegment project (text "project")
    let backend ← parseBackend yaml (doc.find? (text "backend")) path
    let defaultEnv ← parseDefaultEnv yaml (doc.find? (text "default_env")) path
    let m : Manifest := { path, project, backend, defaultEnv, envs := ∅, vars := ∅ }
    match doc.find? (text "env") with
    | none | some .null => return m
    | some (.map pairs) => pairs.foldlM (addEnv yaml path) m
    | some _ => throw (manifestError path (text "'env' must be a mapping"))

def parseManifest (contents path : Bytes) : Except Thrown Manifest :=
  let walked := do parseDocument yaml (← (yaml.load contents).mapError Thrown.yaml) path
  walked.mapError fun
    | .yaml what => manifestError path what
    | e => e

end Secretov
