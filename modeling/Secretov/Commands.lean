import Secretov.CreateOnly
import Secretov.EntryArgs
import Secretov.Exec

/-! `secretov get`, `set`, `list` and `delete` (client.cpp). Each comes to one request
for the store, or to none. -/

namespace Secretov

structure ResolvedScope where
  env : Bytes
  project : Bytes
  manifest : Option Manifest

def ResolvedScope.backend (resolved : ResolvedScope) : BackendConfig :=
  (resolved.manifest.map Manifest.backend).getD ⟨.local, []⟩

/-- Where `cmd_set` has its value from: what `read_secret_line` gives, or a pipe. -/
inductive ValueInput where
  | terminal (line : Except Bytes Bytes)
  | pipe (contents : Bytes)

def stripLast (b : UInt8) (value : Bytes) : Bytes :=
  if value.getLast? = some b then value.dropLast else value

def readStdinValue (contents : Bytes) : Bytes :=
  stripLast carriageReturn (stripLast newline contents)

/-- What a command throws. A usage error it prints by itself. -/
inductive CommandError where
  | usage (what : Option Bytes)
  | failed (what : Bytes)
  | backend (e : LocalError)
  | client (e : ClientError)
deriving DecidableEq

/-- The request was sent, and may be handled after its caller gave up. -/
def CommandError.maybeApplied : CommandError → Bool
  | .usage _ => false
  | .failed _ => false
  | .backend e => e.maybeApplied
  | .client e => e.maybeApplied

section

variable (yaml : YamlCpp) (around : ExecSurroundings) (files : ManifestFiles)

def resolveScope (scope : ScopeArgs) : Except Thrown ResolvedScope := do
  let needed ← (match scope.project with
    | none => .ok true
    | some project => (around.registryProjectRoot project).map Option.isSome : Except Thrown Bool)
  let manifest ← (if needed then (resolveManifest yaml around files scope.project).map some else .ok none :
    Except Thrown (Option Manifest))
  let env ← resolveEnv ⟨scope.project, scope.env, false, []⟩ around.toSurroundings manifest
  return ⟨env, scope.project.getD ((manifest.map Manifest.project).getD []), manifest⟩

/-- The key in the store. Any other backend is refused by `open_backend`. -/
def resolveTarget (scope : ScopeArgs) (name : Bytes) : Except Bytes Bytes := do
  if scope.project.isNone ∧ scope.env.isNone then
    openBackend around .local
    return name
  else
    let resolved ← (resolveScope yaml around files scope).mapError Thrown.what
    let path ← (scopedKey resolved.env resolved.project name).mapError Thrown.what
    openBackend around resolved.backend.type
    return path

def namedPath (rawKey : Bool) (argv : List Bytes) : Except CommandError Bytes := do
  let parsed ← (parseEntryArgs rawKey argv).mapError .usage
  (resolveTarget yaml around files parsed.1 parsed.2).mapError .failed

def readValue : ValueInput → Except CommandError Bytes
  | .terminal line => do
    let value ← line.mapError .failed
    Prog.throwIf (value = []) (.failed (text
      "empty value on the terminal; nothing stored (pipe an empty value if you mean it)"))
    return value
  | .pipe contents => return readStdinValue contents

def setTarget (argv : List Bytes) (input : ValueInput) : Except CommandError (Bytes × Bytes) := do
  let path ← namedPath yaml around files false argv
  return (path, ← readValue input)

def parseListArgs (scope : ScopeArgs) : List Bytes → Except CommandError ScopeArgs
  | [] => .ok scope
  | arg :: rest => match scopeFlag arg with
    | none => .error (.usage none)
    | some flag => match rest with
      | [] => .error (.failed (requiresValue arg))
      | value :: rest => parseListArgs (scope.put flag value) rest

def declaredLine (entry : SecretEntry) : Bytes :=
  entry.name ++ text "\t" ++ (if entry.kind = .kv then text "kv" else text "text") ++ text "\t" ++ entry.path ++
    text "\t" ++ entry.field ++ [newline]

/-- What a list shows: the keys with a prefix, or what the manifest of another backend declares. -/
def listTarget (argv : List Bytes) : Except CommandError (Bytes ⊕ Bytes) := do
  let scope ← parseListArgs ⟨none, none⟩ argv
  if scope.project.isSome ∨ scope.env.isSome then
    let resolved ← (resolveScope yaml around files scope).mapError (CommandError.failed ∘ Thrown.what)
    match resolved.manifest.filter (·.backend.type ≠ .local) with
    | some manifest =>
      let entries ← (entriesFor manifest resolved.env).mapError (CommandError.failed ∘ Thrown.what)
      return .inr (entries.flatMap declaredLine)
    | none =>
      let pre ← (scopePrefix resolved.env resolved.project).mapError (CommandError.failed ∘ Thrown.what)
      around.openClient.mapError (CommandError.failed ∘ Thrown.what)
      return .inl pre
  else
    around.openClient.mapError (CommandError.failed ∘ Thrown.what)
    return .inl []

end

section

variable {S : Sodium} {F : Format S} (c : Channel)

abbrev CommandM (F : Format S) (α : Type) := Prog CommandError (Session F) α

def orThrow {α ε : Type} (wrap : ε → CommandError) (m : Prog ε (Session F) α) : CommandM F α := fun s =>
  ((m s).1.mapError wrap, (m s).2)

def printValue (path : Bytes) (fetched : Fetched) : Except CommandError Bytes :=
  match fetched.failures.toList with
  | (_, failure) :: _ => .error (.backend (.backend failure))
  | [] => match fetched.values[path]? with
    | none => .error (.failed (text "map::at"))
    | some value => .ok (value ++ [newline])

variable (yaml : YamlCpp) (around : ExecSurroundings) (files : ManifestFiles)

def cmdGet (argv : List Bytes) : CommandM F Bytes := do
  let path ← Prog.ofExcept (namedPath yaml around files true argv)
  let fetched ← orThrow .backend (getMany c.localRequest [path])
  Prog.ofExcept (printValue path fetched)

def cmdSet (argv : List Bytes) (input : ValueInput) : CommandM F Bytes := do
  let target ← Prog.ofExcept (setTarget yaml around files argv input)
  let _ ← orThrow .backend (c.localRequest (text "set") target.1 (some target.2))
  return []

def cmdDelete (argv : List Bytes) : CommandM F Bytes := do
  let path ← Prog.ofExcept (namedPath yaml around files true argv)
  let _ ← orThrow .backend (c.localRequest (text "delete") path none)
  return []

def cmdList (argv : List Bytes) : CommandM F Bytes := do
  match ← Prog.ofExcept (listTarget yaml around files argv) with
  | .inr lines => return lines
  | .inl pre =>
    let resp ← orThrow .client (c.request (text "list") [] none)
    let keys ← Prog.ofExcept ((keysOf resp).mapError (.failed ∘ Error.what))
    return (keys.filter fun key => pre.isPrefixOf key).flatMap (· ++ [newline])

end

end Secretov
