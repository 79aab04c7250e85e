import Mathlib.Data.List.Dedup
import Mathlib.Data.List.DropRight
import Secretov.Lib.Grouping
import Secretov.Requests

/-! `LocalBackend` (backend.cpp): many paths fetched from the daemon, several of one
scope at once. -/

namespace Secretov

structure Fetched where
  values : Std.ExtTreeMap Bytes Bytes compare
  failures : Std.ExtTreeMap Bytes BackendError compare

/-- Everything up to the last '/'. Nothing of a path without one. -/
def scopeOf (path : Bytes) : Bytes := path.rdropWhile (· ≠ slash)

/-- `by_prefix`. -/
def byPrefix (paths : List Bytes) : Std.ExtTreeMap Bytes (List Bytes) compare :=
  Grouping.groupBy scopeOf paths

/-- `operator[]` of an object that may change: a missing member is made null. -/
def Json.index (j : Json) (key : Bytes) : Json := (j.find? key).getD .null

/-- `items()`: an array goes by its indices, and any other value is one item. -/
def Json.items : Json → List (Bytes × Json)
  | .object members => members
  | .array items => items.zipIdx.map fun item => (decimal item.2, item.1)
  | .null => []
  | j => [([], j)]

def takeString : Json → Except LocalError Bytes
  | .string s => .ok s
  | _ => .error (.error (.runtimeError (text "daemon reply has no value")))

def notFoundError : BackendError := ⟨.notFound, kErrNotFound, false, false, 0, false⟩

section

variable {σ : Type} (ask : Bytes → Bytes → Option Bytes → Prog LocalError σ Json)

abbrev Scope := Std.ExtTreeMap Bytes Bytes compare

def addValue (scope : Scope) (item : Bytes × Json) : Except LocalError Scope := do
  return scope.insertIfNew item.1 (← takeString item.2)

def fetchScope (pre : Bytes) : Prog LocalError σ Scope := do
  let resp ← ask (text "getprefix") pre none
  Prog.ofExcept ((resp.index (text "values")).items.foldlM addValue ∅)

def fetchValue (batched : Bool) (scope : Scope) (path : Bytes) : Prog LocalError σ Bytes :=
  if !batched then do
    let resp ← ask (text "get") path none
    Prog.ofExcept (takeString (resp.index (text "value")))
  else match scope[path]? with
    | some value => return value
    | none => Prog.throw (.backend notFoundError)

def fetchPath (batched : Bool) (scope : Scope) (fetched : Fetched) (path : Bytes) : Prog LocalError σ Fetched :=
  Prog.tryCatch
    (do
      let value ← fetchValue ask batched scope path
      return { fetched with values := fetched.values.insertIfNew path value })
    fun
      | .backend e =>
        if e.kind ≠ .notFound then Prog.throw (.backend e)
        else return { fetched with failures := fetched.failures.insertIfNew path e }
      | .error e => Prog.throw (.error e)

def fetchGroup (fetched : Fetched) (group : Bytes × List Bytes) : Prog LocalError σ Fetched := do
  let batched := group.1 ≠ [] ∧ group.2.length > 1
  let scope ← (if batched then fetchScope ask group.1 else pure ∅ : Prog LocalError σ Scope)
  group.2.foldlM (fetchPath ask batched scope) fetched

def getMany (paths : List Bytes) : Prog LocalError σ Fetched :=
  (byPrefix paths).toList.foldlM (fetchGroup ask) ⟨∅, ∅⟩

/-- One `get` for each distinct path. -/
def getEach (paths : List Bytes) : Prog LocalError σ Fetched :=
  paths.dedup.foldlM (fetchPath ask false ∅) ⟨∅, ∅⟩

end

end Secretov
