import Secretov.Json
import Secretov.Lib.Prog
import Std.Data.ExtTreeMap

/-! The encrypted store (store.cpp). libsodium and the layout of the file are
parameters, so that the operations stand for themselves. Everything that a run
takes from outside, the random bytes and the calls that fail, is an `Env`. -/

namespace Secretov

/-- What the store uses of libsodium. A secretbox is over a key (the wrapped data
key) or over the dumped payload. -/
structure Sodium where
  Salt : Type
  Nonce : Type
  Key : Type
  KeyBox : Type
  Box : Type
  pwhash : Bytes → Salt → UInt64 → UInt64 → Key
  secretboxKeyEasy : Key → Nonce → Key → KeyBox
  secretboxKeyOpenEasy : KeyBox → Nonce → Key → Option Key
  secretboxEasy : Bytes → Nonce → Key → Box
  secretboxOpenEasy : Box → Nonce → Key → Option Bytes

def crypto_pwhash_OPSLIMIT_MIN : UInt64 := 1
def crypto_pwhash_OPSLIMIT_MODERATE : UInt64 := 3
def crypto_pwhash_OPSLIMIT_SENSITIVE : UInt64 := 4
def crypto_pwhash_MEMLIMIT_MIN : UInt64 := 8192
def crypto_pwhash_MEMLIMIT_MODERATE : UInt64 := 268435456
def crypto_pwhash_MEMLIMIT_SENSITIVE : UInt64 := 1073741824

def kDefaultOpslimit : UInt64 := crypto_pwhash_OPSLIMIT_MODERATE
def kDefaultMemlimit : UInt64 := crypto_pwhash_MEMLIMIT_MODERATE

variable (S : Sodium)

/-- The header fields that versions 1 and 2 share. -/
structure Header where
  salt : S.Salt
  opslimit : UInt64
  memlimit : UInt64
  keyCreatedAt : UInt64

structure Envelope extends Header S where
  wrapNonce : S.Nonce
  wrappedKey : S.KeyBox

inductive StoreFile where
  | version1 (header : Header S) (payloadNonce : S.Nonce) (ciphertext : S.Box)
  | version2 (envelope : Envelope S) (payloadNonce : S.Nonce) (ciphertext : S.Box)

/-- The layout of a store file: what `persist` writes, and what `open` reads
before any key is derived. The path is for error texts. -/
structure Format where
  File : Type
  encode : Envelope S → S.Nonce → S.Box → File
  decode : Bytes → File → Except Error (StoreFile S)

def checkKdfParams (opslimit memlimit : UInt64) : Except Error Unit :=
  if opslimit > crypto_pwhash_OPSLIMIT_SENSITIVE ∨ memlimit > crypto_pwhash_MEMLIMIT_SENSITIVE ∨
      opslimit < crypto_pwhash_OPSLIMIT_MIN ∨ memlimit < crypto_pwhash_MEMLIMIT_MIN then
    .error (.runtimeError (text "corrupted store: implausible KDF parameters"))
  else .ok ()

/-- `data_`: nlohmann keeps an object as a map sorted by key. -/
abbrev Data := Std.ExtTreeMap Bytes Json compare

structure Store where
  path : Bytes
  data : Data
  key : S.Key
  env : Envelope S

/-- The calls of one operation that the system may fail. -/
inductive Fault where
  | sodiumInit | readFile
  | unwrapAlloc | unwrapKdfAlloc | unwrapKdf
  | mintKdfAlloc | mintKdf | dataKeyAlloc
  | write
deriving DecidableEq

/-- What one operation takes from outside: which calls fail, with the text their
exception carries, and the bytes that randombytes_buf gives. -/
structure Env where
  fault : Fault → Option Bytes
  salt : S.Salt
  dataKey : S.Key
  wrapNonce : S.Nonce
  payloadNonce : S.Nonce

variable {S}
variable (json : Nlohmann) (F : Format S)

structure World where
  store : Store S
  disk : Option F.File

abbrev DiskM (α : Type) := Prog Error (Option F.File) α

abbrev StoreM (α : Type) := Prog Error (World F) α

variable {F}

def onDisk {α : Type} (m : DiskM F α) : StoreM F α :=
  Prog.zoom World.disk (fun disk w => { w with disk }) m

def ensureSodium (env : Env S) : Except Error Unit :=
  match env.fault .sodiumInit with
  | some _ => .error (.runtimeError (text "libsodium initialization failed"))
  | none => .ok ()

def allocGuarded (env : Env S) (alloc : Fault) : Except Error Unit :=
  match env.fault alloc with
  | some what => .error (.runtimeError what)
  | none => .ok ()

def deriveKdfKey (env : Env S) (alloc kdf : Fault) (passphrase : Bytes) (header : Header S) :
    Except Error S.Key := do
  allocGuarded env alloc
  match env.fault kdf with
  | some _ => .error (.runtimeError (text "Argon2id key derivation failed (out of memory?)"))
  | none => .ok (S.pwhash passphrase header.salt header.opslimit header.memlimit)

def decryptPayload (ciphertext : S.Box) (nonce : S.Nonce) (key : S.Key) : Except Error Data :=
  match S.secretboxOpenEasy ciphertext nonce key with
  | none => .error (.runtimeError (text "wrong passphrase or corrupted store"))
  | some plaintext => match json.parse plaintext with
    | .error _ => .error (.runtimeError (text "corrupted store: decrypted payload is not valid JSON"))
    | .ok (.object members) => .ok (Std.ExtTreeMap.ofList members compare)
    | .ok _ => .error (.runtimeError (text "corrupted store: decrypted payload is not a JSON object"))

def unwrap (env : Env S) (envelope : Envelope S) (passphrase failMsg : Bytes) :
    Except Error (S.Key × S.Key) := do
  allocGuarded env .unwrapAlloc
  let wrapKey ← deriveKdfKey env .unwrapKdfAlloc .unwrapKdf passphrase envelope.toHeader
  match S.secretboxKeyOpenEasy envelope.wrappedKey envelope.wrapNonce wrapKey with
  | none => .error (.runtimeError failMsg)
  | some dataKey => .ok (wrapKey, dataKey)

def mintDataKey (env : Env S) (wrapKey : S.Key) (header : Header S) : S.Key × Envelope S :=
  (env.dataKey,
    { header with
      wrapNonce := env.wrapNonce
      wrappedKey := S.secretboxKeyEasy env.dataKey env.wrapNonce wrapKey })

def mintFreshEnvelope (env : Env S) (passphrase : Bytes) (opslimit memlimit now : UInt64) :
    Except Error (S.Key × Envelope S) := do
  let header : Header S := { salt := env.salt, opslimit, memlimit, keyCreatedAt := now }
  let wrapKey ← deriveKdfKey env .mintKdfAlloc .mintKdf passphrase header
  allocGuarded env .dataKeyAlloc
  return mintDataKey env wrapKey header

/-- `write_file_atomic` as its callers see it: the new contents, or a throw with
the old ones in place. -/
def writeFileAtomic (env : Env S) (contents : F.File) : DiskM F Unit :=
  match env.fault .write with
  | some what => Prog.throw (.runtimeError what)
  | none => Prog.modify fun _ => some contents

def persist (env : Env S) (data : Data) (dataKey : S.Key) (envelope : Envelope S) : DiskM F Unit := do
  let plaintext ← Prog.ofExcept (json.dump (.object data.toList))
  let ciphertext := S.secretboxEasy plaintext env.payloadNonce dataKey
  writeFileAtomic env (F.encode envelope env.payloadNonce ciphertext)

namespace Store

def create (env : Env S) (path passphrase : Bytes) (now : UInt64) : DiskM F (Store S) := do
  Prog.ofExcept (ensureSodium env)
  if (← Prog.get).isSome then
    Prog.throw (.runtimeError (text "store already exists: '" ++ path ++ text "'"))
  else
    let minted ← Prog.ofExcept (mintFreshEnvelope env passphrase kDefaultOpslimit kDefaultMemlimit now)
    persist json env ∅ minted.1 minted.2
    return { path, data := ∅, key := minted.1, env := minted.2 }

/-- `Store::open`. A version-1 file is rewritten as version 2. -/
def «open» (env : Env S) (path passphrase : Bytes) : DiskM F (Store S) := do
  Prog.ofExcept (ensureSodium env)
  match env.fault .readFile, ← Prog.get with
  | none, some raw =>
    match ← Prog.ofExcept (F.decode path raw) with
    | .version1 header payloadNonce ciphertext =>
      let wrapKey ← Prog.ofExcept (deriveKdfKey env .unwrapKdfAlloc .unwrapKdf passphrase header)
      let data ← Prog.ofExcept (decryptPayload json ciphertext payloadNonce wrapKey)
      Prog.ofExcept (allocGuarded env .dataKeyAlloc)
      let minted := mintDataKey env wrapKey header
      persist json env data minted.1 minted.2
      return { path, data, key := minted.1, env := minted.2 }
    | .version2 envelope payloadNonce ciphertext =>
      let keys ← Prog.ofExcept (unwrap env envelope passphrase (text "wrong passphrase or corrupted store"))
      let data ← Prog.ofExcept (decryptPayload json ciphertext payloadNonce keys.2)
      return { path, data, key := keys.2, env := envelope }
  | _, _ => Prog.throw (.runtimeError (text "open '" ++ path ++ text "': " ++ (env.fault .readFile).getD []))

/-- `Store::get`: nullopt for a key that is not stored. -/
def get (store : Store S) (key : Bytes) : Except Error (Option Bytes) :=
  match store.data[key]? with
  | none => .ok none
  | some value => value.getString.map some

def list (store : Store S) : List Bytes :=
  store.data.keys.mergeSort fun a b => (compare a b).isLE

def stringEntry (entry : Bytes × Json) : Except Error (Bytes × Bytes) :=
  entry.2.getString.map fun s => (entry.1, s)

def getPrefix (store : Store S) (pre : Bytes) : Except Error (List (Bytes × Bytes)) :=
  (store.data.toList.filter fun entry => pre.isPrefixOf entry.1).mapM stringEntry

def set (env : Env S) (key value : Bytes) : StoreM F Unit := do
  let this := (← Prog.get).store
  let next := this.data.insert key (.string value)
  onDisk (persist json env next this.key this.env)
  Prog.modify fun w => { w with store := { w.store with data := next } }

def remove (env : Env S) (key : Bytes) : StoreM F Bool := do
  let this := (← Prog.get).store
  if key ∉ this.data then return false
  else
    let next := this.data.erase key
    onDisk (persist json env next this.key this.env)
    Prog.modify fun w => { w with store := { w.store with data := next } }
    return true

def commitNewKey (env : Env S) (newDataKey : S.Key) (next : Envelope S) : StoreM F Unit := do
  let this := (← Prog.get).store
  onDisk (persist json env this.data newDataKey next)
  Prog.modify fun w => { w with store := { w.store with key := newDataKey } }
  Prog.modify fun w => { w with store := { w.store with env := next } }

def rotate (env : Env S) (passphrase : Bytes) (now : UInt64) : StoreM F Unit := do
  let this := (← Prog.get).store
  let keys ← Prog.ofExcept (unwrap env this.env passphrase (text "wrong passphrase"))
  let header := { this.env.toHeader with keyCreatedAt := now }
  Prog.ofExcept (allocGuarded env .dataKeyAlloc)
  let minted := mintDataKey env keys.1 header
  commitNewKey json env minted.1 minted.2

def changePassphrase (env : Env S) (oldPass newPass : Bytes) (now : UInt64) : StoreM F Unit := do
  if newPass = [] then Prog.throw (.runtimeError (text "empty passphrase"))
  else
    let this := (← Prog.get).store
    let _ ← Prog.ofExcept (unwrap env this.env oldPass (text "wrong passphrase"))
    let minted ← Prog.ofExcept (mintFreshEnvelope env newPass (max this.env.opslimit kDefaultOpslimit)
      (max this.env.memlimit kDefaultMemlimit) now)
    commitNewKey json env minted.1 minted.2

end Store

end Secretov
