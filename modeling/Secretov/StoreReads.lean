import Secretov.Lib.Simulation
import Secretov.StoreRefinement

/-! What `Store::open` does with the bytes of a file (store.cpp): its reads, its
subtractions of sizes and its key derivations, in the order of the source. -/

namespace Secretov

inductive Access where
  | read (offset length : Nat)
  | subtract (size part : Nat)
  | derive (opslimit memlimit : UInt64)

/-- Inside a buffer of this size, without underflow, and with limits that
libsodium takes. -/
def Access.Safe (size : Nat) : Access → Prop
  | read offset length => offset + length ≤ size
  | subtract size part => part ≤ size
  | derive opslimit memlimit =>
    (crypto_pwhash_OPSLIMIT_MIN ≤ opslimit ∧ opslimit ≤ crypto_pwhash_OPSLIMIT_SENSITIVE) ∧
      crypto_pwhash_MEMLIMIT_MIN ≤ memlimit ∧ memlimit ≤ crypto_pwhash_MEMLIMIT_SENSITIVE

structure Opening where
  disk : Option Bytes
  accesses : List Access

abbrev OpenM (α : Type) := Prog Error Opening α

def access (a : Access) : OpenM PUnit := Prog.modify fun o => { o with accesses := o.accesses ++ [a] }

/-- Reads `length` bytes, from wherever the offset points: past the end it finds zeros. -/
def readAt (buf : Bytes) (offset length : Nat) : OpenM (Fixed length) := do
  access (.read offset length)
  return pad length (buf.drop offset)

def subtract (size part : Nat) : OpenM Nat := do
  access (.subtract size part)
  return size - part

def readU64 (buf : Bytes) (offset : Nat) : OpenM UInt64 := do
  let p ← readAt buf offset 8
  return getU64Le p.1

variable {lib : Libsodium} (json : Nlohmann)

/-- `read_common_header`, with the offset that it returns. -/
def readCommonHeaderAt (buf : Bytes) : OpenM (Header lib.sodium × Nat) := do
  let offset := 4 + 1
  let salt ← readAt buf offset crypto_pwhash_SALTBYTES
  let offset := offset + crypto_pwhash_SALTBYTES
  let opslimit ← readU64 buf offset
  let offset := offset + 8
  let memlimit ← readU64 buf offset
  let offset := offset + 8
  let keyCreatedAt ← readU64 buf offset
  let offset := offset + 8
  Prog.ofExcept (checkKdfParams opslimit memlimit)
  return ({ salt, opslimit, memlimit, keyCreatedAt }, offset)

def deriveAt (env : Env lib.sodium) (passphrase : Bytes) (header : Header lib.sodium) : OpenM lib.sodium.Key := do
  access (.derive header.opslimit header.memlimit)
  Prog.ofExcept (deriveKdfKey env .unwrapKdfAlloc .unwrapKdf passphrase header)

/-- `decrypt_payload` on the bytes that its pointers and its length give. -/
def decryptBytes (ciphertext : Bytes) (nonce : lib.sodium.Nonce) (key : lib.sodium.Key) : Except Error Data :=
  match lib.secretboxOpenEasy ciphertext nonce key with
  | none => .error (.runtimeError (text "wrong passphrase or corrupted store"))
  | some plaintext => match json.parse plaintext with
    | .error _ => .error (.runtimeError (text "corrupted store: decrypted payload is not valid JSON"))
    | .ok (.object members) => .ok (Std.ExtTreeMap.ofList members compare)
    | .ok _ => .error (.runtimeError (text "corrupted store: decrypted payload is not a JSON object"))

def decryptAt (buf : Bytes) (ciphertext length nonce : Nat) (key : lib.sodium.Key) : OpenM Data := do
  let _ ← subtract length crypto_secretbox_MACBYTES
  let box ← readAt buf ciphertext length
  let nonce ← readAt buf nonce crypto_secretbox_NONCEBYTES
  Prog.ofExcept (decryptBytes json box.1 nonce key)

def unwrapAt (env : Env lib.sodium) (envelope : Envelope lib.sodium) (passphrase failMsg : Bytes) :
    OpenM lib.sodium.Key := do
  Prog.ofExcept (allocGuarded env .unwrapAlloc)
  let wrapKey ← deriveAt env passphrase envelope.toHeader
  match lib.sodium.secretboxKeyOpenEasy envelope.wrappedKey envelope.wrapNonce wrapKey with
  | none => Prog.throw (.runtimeError failMsg)
  | some dataKey => return dataKey

def persistBytes (env : Env lib.sodium) (data : Data) (dataKey : lib.sodium.Key)
    (envelope : Envelope lib.sodium) : Prog Error (Option Bytes) PUnit :=
  (persist json env data dataKey envelope : DiskM (storeFormat lib) Unit)

def persistFile (env : Env lib.sodium) (data : Data) (dataKey : lib.sodium.Key) (envelope : Envelope lib.sodium) :
    OpenM PUnit :=
  Prog.zoom Opening.disk (fun disk o => { o with disk }) (persistBytes json env data dataKey envelope)

namespace Store

def openVersion1 (env : Env lib.sodium) (path passphrase buf : Bytes) : OpenM (Store lib.sodium) := do
  if buf.length < kHeaderSizeV1 + crypto_secretbox_MACBYTES then
    Prog.throw (.runtimeError (text "corrupted store: truncated header or ciphertext"))
  else
    let (header, offset) ← readCommonHeaderAt buf
    let payloadNonce := offset
    let offset := offset + crypto_secretbox_NONCEBYTES
    let wrapKey ← deriveAt env passphrase header
    let length ← subtract buf.length offset
    let data ← decryptAt json buf offset length payloadNonce wrapKey
    Prog.ofExcept (allocGuarded env .dataKeyAlloc)
    let minted := mintDataKey env wrapKey header
    persistFile json env data minted.1 minted.2
    return { path, data, key := minted.1, env := minted.2 }

def openVersion2 (env : Env lib.sodium) (path passphrase buf : Bytes) : OpenM (Store lib.sodium) := do
  if buf.length < kHeaderSizeV2 + crypto_secretbox_MACBYTES then
    Prog.throw (.runtimeError (text "corrupted store: truncated header or ciphertext: '" ++ path ++ text "'"))
  else
    let (header, offset) ← readCommonHeaderAt buf
    let wrapNonce ← readAt buf offset crypto_secretbox_NONCEBYTES
    let offset := offset + crypto_secretbox_NONCEBYTES
    let wrappedKey ← readAt buf offset (crypto_secretbox_KEYBYTES + crypto_secretbox_MACBYTES)
    let offset := offset + (crypto_secretbox_KEYBYTES + crypto_secretbox_MACBYTES)
    let payloadNonce := offset
    let offset := offset + crypto_secretbox_NONCEBYTES
    let envelope : Envelope lib.sodium := { header with wrapNonce, wrappedKey }
    let dataKey ← unwrapAt env envelope passphrase (text "wrong passphrase or corrupted store")
    let length ← subtract buf.length offset
    let data ← decryptAt json buf offset length payloadNonce dataKey
    return { path, data, key := dataKey, env := envelope }

def openBytes (env : Env lib.sodium) (path passphrase buf : Bytes) : OpenM (Store lib.sodium) := do
  if buf.length < 4 + 1 then Prog.throw (.runtimeError (text "not a secretov store: '" ++ path ++ text "'"))
  else
    let magic ← readAt buf 0 4
    if magic.1 ≠ kMagic then Prog.throw (.runtimeError (text "not a secretov store: '" ++ path ++ text "'"))
    else
      let version ← readAt buf 4 1
      let version := version.1.getD 0 0
      if version = kVersion1 then openVersion1 json env path passphrase buf
      else if version ≠ kVersion2 then
        Prog.throw (.runtimeError (text "unsupported version: " ++ decimal version.toNat))
      else openVersion2 json env path passphrase buf

/-- `Store::open`, access by access. -/
def openFile (env : Env lib.sodium) (path passphrase : Bytes) : OpenM (Store lib.sodium) := do
  Prog.ofExcept (ensureSodium env)
  match env.fault .readFile, (← Prog.get).disk with
  | none, some raw => openBytes json env path passphrase raw
  | _, _ => Prog.throw (.runtimeError (text "open '" ++ path ++ text "': " ++ (env.fault .readFile).getD []))

end Store

/-! Only accesses that are safe, and the same outcome as of the checked reading. -/

def SafeSoFar (size : Nat) (o : Opening) (disk : Option Bytes) : Prop :=
  o.disk = disk ∧ ∀ a ∈ o.accesses, a.Safe size

variable {json} {buf : Bytes} {size offset length : Nat}

theorem access_safe {a : Access} (ha : a.Safe size) {o : Opening} {disk : Option Bytes}
    (h : SafeSoFar size o disk) : SafeSoFar size { o with accesses := o.accesses ++ [a] } disk := by
  refine ⟨h.1, fun b hb => ?_⟩
  rcases List.mem_append.mp hb with hold | hnew
  · exact h.2 b hold
  · exact List.mem_singleton.mp hnew ▸ ha

theorem pad_eq_readFixed (h : offset + length ≤ buf.length) :
    pad length (buf.drop offset) = readFixed buf offset length h := by
  have hlen : length ≤ (buf.drop offset).length := by
    rw [List.length_drop]
    omega
  exact Subtype.ext (List.take_append_of_le_length hlen)

theorem readAt_safe (h : offset + length ≤ buf.length) (o : Opening) (disk : Option Bytes)
    (ho : SafeSoFar buf.length o disk) :
    ∃ o', readAt buf offset length o = (.ok (readFixed buf offset length h), o') ∧
      SafeSoFar buf.length o' disk := by
  have hsafe : (Access.read offset length).Safe buf.length := h
  rw [← pad_eq_readFixed h]
  exact ⟨_, rfl, access_safe hsafe ho⟩

theorem readU64_safe (h : offset + 8 ≤ buf.length) (o : Opening) (disk : Option Bytes)
    (ho : SafeSoFar buf.length o disk) :
    ∃ o', readU64 buf offset o = (.ok (getU64Le (readFixed buf offset 8 h).1), o') ∧
      SafeSoFar buf.length o' disk := by
  have hsafe : (Access.read offset 8).Safe buf.length := h
  rw [← pad_eq_readFixed h]
  exact ⟨_, rfl, access_safe hsafe ho⟩

theorem subtract_safe {whole part : Nat} (h : part ≤ whole) (o : Opening) (disk : Option Bytes)
    (ho : SafeSoFar size o disk) :
    ∃ o', subtract whole part o = (.ok (whole - part), o') ∧ SafeSoFar size o' disk := by
  have hsafe : (Access.subtract whole part).Safe size := h
  exact ⟨_, rfl, access_safe hsafe ho⟩

theorem readCommonHeaderAt_simulates (h : kCommonHeaderSize ≤ buf.length) :
    Prog.Simulates (SafeSoFar buf.length) (readCommonHeaderAt buf : OpenM (Header lib.sodium × Nat))
      (Prog.ofExcept (readCommonHeader buf h) >>= fun header => pure (header, kCommonHeaderSize)) := by
  refine .skip (readAt_safe (Nat.le_trans (by decide) h)) ?_
  refine .skip (readU64_safe (Nat.le_trans (by decide) h)) ?_
  refine .skip (readU64_safe (Nat.le_trans (by decide) h)) ?_
  refine .skip (readU64_safe (Nat.le_trans (by decide) h)) ?_
  unfold readCommonHeader
  dsimp only
  rw [Prog.ofExcept_bind, Prog.bind_assoc]
  exact .bind (.ofExcept _) fun _ => .pure _

theorem deriveAt_simulates (env : Env lib.sodium) (passphrase : Bytes) {header : Header lib.sodium}
    (hparams : checkKdfParams header.opslimit header.memlimit = .ok ()) :
    Prog.Simulates (SafeSoFar size) (deriveAt env passphrase header)
      (Prog.ofExcept (deriveKdfKey env .unwrapKdfAlloc .unwrapKdf passphrase header)) := by
  have hsafe : (Access.derive header.opslimit header.memlimit).Safe size := checkKdfParams_ok_iff.mp hparams
  have haccess (o : Opening) (disk : Option Bytes) (ho : SafeSoFar size o disk) :
      ∃ o', access (.derive header.opslimit header.memlimit) o = (.ok ⟨⟩, o') ∧ SafeSoFar size o' disk :=
    ⟨_, rfl, access_safe hsafe ho⟩
  exact .skip haccess (.ofExcept _)

theorem decryptAt_simulates {nonce : Nat} (hbox : crypto_secretbox_MACBYTES ≤ (buf.drop offset).length)
    (hnonce : nonce + crypto_secretbox_NONCEBYTES ≤ buf.length) (key : lib.sodium.Key) :
    Prog.Simulates (SafeSoFar buf.length) (decryptAt json buf offset (buf.length - offset) nonce key)
      (Prog.ofExcept (@decryptPayload lib.sodium json ⟨buf.drop offset, hbox⟩
        (readFixed buf nonce crypto_secretbox_NONCEBYTES hnonce) key)) := by
  rw [List.length_drop] at hbox
  have hmac : 0 < crypto_secretbox_MACBYTES := by decide
  have hlen : offset + (buf.length - offset) ≤ buf.length := by omega
  have hall : (readFixed buf offset (buf.length - offset) hlen).1 = buf.drop offset := by
    have hdrop : (buf.drop offset).length = buf.length - offset := List.length_drop
    exact List.take_of_length_le (Nat.le_of_eq hdrop)
  refine .skip (subtract_safe hbox) ?_
  refine .skip (readAt_safe hlen) ?_
  refine .skip (readAt_safe hnonce) ?_
  rw [hall]
  exact .ofExcept _

theorem unwrapAt_simulates (env : Env lib.sodium) {envelope : Envelope lib.sodium} (passphrase failMsg : Bytes)
    (hparams : checkKdfParams envelope.opslimit envelope.memlimit = .ok ()) :
    Prog.Simulates (SafeSoFar size) (unwrapAt env envelope passphrase failMsg)
      (Prog.ofExcept (unwrap env envelope passphrase failMsg) >>= fun keys => pure keys.2) := by
  unfold unwrap
  rw [Prog.ofExcept_bind, Prog.bind_assoc]
  refine .bind (.ofExcept _) fun _ => ?_
  rw [Prog.ofExcept_bind, Prog.bind_assoc]
  refine .bind (deriveAt_simulates env passphrase hparams) fun wrapKey => ?_
  cases lib.sodium.secretboxKeyOpenEasy envelope.wrappedKey envelope.wrapNonce wrapKey with
  | none => exact .throw _
  | some dataKey => exact .pure _

theorem persistFile_simulates (env : Env lib.sodium) (data : Data) (dataKey : lib.sodium.Key)
    (envelope : Envelope lib.sodium) :
    Prog.Simulates (SafeSoFar size) (persistFile json env data dataKey envelope)
      (persistBytes json env data dataKey envelope) :=
  .zoom (fun _ _ ho => ho.1) fun _ _ _ ho => ⟨rfl, ho.2⟩

namespace Store

/-- `Store.open` after the file has been decoded. -/
def openDecoded {S : Sodium} {F : Format S} (json : Nlohmann) (env : Env S) (path passphrase : Bytes) :
    StoreFile S → DiskM F (Store S)
  | .version1 header payloadNonce ciphertext => do
    let wrapKey ← Prog.ofExcept (deriveKdfKey env .unwrapKdfAlloc .unwrapKdf passphrase header)
    let data ← Prog.ofExcept (decryptPayload json ciphertext payloadNonce wrapKey)
    Prog.ofExcept (allocGuarded env .dataKeyAlloc)
    let minted := mintDataKey env wrapKey header
    persist json env data minted.1 minted.2
    return { path, data, key := minted.1, env := minted.2 }
  | .version2 envelope payloadNonce ciphertext => do
    let keys ← Prog.ofExcept (unwrap env envelope passphrase (text "wrong passphrase or corrupted store"))
    let data ← Prog.ofExcept (decryptPayload json ciphertext payloadNonce keys.2)
    return { path, data, key := keys.2, env := envelope }

theorem open_decoded {S : Sodium} {F : Format S} {env : Env S} {path passphrase : Bytes} {u : Unit}
    (hsodium : ensureSodium env = .ok u) (hread : env.fault .readFile = none) (raw : F.File) :
    (Store.open json env path passphrase : DiskM F (Store S)) (some raw) =
      match F.decode path raw with
      | .error e => (.error e, some raw)
      | .ok file => openDecoded json env path passphrase file (some raw) := by
  cases hdecode : F.decode path raw with
  | error e => simp only [Store.open, Prog.bind_apply, Prog.ofExcept_apply, Prog.get_apply, hsodium, hread,
      hdecode]
  | ok file =>
    simp only [Store.open, Prog.bind_apply, Prog.ofExcept_apply, Prog.get_apply, hsodium, hread, hdecode]
    cases file <;> rfl

/-- The same of files that are byte strings. -/
def afterDecoding (json : Nlohmann) (env : Env lib.sodium)
    (path passphrase : Bytes) (file : StoreFile lib.sodium) : Prog Error (Option Bytes) (Store lib.sodium) :=
  (openDecoded json env path passphrase file : DiskM (storeFormat lib) (Store lib.sodium))

variable (path : Bytes)

theorem decodeStore_version1_eq (hshort : ¬(buf.length < 4 + 1 ∨ buf.take 4 ≠ kMagic))
    (hversion : buf.getD 4 0 = kVersion1)
    (hlong : kHeaderSizeV1 + crypto_secretbox_MACBYTES ≤ buf.length) :
    (decodeStore path buf : Except Error (StoreFile lib.sodium)) = do
      let header ← readCommonHeader buf (Nat.le_trans (by decide) hlong)
      return (.version1 header
        (readFixed buf kCommonHeaderSize crypto_secretbox_NONCEBYTES (Nat.le_trans (by decide) hlong))
        ⟨buf.drop kHeaderSizeV1, by rw [List.length_drop]; omega⟩) := by
  unfold decodeStore
  rw [if_neg hshort]
  dsimp only
  rw [if_pos hversion, dif_neg (Nat.not_lt.mpr hlong)]

theorem decodeStore_version2_eq (hshort : ¬(buf.length < 4 + 1 ∨ buf.take 4 ≠ kMagic))
    (hversion : buf.getD 4 0 = kVersion2)
    (hlong : kHeaderSizeV2 + crypto_secretbox_MACBYTES ≤ buf.length) :
    (decodeStore path buf : Except Error (StoreFile lib.sodium)) = do
      let header ← readCommonHeader buf (Nat.le_trans (by decide) hlong)
      return (.version2
        { header with
          wrapNonce := readFixed buf kCommonHeaderSize crypto_secretbox_NONCEBYTES
            (Nat.le_trans (by decide) hlong)
          wrappedKey := readFixed buf (kCommonHeaderSize + crypto_secretbox_NONCEBYTES)
            (crypto_secretbox_KEYBYTES + crypto_secretbox_MACBYTES) (Nat.le_trans (by decide) hlong) }
        (readFixed buf (kHeaderSizeV2 - crypto_secretbox_NONCEBYTES) crypto_secretbox_NONCEBYTES
          (Nat.le_trans (by decide) hlong))
        ⟨buf.drop kHeaderSizeV2, by rw [List.length_drop]; omega⟩) := by
  have hother : ¬kVersion2 = kVersion1 := by decide
  unfold decodeStore
  rw [if_neg hshort]
  dsimp only
  rw [hversion, if_neg hother, if_neg (not_not.mpr rfl), dif_neg (Nat.not_lt.mpr hlong)]

variable (env : Env lib.sodium) (passphrase : Bytes)

theorem openVersion1_simulates (hshort : ¬(buf.length < 4 + 1 ∨ buf.take 4 ≠ kMagic))
    (hversion : buf.getD 4 0 = kVersion1) :
    Prog.Simulates (SafeSoFar buf.length) (openVersion1 json env path passphrase buf)
      (Prog.ofExcept (decodeStore path buf) >>= afterDecoding json env path passphrase) := by
  by_cases hlong : buf.length < kHeaderSizeV1 + crypto_secretbox_MACBYTES
  · unfold openVersion1 decodeStore
    rw [if_pos hlong, if_neg hshort]
    dsimp only
    rw [if_pos hversion, dif_pos hlong]
    exact .throw _
  · have hsize := Nat.not_lt.mp hlong
    have hnonce : kCommonHeaderSize + crypto_secretbox_NONCEBYTES ≤ buf.length := Nat.le_trans (by decide) hsize
    have hbox : crypto_secretbox_MACBYTES ≤ (buf.drop kHeaderSizeV1).length := by
      rw [List.length_drop]
      omega
    rw [decodeStore_version1_eq path hshort hversion hsize, Prog.ofExcept_bind,
      Prog.bind_assoc, openVersion1, if_neg hlong]
    have hheader := @readCommonHeaderAt_simulates lib buf (Nat.le_trans (by decide) hsize)
    refine hheader.bind_map fun header hr => ?_
    have hparams := readCommonHeader_ok hr
    refine .bind (deriveAt_simulates env passphrase hparams) fun wrapKey => ?_
    refine .skip (subtract_safe hnonce) ?_
    refine .bind (decryptAt_simulates hbox hnonce wrapKey) fun data => ?_
    refine .bind (.ofExcept _) fun _ => ?_
    exact .bind (persistFile_simulates env data _ _) fun _ => .pure _

theorem openVersion2_simulates (hshort : ¬(buf.length < 4 + 1 ∨ buf.take 4 ≠ kMagic))
    (hversion : buf.getD 4 0 = kVersion2) :
    Prog.Simulates (SafeSoFar buf.length) (openVersion2 json env path passphrase buf)
      (Prog.ofExcept (decodeStore path buf) >>= afterDecoding json env path passphrase) := by
  by_cases hlong : buf.length < kHeaderSizeV2 + crypto_secretbox_MACBYTES
  · have hother : ¬kVersion2 = kVersion1 := by decide
    unfold openVersion2 decodeStore
    rw [if_pos hlong, if_neg hshort]
    dsimp only
    rw [hversion, if_neg hother, if_neg (not_not.mpr rfl), dif_pos hlong]
    exact .throw _
  · have hsize := Nat.not_lt.mp hlong
    have hbox : crypto_secretbox_MACBYTES ≤ (buf.drop kHeaderSizeV2).length := by
      rw [List.length_drop]
      omega
    have hin {offset n : Nat} (h : offset + n ≤ kHeaderSizeV2 + crypto_secretbox_MACBYTES) :
        offset + n ≤ buf.length :=
      Nat.le_trans h hsize
    have hheader := @readCommonHeaderAt_simulates lib buf (Nat.le_trans (by decide) hsize)
    rw [decodeStore_version2_eq path hshort hversion hsize, Prog.ofExcept_bind,
      Prog.bind_assoc, openVersion2, if_neg hlong]
    refine hheader.bind_map fun header hr => ?_
    refine .skip (readAt_safe (hin (by decide))) ?_
    refine .skip (readAt_safe (hin (by decide))) ?_
    refine (unwrapAt_simulates env passphrase _ (readCommonHeader_ok hr)).bind_map fun keys _ => ?_
    refine .skip (subtract_safe (Nat.le_trans (by decide) hsize)) ?_
    exact .bind (decryptAt_simulates hbox (hin (by decide)) keys.2) fun data => .pure _

theorem openBytes_simulates :
    Prog.Simulates (SafeSoFar buf.length) (openBytes json env path passphrase buf)
      (Prog.ofExcept (decodeStore path buf) >>= afterDecoding json env path passphrase) := by
  have hnot (h : buf.length < 4 + 1 ∨ buf.take 4 ≠ kMagic) : decodeStore path buf =
      (.error (.runtimeError (text "not a secretov store: '" ++ path ++ text "'")) :
        Except Error (StoreFile lib.sodium)) :=
    if_pos h
  unfold openBytes
  by_cases hshort : buf.length < 4 + 1
  · rw [if_pos hshort, hnot (Or.inl hshort)]
    exact .throw _
  · rw [if_neg hshort]
    rw [Nat.not_lt] at hshort
    refine .skip (readAt_safe (Nat.le_trans (by decide) hshort)) ?_
    by_cases hmagic : buf.take 4 ≠ kMagic
    · rw [hnot (Or.inr hmagic)]
      split
      · exact .throw _
      · rename_i h
        exact absurd hmagic h
    · have hstore : ¬(buf.length < 4 + 1 ∨ buf.take 4 ≠ kMagic) := not_or.mpr ⟨Nat.not_lt.mpr hshort, hmagic⟩
      have htake : (readFixed buf 0 4 (Nat.le_trans (by decide) hshort)).1 = buf.take 4 := rfl
      rw [htake, if_neg hmagic]
      refine .skip (readAt_safe hshort) ?_
      have hversion : (readFixed buf 4 1 hshort).1.getD 0 0 = buf.getD 4 0 := by
        simp [readFixed, List.getD_eq_getElem?_getD]
      rw [hversion]
      by_cases h1 : buf.getD 4 0 = kVersion1
      · dsimp only
        rw [if_pos h1]
        exact openVersion1_simulates path env passphrase hstore h1
      · dsimp only
        rw [if_neg h1]
        by_cases h2 : buf.getD 4 0 = kVersion2
        · rw [if_neg (not_not.mpr h2)]
          exact openVersion2_simulates path env passphrase hstore h2
        · rw [if_pos h2]
          unfold decodeStore
          rw [if_neg hstore]
          dsimp only
          rw [if_neg h1, if_pos h2]
          exact .throw _

/-- `Store.open` of files that are byte strings. -/
def openStored (json : Nlohmann) (env : Env lib.sodium) (path passphrase : Bytes) :
    Prog Error (Option Bytes) (Store lib.sodium) :=
  (Store.open json env path passphrase : DiskM (storeFormat lib) (Store lib.sodium))

variable {env passphrase}

theorem openStored_decodes {u : Unit} (hsodium : ensureSodium env = .ok u) (hread : env.fault .readFile = none)
    (buf : Bytes) :
    openStored json env path passphrase (some buf) =
      (Prog.ofExcept (decodeStore path buf) >>= afterDecoding json env path passphrase) (some buf) := by
  refine (@open_decoded json _ (storeFormat lib) env path passphrase u hsodium hread buf).trans ?_
  rw [Prog.bind_apply]
  have hdecode : (storeFormat lib).decode path buf = decodeStore path buf := rfl
  rw [hdecode]
  cases (decodeStore path buf : Except Error (StoreFile lib.sodium)) <;> rfl

/-- `Store::open` access by access makes safe accesses only, and comes to what
`Store.open` comes to. -/
theorem openFile_safe (env : Env lib.sodium) (passphrase : Bytes) (disk : Option Bytes)
    (hdisk : ∀ buf ∈ disk, buf.length = size) :
    let traced := openFile json env path passphrase ⟨disk, []⟩
    let opened := openStored json env path passphrase disk
    traced.1 = opened.1 ∧ traced.2.disk = opened.2 ∧ ∀ a ∈ traced.2.accesses, a.Safe size := by
  have hstart : SafeSoFar size ⟨disk, []⟩ disk := ⟨rfl, nofun⟩
  cases hsodium : ensureSodium env with
  | error e =>
    unfold openFile openStored Store.open
    rw [hsodium]
    exact ⟨rfl, rfl, nofun⟩
  | ok u =>
    cases hread : env.fault .readFile with
    | some what =>
      unfold openFile openStored Store.open
      rw [hsodium, hread]
      exact ⟨rfl, rfl, nofun⟩
    | none =>
      cases disk with
      | none =>
        unfold openFile openStored Store.open
        rw [hsodium, hread]
        exact ⟨rfl, rfl, nofun⟩
      | some buf =>
        obtain rfl := hdisk buf rfl
        obtain ⟨hresult, hstate⟩ :=
          @openBytes_simulates lib json buf path env passphrase ⟨some buf, []⟩ (some buf) hstart
        rw [openStored_decodes path hsodium hread]
        have htraced : openFile json env path passphrase ⟨some buf, []⟩ =
            openBytes json env path passphrase buf ⟨some buf, []⟩ := by
          unfold openFile
          rw [hsodium, hread]
          rfl
        rw [htraced]
        exact ⟨hresult, hstate.1, hstate.2⟩

end Store

/-! A version-2 file is what `persist` writes for the fields that it decodes to. -/

theorem byte_shift_getLsbD (b : UInt8) {i j k : Nat} (hi : i < 8) (hj : j < 8) (hk : k < 8) :
    (b.toUInt64 <<< UInt64.ofNat (8 * k)).toBitVec.getLsbD (8 * i + j) =
      (decide (i = k) && b.toBitVec.getLsbD j) := by
  have hmod : 8 * k % 2 ^ 64 % (64 : BitVec 64).toNat = 8 * k := by
    rw [show (64 : BitVec 64).toNat = 64 from rfl]
    omega
  simp only [UInt64.toBitVec_shiftLeft, UInt8.toBitVec_toUInt64, UInt64.toBitVec_ofNat', BitVec.toNat_umod,
    BitVec.toNat_ofNat, hmod, BitVec.shiftLeft_eq', BitVec.getLsbD_shiftLeft, BitVec.getLsbD_setWidth]
  by_cases hik : i = k
  · subst hik
    have hlt : 8 * i + j < 64 := by omega
    have hge : ¬8 * i + j < 8 * i := by omega
    have hsub : 8 * i + j - 8 * i = j := by omega
    have hj64 : j < 64 := by omega
    simp [hlt, hge, hsub, hj64]
  · rcases Nat.lt_or_gt_of_ne hik with hlt | hgt
    · have hout : 8 * i + j < 8 * k := by omega
      simp [hik, hout]
    · have hout : 8 ≤ 8 * i + j - 8 * k := by omega
      have hbit : b.toBitVec.getLsbD (8 * i + j - 8 * k) = false := BitVec.getLsbD_of_ge _ _ hout
      simp [hik, hbit]

theorem getU64Le_getLsbD (p : Bytes) {i j : Nat} (hi : i < 8) (hj : j < 8) :
    (getU64Le p).toBitVec.getLsbD (8 * i + j) = (p.getD i 0).toBitVec.getLsbD j := by
  have hr : List.range 8 = [0, 1, 2, 3, 4, 5, 6, 7] := by decide
  have hb (k : Nat) (hk : k < 8) := byte_shift_getLsbD (p.getD k 0) hi hj hk
  simp only [getU64Le, hr, List.foldl_cons, List.foldl_nil, UInt64.toBitVec_or, BitVec.getLsbD_or]
  rw [hb 0 (by decide), hb 1 (by decide), hb 2 (by decide), hb 3 (by decide), hb 4 (by decide),
    hb 5 (by decide), hb 6 (by decide), hb 7 (by decide)]
  have hcases : i = 0 ∨ i = 1 ∨ i = 2 ∨ i = 3 ∨ i = 4 ∨ i = 5 ∨ i = 6 ∨ i = 7 := by omega
  rcases hcases with rfl | rfl | rfl | rfl | rfl | rfl | rfl | rfl <;> simp

theorem putU64Le_getU64Le (p : Fixed 8) : putU64Le (getU64Le p.1) = p.1 := by
  apply List.ext_getElem
  · rw [length_putU64Le, p.2]
  · intro i hput h'
    have h : i < 8 := by
      rw [length_putU64Le] at hput
      exact hput
    have hbyte : (putU64Le (getU64Le p.1))[i] = (getU64Le p.1 >>> UInt64.ofNat (8 * i)).toUInt8 := by
      simp [putU64Le]
    have hshift : 8 * i % 2 ^ 64 % (64 : BitVec 64).toNat = 8 * i := by
      rw [show (64 : BitVec 64).toNat = 64 from rfl]
      omega
    refine hbyte.trans ?_
    apply UInt8.eq_of_toBitVec_eq
    apply BitVec.eq_of_getLsbD_eq
    intro j hj
    simp only [UInt64.toBitVec_toUInt8, UInt64.toBitVec_shiftRight, UInt64.toBitVec_ofNat', BitVec.toNat_umod,
      BitVec.toNat_ofNat, hshift, BitVec.ushiftRight_eq', BitVec.getLsbD_setWidth, BitVec.getLsbD_ushiftRight]
    rw [getU64Le_getLsbD p.1 h hj, List.getD_eq_getElem?_getD, List.getElem?_eq_getElem h']
    simp [hj]

theorem readFixed_append_drop (h : offset + length ≤ buf.length) :
    (readFixed buf offset length h).1 ++ buf.drop (offset + length) = buf.drop offset := by
  rw [readFixed, ← List.drop_drop, List.take_append_drop]

theorem version2_of_decodeStore {path : Bytes} {envelope : Envelope lib.sodium} {payloadNonce : lib.sodium.Nonce}
    {ciphertext : lib.sodium.Box} (h : decodeStore path buf = .ok (.version2 envelope payloadNonce ciphertext)) :
    ¬(buf.length < 4 + 1 ∨ buf.take 4 ≠ kMagic) ∧ buf.getD 4 0 = kVersion2 ∧
      kHeaderSizeV2 + crypto_secretbox_MACBYTES ≤ buf.length := by
  unfold decodeStore at h
  dsimp only at h
  split_ifs at h with hshort hv1 hlong1 hv2 hlong2
  · obtain ⟨_, -, hfile⟩ := Prog.except_bind_eq_ok.mp h
    cases Except.ok.inj hfile
  · exact ⟨hshort, not_not.mp hv2, Nat.not_lt.mp hlong2⟩

/-- The header that both versions share, with what comes after it. -/
theorem commonHeader_bytes (h : kCommonHeaderSize ≤ buf.length) {header : Header lib.sodium}
    (hread : readCommonHeader buf h = .ok header) (hmagic : buf.take 4 = kMagic) {version : UInt8}
    (hversion : buf.getD 4 0 = version) :
    kMagic ++ ([version] ++ (header.salt.1 ++ (putU64Le header.opslimit ++ (putU64Le header.memlimit ++
      (putU64Le header.keyCreatedAt ++ buf.drop kCommonHeaderSize))))) = buf := by
  obtain ⟨_, -, hread⟩ := Prog.except_bind_eq_ok.mp hread
  obtain rfl := Except.ok.inj hread
  have hshort : 4 < buf.length := Nat.lt_of_lt_of_le (by decide) h
  have hfield (n offset next : Nat) (hnext : offset + n = next) (hle : offset + n ≤ kCommonHeaderSize) :
      (readFixed buf offset n (Nat.le_trans hle h)).1 ++ buf.drop next = buf.drop offset := by
    rw [← hnext, readFixed_append_drop]
  have hput (offset next : Nat) (hnext : offset + 8 = next) (hle : offset + 8 ≤ kCommonHeaderSize) :
      putU64Le (getU64Le (readFixed buf offset 8 (Nat.le_trans hle h)).1) ++ buf.drop next = buf.drop offset := by
    rw [putU64Le_getU64Le, hfield 8 offset next hnext hle]
  have hbyte : [version] ++ buf.drop kSaltOffset = buf.drop 4 := by
    rw [← hversion, List.getD_eq_getElem?_getD, List.getElem?_eq_getElem hshort]
    exact (List.drop_eq_getElem_cons hshort).symm
  -- the fields are put together from the last one back
  rw [hput kCreatedOffset kCommonHeaderSize (by decide) (by decide),
    hput kMemlimitOffset kCreatedOffset (by decide) (by decide),
    hput kOpslimitOffset kMemlimitOffset (by decide) (by decide),
    hfield crypto_pwhash_SALTBYTES kSaltOffset kOpslimitOffset (by decide) (by decide),
    hbyte, ← hmagic, List.take_append_drop]

theorem encodeStore_decodeStore {path : Bytes} {envelope : Envelope lib.sodium} {payloadNonce : lib.sodium.Nonce}
    {ciphertext : lib.sodium.Box} (h : decodeStore path buf = .ok (.version2 envelope payloadNonce ciphertext)) :
    encodeStore envelope payloadNonce ciphertext = buf := by
  obtain ⟨hstore, hversion, hlong⟩ := version2_of_decodeStore h
  rw [Store.decodeStore_version2_eq path hstore hversion hlong] at h
  obtain ⟨header, hheader, hfile⟩ := Prog.except_bind_eq_ok.mp h
  obtain ⟨rfl, rfl, rfl⟩ := StoreFile.version2.inj (Except.ok.inj hfile)
  rw [not_or, not_not] at hstore
  have hfield (n offset next : Nat) (hnext : offset + n = next)
      (hle : offset + n ≤ kHeaderSizeV2 + crypto_secretbox_MACBYTES) :
      (readFixed buf offset n (Nat.le_trans hle hlong)).1 ++ buf.drop next = buf.drop offset := by
    rw [← hnext, readFixed_append_drop]
  simp only [encodeStore, storeFields, List.flatten_cons, List.flatten_nil, List.append_nil]
  rw [hfield crypto_secretbox_NONCEBYTES (kHeaderSizeV2 - crypto_secretbox_NONCEBYTES) kHeaderSizeV2
      (by decide) (by decide),
    hfield (crypto_secretbox_KEYBYTES + crypto_secretbox_MACBYTES)
      (kCommonHeaderSize + crypto_secretbox_NONCEBYTES)
      (kHeaderSizeV2 - crypto_secretbox_NONCEBYTES) (by decide) (by decide),
    hfield crypto_secretbox_NONCEBYTES kCommonHeaderSize (kCommonHeaderSize + crypto_secretbox_NONCEBYTES)
      (by decide) (by decide)]
  exact commonHeader_bytes _ hheader hstore.2 hversion

/-! What the file format promises. -/

structure Sodium.Opens (S : Sodium) : Prop where
  key : ∀ m n k, S.secretboxKeyOpenEasy (S.secretboxKeyEasy m n k) n k = some m
  box : ∀ m n k, S.secretboxOpenEasy (S.secretboxEasy m n k) n k = some m

/-- Opening what `persist` has written for a data key that the passphrase wraps. -/
theorem openStored_persisted (hopens : lib.sodium.Opens) (hj : json.ParseUndoesDump) {env env' : Env lib.sodium}
    {path passphrase : Bytes} {data : Data} {dataKey : lib.sodium.Key} {envelope : Envelope lib.sodium}
    {disk disk' : Option Bytes} (hparams : checkKdfParams envelope.opslimit envelope.memlimit = .ok ())
    (hwrapped : envelope.wrappedKey = lib.sodium.secretboxKeyEasy dataKey envelope.wrapNonce
      (lib.sodium.pwhash passphrase envelope.salt envelope.opslimit envelope.memlimit))
    (hpersist : persistBytes json env data dataKey envelope disk = (.ok ⟨⟩, disk')) (henv : env'.Faultless) :
    Store.openStored json env' path passphrase disk' =
      (.ok { path, data, key := dataKey, env := envelope }, disk') := by
  obtain ⟨plaintext, hdump, rfl⟩ :=
    @persist_ok _ json (storeFormat lib) env data dataKey envelope disk disk' hpersist
  have hpayload : decryptPayload json (lib.sodium.secretboxEasy plaintext env.payloadNonce dataKey)
      env.payloadNonce dataKey = .ok data := by
    simp only [decryptPayload, hopens.box, hj _ _ hdump, ofList_toList]
  let w : World (storeFormat lib) :=
    ⟨{ path, data, key := dataKey, env := envelope },
      some (encodeStore envelope env.payloadNonce (lib.sodium.secretboxEasy plaintext env.payloadNonce dataKey))⟩
  have hunlocks : Unlocks json w passphrase := by
    refine ⟨hparams, ?_, _, env.payloadNonce, _, rfl, decodeStore_encodeStore envelope _ _ path hparams, hpayload⟩
    · change lib.sodium.secretboxKeyOpenEasy envelope.wrappedKey envelope.wrapNonce _ = some dataKey
      rw [hwrapped]
      exact hopens.key ..
  exact hunlocks.open_eq fun call _ => henv call

theorem open_ok_decodes {S : Sodium} {F : Format S} {env : Env S} {path passphrase : Bytes} {raw : F.File}
    {store : Store S} {disk : Option F.File}
    (h : (Store.open json env path passphrase : DiskM F (Store S)) (some raw) = (.ok store, disk)) :
    ∃ file, F.decode path raw = .ok file := by
  obtain ⟨_, -, h⟩ := Prog.bind_ofExcept_eq_ok.mp h
  have h := Prog.bind_get.symm.trans h
  cases hread : env.fault .readFile with
  | some what => simp [hread] at h
  | none =>
    simp only [hread] at h
    obtain ⟨file, hfile, -⟩ := Prog.bind_ofExcept_eq_ok.mp h
    exact ⟨file, hfile⟩

theorem decodeStore_of_version2 {path : Bytes} {file : StoreFile lib.sodium} (hversion : buf.getD 4 0 = kVersion2)
    (h : decodeStore path buf = .ok file) : ∃ envelope nonce box, file = .version2 envelope nonce box := by
  have hother : ¬kVersion2 = kVersion1 := by decide
  unfold decodeStore at h
  dsimp only at h
  rw [hversion, if_neg hother] at h
  split_ifs at h
  · obtain ⟨header, -, hfile⟩ := Prog.except_bind_eq_ok.mp h
    exact ⟨_, _, _, (Except.ok.inj hfile).symm⟩

theorem openStored_version2 {env : Env lib.sodium} {path passphrase : Bytes} {store : Store lib.sodium}
    {disk : Option Bytes} (hversion : buf.getD 4 0 = kVersion2)
    (h : Store.openStored json env path passphrase (some buf) = (.ok store, disk)) :
    ∃ nonce box, decodeStore path buf = .ok (.version2 store.env nonce box) ∧
      decryptPayload json box nonce store.key = .ok store.data ∧ encodeStore store.env nonce box = buf := by
  obtain ⟨file, hfile⟩ := @open_ok_decodes json _ (storeFormat lib) env path passphrase buf store disk h
  obtain ⟨envelope, nonce, box, rfl⟩ := decodeStore_of_version2 hversion hfile
  obtain ⟨-, -, rfl, -, hpayload⟩ :=
    @Store.open_version2_ok _ json (storeFormat lib) env path passphrase buf envelope nonce box store disk hfile h
  exact ⟨nonce, box, hfile, hpayload, encodeStore_decodeStore hfile⟩

theorem store_format_exact (hopens : lib.sodium.Opens) (hj : json.ParseUndoesDump) :
    (∀ (env : Env lib.sodium) (path passphrase buf : Bytes),
      let traced := Store.openFile json env path passphrase ⟨some buf, []⟩
      (traced.1, traced.2.disk) = Store.openStored json env path passphrase (some buf) ∧
        ∀ a ∈ traced.2.accesses, a.Safe buf.length) ∧
    (∀ (env : Env lib.sodium) (path passphrase buf : Bytes) (store : Store lib.sodium) (disk : Option Bytes),
      buf.getD 4 0 = kVersion2 → Store.openStored json env path passphrase (some buf) = (.ok store, disk) →
        ∃ nonce box, decodeStore path buf = .ok (.version2 store.env nonce box) ∧
          decryptPayload json box nonce store.key = .ok store.data ∧ encodeStore store.env nonce box = buf) ∧
    ∀ (env env' : Env lib.sodium) (path passphrase : Bytes) (data : Data) (dataKey : lib.sodium.Key)
      (envelope : Envelope lib.sodium) (disk disk' : Option Bytes),
      checkKdfParams envelope.opslimit envelope.memlimit = .ok () →
      envelope.wrappedKey = lib.sodium.secretboxKeyEasy dataKey envelope.wrapNonce
        (lib.sodium.pwhash passphrase envelope.salt envelope.opslimit envelope.memlimit) →
      persistBytes json env data dataKey envelope disk = (.ok ⟨⟩, disk') → env'.Faultless →
        Store.openStored json env' path passphrase disk' =
          (.ok { path, data, key := dataKey, env := envelope }, disk') := by
  refine ⟨fun env path passphrase buf => ?_, fun env path passphrase buf store disk => openStored_version2, ?_⟩
  · obtain ⟨hresult, hdisk, hsafe⟩ :=
      @Store.openFile_safe lib json buf.length path env passphrase (some buf) (by simp)
    exact ⟨Prod.ext hresult hdisk, hsafe⟩
  · intro env env' path passphrase data dataKey envelope disk disk'
    exact openStored_persisted hopens hj

theorem store_format_exact_sample :
    Store.openStored sampleJson (sampleEnv 5) (text "s") (text "p") sampleStart.disk =
      (.ok sampleStart.store, sampleStart.disk) ∧
    ∃ buf nonce box, sampleStart.disk = some buf ∧ encodeStore sampleStart.store.env nonce box = buf := by
  obtain ⟨-, hversion2, hpersisted⟩ := @store_format_exact taggedBoxes sampleJson
    ⟨taggedBoxes_ideal.openKey_seal, taggedBoxes_ideal.open_seal⟩ (tableJson_parseUndoesDump _)
  have hopen := hpersisted (sampleEnv 1) (sampleEnv 5) (text "s") (text "p") ∅ sampleStart.store.key
    sampleStart.store.env none sampleStart.disk rfl rfl rfl fun _ => rfl
  obtain ⟨nonce, box, -, -, hencode⟩ := hversion2 (sampleEnv 5) (text "s") (text "p") _ _ _ rfl hopen
  exact ⟨hopen, _, nonce, box, rfl, hencode⟩

end Secretov
