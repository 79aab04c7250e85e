import Secretov.StoreReads

/-! `Store::open` of a version-1 file (store.cpp): the migration keeps the map and
the header, and the new file opens as the store that it was written from. -/

namespace Secretov

variable {lib : Libsodium} {json : Nlohmann}

/-- The layout of version 1: the derived key seals the payload, and there is no envelope. -/
def encodeVersion1 (header : Header lib.sodium) (payloadNonce : lib.sodium.Nonce) (ciphertext : lib.sodium.Box) :
    Bytes :=
  kMagic ++ ([kVersion1] ++ (header.salt.1 ++ (putU64Le header.opslimit ++ (putU64Le header.memlimit ++
    (putU64Le header.keyCreatedAt ++ (payloadNonce.1 ++ ciphertext.1))))))

def HasVersion1 (buf : Bytes) : Prop := kMagic ++ [kVersion1] <+: buf

/-- The store holds the payload and the header of the version-1 file. -/
def FromVersion1 (json : Nlohmann) (buf passphrase : Bytes) (store : Store lib.sodium) : Prop :=
  ∃ nonce box plaintext members, buf = encodeVersion1 store.env.toHeader nonce box ∧
    lib.sodium.secretboxOpenEasy box nonce
      (lib.sodium.pwhash passphrase store.env.salt store.env.opslimit store.env.memlimit) = some plaintext ∧
    json.parse plaintext = .ok (.object members) ∧ store.data = Std.ExtTreeMap.ofList members compare

/-- The file opens again as the store, without a write, and with no other passphrase. -/
structure OpensAs (json : Nlohmann) (path passphrase raw : Bytes) (store : Store lib.sodium) : Prop where
  same : ∀ env : Env lib.sodium, (∀ call, call ≠ .write → env.fault call = none) →
    Store.openStored json env path passphrase (some raw) = (.ok store, some raw)
  unwritten : ∀ (env : Env lib.sodium) (passphrase' : Bytes),
    (Store.openStored json env path passphrase' (some raw)).2 = some raw
  other : ∀ (env : Env lib.sodium) (passphrase' : Bytes), passphrase' ≠ passphrase →
    ∃ e, Store.openStored json env path passphrase' (some raw) = (.error e, some raw)

/-! The bytes of a version-1 file. -/

section

variable {buf path : Bytes} {header : Header lib.sodium} {nonce : lib.sodium.Nonce} {box : lib.sodium.Box}

theorem HasVersion1.parts (h : HasVersion1 buf) :
    ¬(buf.length < 4 + 1 ∨ buf.take 4 ≠ kMagic) ∧ buf.getD 4 0 = kVersion1 := by
  obtain ⟨rest, rfl⟩ := h
  have hmagic : kMagic.length = 4 := rfl
  refine ⟨?_, rfl⟩
  rw [not_or, not_not, List.append_assoc, List.take_left' hmagic]
  refine ⟨?_, rfl⟩
  simp only [List.length_append, hmagic, List.length_singleton]
  omega

theorem decodeStore_of_version1 {file : StoreFile lib.sodium} (hbuf : HasVersion1 buf)
    (h : decodeStore path buf = .ok file) : ∃ header nonce box, file = .version1 header nonce box ∧
      kHeaderSizeV1 + crypto_secretbox_MACBYTES ≤ buf.length := by
  obtain ⟨hstore, hversion⟩ := hbuf.parts
  unfold decodeStore at h
  dsimp only at h
  rw [if_neg hstore, if_pos hversion] at h
  split_ifs at h with hlong
  obtain ⟨header, -, hfile⟩ := Prog.except_bind_eq_ok.mp h
  exact ⟨_, _, _, (Except.ok.inj hfile).symm, Nat.not_lt.mp hlong⟩

theorem encodeVersion1_decodeStore (hbuf : HasVersion1 buf)
    (hlong : kHeaderSizeV1 + crypto_secretbox_MACBYTES ≤ buf.length)
    (h : decodeStore path buf = .ok (.version1 header nonce box)) :
    encodeVersion1 header nonce box = buf ∧ checkKdfParams header.opslimit header.memlimit = .ok () := by
  obtain ⟨hstore, hversion⟩ := hbuf.parts
  rw [Store.decodeStore_version1_eq path hstore hversion hlong] at h
  obtain ⟨read, hread, hfile⟩ := Prog.except_bind_eq_ok.mp h
  obtain ⟨rfl, rfl, rfl⟩ := StoreFile.version1.inj (Except.ok.inj hfile)
  refine ⟨?_, readCommonHeader_ok hread⟩
  have hnonce : kCommonHeaderSize + crypto_secretbox_NONCEBYTES ≤ buf.length := Nat.le_trans (by decide) hlong
  have hrest : (readFixed buf kCommonHeaderSize crypto_secretbox_NONCEBYTES hnonce).1 ++ buf.drop kHeaderSizeV1 =
      buf.drop kCommonHeaderSize := readFixed_append_drop hnonce
  unfold encodeVersion1
  dsimp only
  rw [hrest]
  exact commonHeader_bytes _ hread (not_not.mp (not_or.mp hstore).2) hversion

end

/-! What `open` does, whatever the layout. -/

namespace Store

section

variable {S : Sodium} {F : Format S} {env : Env S} {path passphrase : Bytes} {disk disk' : Option F.File}

/-- An `open` that throws leaves the file as it is. -/
theorem open_error {e : Error}
    (h : (Store.open json env path passphrase : DiskM F (Store S)) disk = (.error e, disk')) :
    disk' = disk := by
  rcases Prog.bind_ofExcept_eq_error.mp h with ⟨-, hd⟩ | ⟨_, -, h⟩
  · exact hd
  have h := Prog.bind_get.symm.trans h
  cases hread : env.fault .readFile with
  | some what =>
    simp only [hread] at h
    exact (Prod.mk.inj h).2.symm
  | none =>
    cases disk with
    | none =>
      simp only [hread] at h
      exact (Prod.mk.inj h).2.symm
    | some raw =>
      simp only [hread] at h
      rcases Prog.bind_ofExcept_eq_error.mp h with ⟨-, hd⟩ | ⟨file, -, h⟩
      · exact hd
      cases file with
      | version1 header nonce box =>
        rcases Prog.bind_ofExcept_eq_error.mp h with ⟨-, hd⟩ | ⟨wrapKey, -, h⟩
        · exact hd
        rcases Prog.bind_ofExcept_eq_error.mp h with ⟨-, hd⟩ | ⟨data, -, h⟩
        · exact hd
        rcases Prog.bind_ofExcept_eq_error.mp h with ⟨-, hd⟩ | ⟨_, -, h⟩
        · exact hd
        rcases Prog.bind_eq_error.mp h with hp | ⟨_, t, -, h⟩
        · exact persist_error hp
        · simp at h
      | version2 envelope nonce box =>
        rcases Prog.bind_ofExcept_eq_error.mp h with ⟨-, hd⟩ | ⟨keys, -, h⟩
        · exact hd
        rcases Prog.bind_ofExcept_eq_error.mp h with ⟨-, hd⟩ | ⟨data, -, h⟩
        · exact hd
        · simp at h

/-- A version-1 file is written again under a minted key, which the derived one wraps. -/
theorem open_version1_ok {raw : F.File} {header : Header S} {nonce : S.Nonce} {box : S.Box} {store : Store S}
    (hv1 : F.decode path raw = .ok (.version1 header nonce box))
    (h : (Store.open json env path passphrase : DiskM F (Store S)) (some raw) = (.ok store, disk')) :
    store.path = path ∧ store.env.toHeader = header ∧
      store.env.wrappedKey = S.secretboxKeyEasy store.key store.env.wrapNonce
        (S.pwhash passphrase header.salt header.opslimit header.memlimit) ∧
      decryptPayload json box nonce (S.pwhash passphrase header.salt header.opslimit header.memlimit) =
        .ok store.data ∧ Persisted json env store disk' := by
  obtain ⟨_, -, h⟩ := Prog.bind_ofExcept_eq_ok.mp h
  have h := Prog.bind_get.symm.trans h
  cases hread : env.fault .readFile with
  | some what => simp [hread] at h
  | none =>
    simp only [hread] at h
    obtain ⟨file, hfile, h⟩ := Prog.bind_ofExcept_eq_ok.mp h
    obtain rfl : StoreFile.version1 header nonce box = file := Except.ok.inj (hv1.symm.trans hfile)
    obtain ⟨wrapKey, hderive, h⟩ := Prog.bind_ofExcept_eq_ok.mp h
    obtain rfl := deriveKdfKey_ok hderive
    obtain ⟨data, hpayload, h⟩ := Prog.bind_ofExcept_eq_ok.mp h
    obtain ⟨_, -, h⟩ := Prog.bind_ofExcept_eq_ok.mp h
    obtain ⟨_, t, hp, h⟩ := Prog.bind_eq_ok.mp h
    simp only [Prog.pure_apply, Prod.mk.injEq, Except.ok.injEq] at h
    obtain ⟨rfl, rfl⟩ := h
    exact ⟨rfl, rfl, rfl, hpayload, persist_ok hp⟩

theorem open_version2_unwritten {raw : F.File} {envelope : Envelope S} {nonce : S.Nonce} {box : S.Box}
    (hv2 : F.decode path raw = .ok (.version2 envelope nonce box)) :
    ((Store.open json env path passphrase : DiskM F (Store S)) (some raw)).2 = some raw := by
  cases hopen : (Store.open json env path passphrase : DiskM F (Store S)) (some raw) with
  | mk result disk =>
    cases result with
    | error e => exact open_error hopen
    | ok store => exact (open_version2_ok hv2 hopen).1

end

end Store

theorem decryptPayload_payload {S : Sodium} {box : S.Box} {nonce : S.Nonce} {key : S.Key} {data : Data}
    (h : decryptPayload json box nonce key = .ok data) : ∃ plaintext members,
      S.secretboxOpenEasy box nonce key = some plaintext ∧ json.parse plaintext = .ok (.object members) ∧
        data = Std.ExtTreeMap.ofList members compare := by
  unfold decryptPayload at h
  cases hopen : S.secretboxOpenEasy box nonce key with
  | none =>
    rw [hopen] at h
    cases h
  | some plaintext =>
    rw [hopen] at h
    dsimp only at h
    cases hparse : json.parse plaintext with
    | error e =>
      rw [hparse] at h
      cases h
    | ok j =>
      rw [hparse] at h
      cases j with
      | object members => exact ⟨plaintext, members, rfl, hparse, (Except.ok.inj h).symm⟩
      | _ => cases h

/-! The migration. -/

section

variable {path passphrase : Bytes} {store : Store lib.sodium} {disk : Option Bytes} {env : Env lib.sodium}

/-- What a migration has written opens as its store. -/
theorem opensAs_of_persisted (hs : lib.sodium.Ideal) (hj : json.ParseUndoesDump)
    (hpwhash : ∀ passphrase' salt opslimit memlimit, lib.pwhash passphrase' salt opslimit memlimit =
      lib.pwhash passphrase salt opslimit memlimit → passphrase' = passphrase)
    (hparams : checkKdfParams store.env.opslimit store.env.memlimit = .ok ())
    (hwrapped : store.env.wrappedKey = lib.sodium.secretboxKeyEasy store.key store.env.wrapNonce
      (lib.sodium.pwhash passphrase store.env.salt store.env.opslimit store.env.memlimit))
    (hpersisted : @Persisted _ (storeFormat lib) json env store disk) (hpath : store.path = path) :
    ∃ nonce box, disk = some (encodeStore store.env nonce box) ∧
      OpensAs json path passphrase (encodeStore store.env nonce box) store := by
  have hopens : lib.sodium.secretboxKeyOpenEasy store.env.wrappedKey store.env.wrapNonce
      (lib.sodium.pwhash passphrase store.env.salt store.env.opslimit store.env.memlimit) = some store.key := by
    rw [hwrapped]
    exact hs.openKey_seal ..
  obtain ⟨raw, nonce, box, hdisk, hdecode, hpayload⟩ :=
    hpersisted.decrypts hs hj (storeFormat_decodeUndoesEncode lib) hparams
  have hraw : encodeStore store.env nonce box = raw := encodeStore_decodeStore hdecode
  subst hraw hpath
  have hunlocks : Unlocks json (⟨store, disk⟩ : World (storeFormat lib)) passphrase :=
    ⟨hparams, hopens, _, nonce, box, hdisk, hdecode, hpayload⟩
  refine ⟨nonce, box, hdisk, ⟨fun env' henv' => ?_, fun env' passphrase' => ?_, fun env' passphrase' hne => ?_⟩⟩
  · have hopen := hunlocks.open_eq henv'
    dsimp only at hopen
    rw [hdisk] at hopen
    exact hopen
  · exact Store.open_version2_unwritten hdecode
  · rcases hopen : Store.openStored json env' store.path passphrase' (some (encodeStore store.env nonce box)) with
      ⟨e | other, disk'⟩
    · exact ⟨e, by rw [Store.open_error hopen]⟩
    · obtain ⟨-, -, -, hother, -⟩ := Store.open_version2_ok hdecode hopen
      exact absurd (hpwhash _ _ _ _ (hs.openKey_unique _ _ _ _ _ _ _ _ _ hother hopens)) hne

/-- A version-1 file either stays as it is, or becomes a version-2 file of the same map
and header, which opens as the store with this passphrase only. The keys have 32
bytes, so no two passphrases giving the same key is asked of the one in use. -/
theorem open_version1_migrates (hs : lib.sodium.Ideal) (hj : json.ParseUndoesDump)
    (hpwhash : ∀ passphrase' salt opslimit memlimit, lib.pwhash passphrase' salt opslimit memlimit =
      lib.pwhash passphrase salt opslimit memlimit → passphrase' = passphrase)
    {buf : Bytes} (hbuf : HasVersion1 buf) (env : Env lib.sodium) :
    (∃ e, Store.openStored json env path passphrase (some buf) = (.error e, some buf)) ∨
      ∃ store nonce box, Store.openStored json env path passphrase (some buf) =
          (.ok store, some (encodeStore store.env nonce box)) ∧
        FromVersion1 json buf passphrase store ∧
        OpensAs json path passphrase (encodeStore store.env nonce box) store := by
  rcases hopen : Store.openStored json env path passphrase (some buf) with ⟨e | store, disk⟩
  · exact .inl ⟨e, by rw [Store.open_error hopen]⟩
  · obtain ⟨file, hfile⟩ := @open_ok_decodes json _ (storeFormat lib) env path passphrase buf store disk hopen
    obtain ⟨header, nonce, box, rfl, hlong⟩ := decodeStore_of_version1 hbuf hfile
    obtain ⟨hbytes, hparams⟩ := encodeVersion1_decodeStore hbuf hlong hfile
    obtain ⟨hpath, rfl, hwrapped, hpayload, hpersisted⟩ :=
      @Store.open_version1_ok json _ (storeFormat lib)
        env path passphrase disk buf header nonce box store hfile hopen
    obtain ⟨plaintext, members, hplaintext, hparse, hdata⟩ := decryptPayload_payload hpayload
    obtain ⟨nonce', box', rfl, hagain⟩ := opensAs_of_persisted hs hj hpwhash hparams hwrapped hpersisted hpath
    exact .inr ⟨store, nonce', box', rfl,
      ⟨nonce, box, plaintext, members, hbytes.symm, hplaintext, hparse, hdata⟩, hagain⟩

end

/-- A libsodium in which one passphrase has a key of its own. -/
def knownPass : Libsodium :=
  { taggedBoxes with
    pwhash := fun passphrase _ _ _ => if passphrase = text "p" then pad _ [1] else pad _ [] }

theorem knownPass_ideal : knownPass.sodium.Ideal where
  openKey_seal m n k := knownPass.openKey_eq_some.mpr (taggedBoxes_open_seal m.1 n k)
  open_seal m n k := taggedBoxes_open_seal m n k
  openKey_unique box n pass pass' salt ops mem m m' h h' := by
    have htag := (@taggedBoxes_tag box.1 m.1 n _ (knownPass.openKey_eq_some.mp h)).symm.trans
      (@taggedBoxes_tag box.1 m'.1 n _ (knownPass.openKey_eq_some.mp h'))
    have hkeys : (pad crypto_secretbox_KEYBYTES [1]).1.take crypto_secretbox_MACBYTES ≠
        (pad crypto_secretbox_KEYBYTES []).1.take crypto_secretbox_MACBYTES := by decide
    by_cases hpass : pass = text "p"
    · by_cases hpass' : pass' = text "p"
      · rw [hpass, hpass']
      · simp only [Libsodium.sodium, knownPass, if_pos hpass, if_neg hpass'] at htag
        exact absurd htag hkeys
    · by_cases hpass' : pass' = text "p"
      · simp only [Libsodium.sodium, knownPass, if_pos hpass', if_neg hpass] at htag
        exact absurd htag.symm hkeys
      · simp only [Libsodium.sodium, knownPass, if_neg hpass, if_neg hpass']

def knownHeader : Header knownPass.sodium where
  salt := pad _ [1]
  opslimit := kDefaultOpslimit
  memlimit := kDefaultMemlimit
  keyCreatedAt := 7

def knownEnv : Env knownPass.sodium where
  fault _ := none
  salt := pad _ [2]
  dataKey := pad _ [2]
  wrapNonce := pad _ [2]
  payloadNonce := pad _ [2]

/-- A version-1 file of one entry. -/
def knownFile : Bytes :=
  encodeVersion1 knownHeader (pad _ [1])
    (knownPass.sodium.secretboxEasy (text "\x7b\"a\":\"b\"\x7d") (pad _ [1]) (pad _ [1]))

theorem open_version1_migrates_known : ∃ store nonce box,
    Store.openStored sampleJson knownEnv (text "s") (text "p") (some knownFile) =
        (.ok store, some (encodeStore store.env nonce box)) ∧
      FromVersion1 sampleJson knownFile (text "p") store ∧
      OpensAs sampleJson (text "s") (text "p") (encodeStore store.env nonce box) store := by
  have hpwhash (passphrase' : Bytes) (salt : Fixed crypto_pwhash_SALTBYTES) (opslimit memlimit : UInt64)
      (h : knownPass.pwhash passphrase' salt opslimit memlimit = knownPass.pwhash (text "p")
      salt opslimit memlimit) : passphrase' = text "p" := by
    by_contra hne
    simp only [knownPass, if_neg hne, if_true] at h
    exact absurd h (by decide)
  have hok : (Store.openStored sampleJson knownEnv (text "s") (text "p") (some knownFile)).1.isOk = true := rfl
  have hbuf : HasVersion1 knownFile := ⟨knownFile.drop 5, rfl⟩
  rcases @open_version1_migrates knownPass sampleJson (text "s") (text "p") knownPass_ideal
      (tableJson_parseUndoesDump _)
    hpwhash knownFile hbuf knownEnv with ⟨e, herror⟩ | hmigrated
  · rw [herror] at hok
    cases hok
  · exact hmigrated

end Secretov
