import Secretov.StoreFormat

/-! The store is a passphrase-protected map: every run, on the bytes of the file
as they are, answers as the reference map and can be opened again. -/

namespace Secretov

/-- How a run starts: with a store just created, or with a version-2 file that opened. -/
inductive Started {S : Sodium} {F : Format S} (json : Nlohmann) : World F → Vault → Prop
  | created {env : Env S} {path passphrase : Bytes} {now : UInt64} {store : Store S}
      {disk disk' : Option F.File}
      (h : Store.create json env path passphrase now disk = (.ok store, disk')) :
      Started json ⟨store, disk'⟩ ⟨fun _ => none, passphrase⟩
  | opened {env : Env S} {path passphrase : Bytes} {raw : F.File} {envelope : Envelope S}
      {nonce : S.Nonce} {box : S.Box} {store : Store S} {disk' : Option F.File}
      (hv2 : F.decode path raw = .ok (.version2 envelope nonce box))
      (h : Store.open json env path passphrase (some raw) = (.ok store, disk')) :
      Started json ⟨store, disk'⟩ ⟨fun key => store.data[key]?, passphrase⟩

def StoreOp.passphrase : StoreOp → Option Bytes
  | .set _ _ => none
  | .remove _ => none
  | .rotate passphrase _ => some passphrase
  | .changePassphrase oldPass _ _ => some oldPass

section

variable {S : Sodium} {json : Nlohmann} {F : Format S}

theorem checkKdfParams_default : checkKdfParams kDefaultOpslimit kDefaultMemlimit = .ok () := by
  decide

theorem create_tracks (hs : S.Ideal) (hj : json.ParseUndoesDump) (hf : F.DecodeUndoesEncode)
    {env : Env S} {path passphrase : Bytes} {now : UInt64} {store : Store S} {disk disk' : Option F.File}
    (h : Store.create json env path passphrase now disk = (.ok store, disk')) :
    Tracks json (⟨store, disk'⟩ : World F) ⟨fun _ => none, passphrase⟩ := by
  obtain ⟨-, hp, hstore⟩ := Store.create_ok h
  have hparams : checkKdfParams store.env.opslimit store.env.memlimit = .ok () := by
    rw [hstore]
    exact checkKdfParams_default
  refine ⟨⟨hparams, ?_, hp.decrypts hs hj hf hparams⟩, fun key => ?_⟩
  · rw [hstore]
    exact hs.openKey_seal _ _ _
  · rw [hstore]
    exact Std.ExtTreeMap.getElem?_empty.symm

theorem open_tracks {env : Env S} {path passphrase : Bytes} {raw : F.File} {envelope : Envelope S}
    {nonce : S.Nonce} {box : S.Box} {store : Store S} {disk' : Option F.File}
    (hparams : checkKdfParams envelope.opslimit envelope.memlimit = .ok ())
    (hv2 : F.decode path raw = .ok (.version2 envelope nonce box))
    (h : Store.open json env path passphrase (some raw) = (.ok store, disk')) :
    Tracks json (⟨store, disk'⟩ : World F) ⟨fun key => store.data[key]?, passphrase⟩ := by
  obtain ⟨rfl, hpath, henv, hwrapped, hpayload⟩ := Store.open_version2_ok hv2 h
  refine ⟨⟨by rw [henv]; exact hparams, by rw [henv]; exact hwrapped, ?_⟩, fun key => rfl⟩
  exact ⟨raw, nonce, box, rfl, by rw [hpath, henv]; exact hv2, hpayload⟩

theorem StoreOp.params_le {env : Env S} {op : StoreOp} {w w' : World F}
    (h : op.run json env w = (.ok (), w')) :
    w.store.env.opslimit ≤ w'.store.env.opslimit ∧ w.store.env.memlimit ≤ w'.store.env.memlimit := by
  cases op with
  | set key value =>
    rw [(Store.set_ok h).1]
    exact ⟨UInt64.le_refl _, UInt64.le_refl _⟩
  | remove key =>
    rcases StoreOp.remove_ok h with ⟨-, rfl⟩ | ⟨hstore, -⟩
    · exact ⟨UInt64.le_refl _, UInt64.le_refl _⟩
    · rw [hstore]
      exact ⟨UInt64.le_refl _, UInt64.le_refl _⟩
  | rotate passphrase now =>
    rw [(Store.rotate_ok h).2.1]
    exact ⟨UInt64.le_refl _, UInt64.le_refl _⟩
  | changePassphrase oldPass newPass now =>
    rw [(Store.changePassphrase_ok h).2.2.1]
    have hle (a b : UInt64) : a ≤ max a b := by
      rw [uint64_max_eq]
      split_ifs with hab
      · exact hab
      · exact UInt64.le_refl _
    exact ⟨hle _ _, hle _ _⟩

/-- An operation that returns was given a passphrase for the key in force. -/
theorem StoreOp.passphrase_of_ok (hs : S.Ideal) {env : Env S} {op : StoreOp} {w w' : World F}
    {current passphrase : Bytes} (hu : Unlocks json w current) (h : op.run json env w = (.ok (), w'))
    (hp : op.passphrase = some passphrase) :
    S.pwhash passphrase w.store.env.salt w.store.env.opslimit w.store.env.memlimit =
      S.pwhash current w.store.env.salt w.store.env.opslimit w.store.env.memlimit := by
  cases op with
  | set | remove => simp [StoreOp.passphrase] at hp
  | rotate pass now =>
    obtain rfl : pass = passphrase := by simpa [StoreOp.passphrase] using hp
    obtain ⟨⟨dataKey, hopen⟩, -, -⟩ := Store.rotate_ok h
    exact hs.openKey_unique _ _ _ _ _ _ _ _ _ hopen hu.wrapped
  | changePassphrase oldPass newPass now =>
    obtain rfl : oldPass = passphrase := by simpa [StoreOp.passphrase] using hp
    obtain ⟨-, ⟨dataKey, hopen⟩, -, -⟩ := Store.changePassphrase_ok h
    exact hs.openKey_unique _ _ _ _ _ _ _ _ _ hopen hu.wrapped

end

section

variable {lib : Libsodium} {json : Nlohmann}

theorem Started.tracks {w : World (storeFormat lib)} {vault : Vault} (hs : lib.sodium.Ideal)
    (hj : json.ParseUndoesDump) (h : Started json w vault) : Tracks json w vault := by
  cases h with
  | created h => exact create_tracks hs hj (storeFormat_decodeUndoesEncode lib) h
  | opened hv2 h => exact open_tracks (decodeStore_version2 hv2) hv2 h

/-- Whatever operations a run is made of and whichever of them fail: the store
answers as the map that only the returning ones changed, the file opens again
with the passphrase in force as exactly this store, and the next operation
either throws with nothing changed or lowers no parameter. -/
theorem store_refines_vault (hs : lib.sodium.Ideal) (hj : json.ParseUndoesDump)
    {start w : World (storeFormat lib)} {vault₀ vault : Vault} (hstart : Started json start vault₀)
    (ops : List (StoreOp × Env lib.sodium)) (hrun : runStore json ops (start, vault₀) = (w, vault)) :
    Answers w.store vault.map ∧
    (∀ env : Env lib.sodium, env.Faultless →
      Store.open json env w.store.path vault.passphrase w.disk = (.ok w.store, w.disk)) ∧
    checkKdfParams w.store.env.opslimit w.store.env.memlimit = .ok () ∧
    ∀ (op : StoreOp) (env : Env lib.sodium) (w' : World (storeFormat lib)),
      (∀ e, op.run json env w = (.error e, w') → w' = w) ∧
      (op.run json env w = (.ok (), w') →
        w.store.env.opslimit ≤ w'.store.env.opslimit ∧ w.store.env.memlimit ≤ w'.store.env.memlimit ∧
        ∀ passphrase, op.passphrase = some passphrase →
          lib.pwhash passphrase w.store.env.salt w.store.env.opslimit w.store.env.memlimit =
            lib.pwhash vault.passphrase w.store.env.salt w.store.env.opslimit w.store.env.memlimit) := by
  have ht : Tracks json w vault := by
    have hmem := @runStore_mem_visited _ json _ ops (start, vault₀)
    rw [hrun] at hmem
    exact visited_tracks hs hj (storeFormat_decodeUndoesEncode lib) ops (hstart.tracks hs hj) _ hmem
  refine ⟨Store.answers ht.map, fun env henv => ht.unlocks.open_eq fun call _ => henv call, ht.unlocks.params, ?_⟩
  intro op env w'
  refine ⟨fun e h => Tracks.error h, fun h => ?_⟩
  obtain ⟨hops, hmem⟩ := StoreOp.params_le h
  exact ⟨hops, hmem, fun passphrase hp => StoreOp.passphrase_of_ok hs ht.unlocks h hp⟩

end

def pad (n : Nat) (b : Bytes) : Fixed n :=
  ⟨(b ++ List.replicate n 0).take n, by simp⟩

/-- Boxes that end in a half of their key, the half that a passphrase derives. -/
def taggedBoxes : Libsodium where
  pwhash passphrase _ _ _ := ⟨(pad crypto_secretbox_MACBYTES passphrase).1 ++
    List.replicate crypto_secretbox_MACBYTES 0, by simp [(pad _ passphrase).2]; rfl⟩
  secretboxEasy m _ k := m ++ k.1.take crypto_secretbox_MACBYTES
  secretboxOpenEasy c _ k :=
    if c.drop (c.length - crypto_secretbox_MACBYTES) = k.1.take crypto_secretbox_MACBYTES then
      some (c.take (c.length - crypto_secretbox_MACBYTES))
    else none
  length_easy m _ k := by
    rw [List.length_append, List.length_take, k.2]
    rfl
  length_open c _ k m h := by
    split_ifs at h with htag
    have hlen := congrArg List.length htag
    rw [List.length_drop, List.length_take, k.2, show min crypto_secretbox_MACBYTES
      crypto_secretbox_KEYBYTES = crypto_secretbox_MACBYTES from rfl] at hlen
    obtain rfl := Option.some.inj h
    rw [List.length_take]
    omega

theorem taggedBoxes_open_seal (m : Bytes) (n : Fixed crypto_secretbox_NONCEBYTES)
    (k : Fixed crypto_secretbox_KEYBYTES) :
    taggedBoxes.secretboxOpenEasy (taggedBoxes.secretboxEasy m n k) n k = some m := by
  have htag : (k.1.take crypto_secretbox_MACBYTES).length = crypto_secretbox_MACBYTES := by
    rw [List.length_take, k.2]
    rfl
  simp [taggedBoxes, htag]

theorem taggedBoxes_tag {c m : Bytes} {n : Fixed crypto_secretbox_NONCEBYTES}
    {k : Fixed crypto_secretbox_KEYBYTES} (h : taggedBoxes.secretboxOpenEasy c n k = some m) :
    c.drop (c.length - crypto_secretbox_MACBYTES) = k.1.take crypto_secretbox_MACBYTES := by
  by_contra hne
  simp [taggedBoxes, hne] at h

theorem taggedBoxes_ideal : taggedBoxes.sodium.Ideal where
  openKey_seal m n k := taggedBoxes.openKey_eq_some.mpr (taggedBoxes_open_seal m.1 n k)
  open_seal m n k := taggedBoxes_open_seal m n k
  openKey_unique box n pass pass' salt ops mem m m' h h' := by
    have htag := taggedBoxes_tag (taggedBoxes.openKey_eq_some.mp h)
    rw [taggedBoxes_tag (taggedBoxes.openKey_eq_some.mp h')] at htag
    have htake (p : Bytes) : (taggedBoxes.pwhash p salt ops mem).1.take crypto_secretbox_MACBYTES =
        (pad crypto_secretbox_MACBYTES p).1 := List.take_left' (pad _ p).2
    have hpad : (pad crypto_secretbox_MACBYTES pass').1 = (pad crypto_secretbox_MACBYTES pass).1 := by
      rw [← htake, ← htake]
      exact htag
    exact Subtype.ext (congrArg (· ++ List.replicate crypto_secretbox_MACBYTES 0) hpad.symm)

def sampleJson : Nlohmann :=
  tableJson [(text "\x7b\x7d", []), (text "\x7b\"a\":\"b\"\x7d", [(text "a", .inl (text "b"))]),
    (text "\x7b\"a\":\"c\"\x7d", [(text "a", .inl (text "c"))])]

def sampleEnv (seed : UInt8) : Env taggedBoxes.sodium where
  fault _ := none
  salt := pad _ [seed]
  dataKey := pad _ [seed, seed]
  wrapNonce := pad _ [seed]
  payloadNonce := pad _ [seed]

def sampleStart : World (storeFormat taggedBoxes) :=
  let minted := mintDataKey (sampleEnv 1)
    (taggedBoxes.pwhash (text "p") (sampleEnv 1).salt kDefaultOpslimit kDefaultMemlimit)
    { salt := (sampleEnv 1).salt, opslimit := kDefaultOpslimit, memlimit := kDefaultMemlimit, keyCreatedAt := 7 }
  { store := { path := text "s", data := ∅, key := minted.1, env := minted.2 }
    disk := some (encodeStore minted.2 (sampleEnv 1).payloadNonce
      (taggedBoxes.sodium.secretboxEasy (text "\x7b\x7d") (sampleEnv 1).payloadNonce minted.1)) }

def sampleOps : List (StoreOp × Env taggedBoxes.sodium) :=
  [(.changePassphrase (text "p") (text "q") 8, sampleEnv 2),
    (.set (text "a") (text "c"), { sampleEnv 3 with fault := fun _ => some (text "no space") }),
    (.set (text "a") (text "b"), sampleEnv 4)]

def sampleRun : World (storeFormat taggedBoxes) × Vault :=
  runStore sampleJson sampleOps (sampleStart, ⟨fun _ => none, text "p"⟩)

theorem store_refines_vault_sample :
    sampleRun.2.passphrase = text "q" ∧ sampleRun.1.store.get (text "a") = .ok (some (text "b")) ∧
    Answers sampleRun.1.store sampleRun.2.map ∧
    Store.open sampleJson (sampleEnv 5) sampleRun.1.store.path (text "q") sampleRun.1.disk =
      (.ok sampleRun.1.store, sampleRun.1.disk) := by
  have hcreate : Store.create sampleJson (sampleEnv 1) (text "s") (text "p") 7 none =
      (.ok sampleStart.store, sampleStart.disk) := rfl
  have hpass : sampleRun.2.passphrase = text "q" := rfl
  have hget : sampleRun.1.store.get (text "a") = .ok (some (text "b")) := rfl
  have h := store_refines_vault taggedBoxes_ideal (tableJson_parseUndoesDump _)
    (Started.created hcreate) sampleOps rfl
  refine ⟨hpass, hget, h.1, ?_⟩
  rw [← hpass]
  exact h.2.1 (sampleEnv 5) fun _ => rfl

end Secretov
