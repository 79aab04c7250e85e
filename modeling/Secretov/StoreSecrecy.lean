import Secretov.StoreRefinement

/-! Who can read the store. Keys and boxes are symbols, so a box tells nothing
to those without its key. The attacker holds some passphrases, some data keys
and every version of the file. -/

namespace Secretov

inductive SymKey where
  | data (id : Nat)
  | wrap (passphrase : Bytes) (salt : Nat) (opslimit memlimit : UInt64)
deriving DecidableEq

structure SymBox (α : Type) where
  m : α
  nonce : Nat
  key : SymKey
deriving DecidableEq

def SymBox.open {α : Type} (box : SymBox α) (nonce : Nat) (key : SymKey) : Option α :=
  if box.nonce = nonce ∧ box.key = key then some box.m else none

theorem SymBox.open_eq_some {α : Type} {box : SymBox α} {nonce : Nat} {key : SymKey} {m : α} :
    box.open nonce key = some m ↔ box = ⟨m, nonce, key⟩ := by
  obtain ⟨m', nonce', key'⟩ := box
  simp only [SymBox.open, SymBox.mk.injEq]
  split_ifs with h <;> simp_all

def symbolic : Sodium where
  Salt := Nat
  Nonce := Nat
  Key := SymKey
  KeyBox := SymBox SymKey
  Box := SymBox Bytes
  pwhash := .wrap
  secretboxKeyEasy := SymBox.mk
  secretboxKeyOpenEasy := SymBox.open
  secretboxEasy := SymBox.mk
  secretboxOpenEasy := SymBox.open

def symbolicFormat : Format symbolic where
  File := StoreFile symbolic
  encode := .version2
  decode _ file := .ok file

theorem symbolic_ideal : symbolic.Ideal where
  openKey_seal _ _ _ := SymBox.open_eq_some.mpr rfl
  open_seal _ _ _ := SymBox.open_eq_some.mpr rfl
  openKey_unique box n pass pass' salt ops mem m m' h h' := by
    have hbox := (SymBox.open_eq_some.mp h).symm.trans (SymBox.open_eq_some.mp h')
    exact congrArg SymBox.key hbox

theorem symbolicFormat_decodeUndoesEncode : symbolicFormat.DecodeUndoesEncode :=
  fun _ _ _ _ _ => rfl

structure Attacker where
  passphrases : Set Bytes
  dataKeys : Set symbolic.Key
  files : Set (StoreFile symbolic)

/-- What an attacker can know. A string may serve as a passphrase. -/
inductive Fact where
  | key (key : symbolic.Key)
  | string (s : Bytes)

def Mentions (data : Data) (s : Bytes) : Prop :=
  ∃ key value, data[key]? = some value ∧ (key = s ∨ value = .string s)

def StoreFile.payload {S : Sodium} : StoreFile S → S.Box
  | .version1 _ _ ciphertext => ciphertext
  | .version2 _ _ ciphertext => ciphertext

/-- All that follows from what the attacker holds: the keys of the passphrases it knows, and
what is in the boxes under the keys it knows, of a data key and of a payload alike. -/
inductive Attacker.Derives (json : Nlohmann) (a : Attacker) : Fact → Prop
  | dataKey {key : symbolic.Key} (h : key ∈ a.dataKeys) : a.Derives json (.key key)
  | passphrase {passphrase : Bytes} (h : passphrase ∈ a.passphrases) : a.Derives json (.string passphrase)
  | pwhash {passphrase : Bytes} (h : a.Derives json (.string passphrase)) (salt : symbolic.Salt)
      (opslimit memlimit : UInt64) : a.Derives json (.key (symbolic.pwhash passphrase salt opslimit memlimit))
  | unwrap {envelope : Envelope symbolic} {payloadNonce nonce : symbolic.Nonce} {ciphertext : symbolic.Box}
      {wrapKey dataKey : symbolic.Key} (hfile : .version2 envelope payloadNonce ciphertext ∈ a.files)
      (hkey : a.Derives json (.key wrapKey))
      (hopen : symbolic.secretboxKeyOpenEasy envelope.wrappedKey nonce wrapKey = some dataKey) :
      a.Derives json (.key dataKey)
  | payload {file : StoreFile symbolic} {nonce : symbolic.Nonce} {key : symbolic.Key} {data : Data} {s : Bytes}
      (hfile : file ∈ a.files) (hkey : a.Derives json (.key key))
      (hopen : decryptPayload json file.payload nonce key = .ok data) (hs : Mentions data s) :
      a.Derives json (.string s)

/-- The parts of a file fit together: the payload is under `key`, and `key` under
a passphrase. -/
structure SealedUnder (json : Nlohmann) (passphrase : Bytes) (key : symbolic.Key) (data : Data)
    (envelope : Envelope symbolic) (ciphertext : symbolic.Box) : Prop where
  wrapped : ∃ nonce salt opslimit memlimit, symbolic.secretboxKeyOpenEasy envelope.wrappedKey nonce
    (symbolic.pwhash passphrase salt opslimit memlimit) = some key
  payload : ∃ nonce, decryptPayload json ciphertext nonce key = .ok data

section

variable {json : Nlohmann}

theorem decryptPayload_ok {ciphertext : symbolic.Box} {nonce : symbolic.Nonce} {key : symbolic.Key}
    {data : Data} (h : decryptPayload json ciphertext nonce key = .ok data) :
    ∃ plaintext, ciphertext = SymBox.mk plaintext nonce key := by
  cases ho : symbolic.secretboxOpenEasy ciphertext nonce key with
  | none => simp [decryptPayload, ho] at h
  | some plaintext => exact ⟨plaintext, SymBox.open_eq_some.mp ho⟩

theorem decryptPayload_unique {ciphertext : symbolic.Box} {nonce nonce' : symbolic.Nonce}
    {key key' : symbolic.Key} {data data' : Data} (h : decryptPayload json ciphertext nonce key = .ok data)
    (h' : decryptPayload json ciphertext nonce' key' = .ok data') : key = key' ∧ data = data' := by
  obtain ⟨plaintext, hbox⟩ := decryptPayload_ok h
  obtain ⟨plaintext', hbox'⟩ := decryptPayload_ok h'
  obtain ⟨-, rfl, rfl⟩ := SymBox.mk.inj (hbox.symm.trans hbox')
  exact ⟨rfl, Except.ok.inj (h.symm.trans h')⟩

theorem SealedUnder.unwrap {passphrase : Bytes} {key dataKey wrapKey : symbolic.Key} {data : Data}
    {envelope : Envelope symbolic} {ciphertext : symbolic.Box} {nonce : symbolic.Nonce}
    (hs : SealedUnder json passphrase key data envelope ciphertext)
    (h : symbolic.secretboxKeyOpenEasy envelope.wrappedKey nonce wrapKey = some dataKey) :
    dataKey = key ∧ ∃ salt opslimit memlimit, wrapKey = symbolic.pwhash passphrase salt opslimit memlimit := by
  obtain ⟨nonce', salt, opslimit, memlimit, hw⟩ := hs.wrapped
  have hbox := (SymBox.open_eq_some.mp h).symm.trans (SymBox.open_eq_some.mp hw)
  exact ⟨congrArg SymBox.m hbox, salt, opslimit, memlimit, congrArg SymBox.key hbox⟩

variable {a : Attacker} {protectedKeys : Set symbolic.Key} {oldStrings : Set Bytes}

/-- Files that keep the protected keys from the attacker: these are under
passphrases that it cannot know, and every other key opens old strings only. -/
def KeepsFrom (json : Nlohmann) (a : Attacker) (protectedKeys : Set symbolic.Key) (oldStrings : Set Bytes) :
    Prop :=
  ∀ file ∈ a.files, ∃ envelope nonce ciphertext, file = .version2 envelope nonce ciphertext ∧
    ∃ passphrase id data, SealedUnder json passphrase (SymKey.data id) data envelope ciphertext ∧
      (SymKey.data id ∈ protectedKeys → passphrase ∉ a.passphrases ∧ passphrase ∉ oldStrings) ∧
      (SymKey.data id ∉ protectedKeys → ∀ s, Mentions data s → s ∈ oldStrings)

/-- The facts about unprotected data keys, the attacker's passphrases and old strings, and the
wrapping keys that these give. -/
def Unprotected (a : Attacker) (protectedKeys : Set symbolic.Key) (oldStrings : Set Bytes) : Fact → Prop
  | .key key => ((∃ id, key = SymKey.data id) ∧ key ∉ protectedKeys) ∨
      ∃ passphrase salt opslimit memlimit, key = symbolic.pwhash passphrase salt opslimit memlimit ∧
        (passphrase ∈ a.passphrases ∨ passphrase ∈ oldStrings)
  | .string s => s ∈ a.passphrases ∨ s ∈ oldStrings

theorem Attacker.Derives.unprotected
    (hknown : ∀ key ∈ a.dataKeys, (∃ id, key = SymKey.data id) ∧ key ∉ protectedKeys)
    (hfiles : KeepsFrom json a protectedKeys oldStrings) {fact : Fact} (h : a.Derives json fact) :
    Unprotected a protectedKeys oldStrings fact := by
  induction h with
  | dataKey h => exact Or.inl (hknown _ h)
  | passphrase h => exact Or.inl h
  | pwhash _ salt opslimit memlimit ih => exact Or.inr ⟨_, salt, opslimit, memlimit, rfl, ih⟩
  | unwrap hfile hkey hopen ih =>
    obtain ⟨_, _, _, hsame, passphrase, id, data, hsealed, hpass, -⟩ := hfiles _ hfile
    cases hsame
    obtain ⟨rfl, salt, opslimit, memlimit, rfl⟩ := hsealed.unwrap hopen
    refine Or.inl ⟨⟨id, rfl⟩, fun hp => ?_⟩
    obtain ⟨hheld, hold⟩ := hpass hp
    rcases ih with ⟨⟨id', hdata⟩, -⟩ | ⟨pass', salt', ops', mem', hwrap, hpass'⟩
    · cases hdata
    · obtain ⟨rfl, -⟩ := SymKey.wrap.inj hwrap
      exact hpass'.elim hheld hold
  | payload hfile hkey hopen hs ih =>
    obtain ⟨_, _, _, rfl, passphrase, id, data, hsealed, -, hold⟩ := hfiles _ hfile
    obtain ⟨nonce', hpayload⟩ := hsealed.payload
    obtain ⟨rfl, rfl⟩ := decryptPayload_unique hopen hpayload
    rcases ih with ⟨-, hfree⟩ | ⟨_, _, _, _, hwrap, -⟩
    · exact Or.inr (hold hfree _ hs)
    · cases hwrap

end

def StoreOp.mintsKey : StoreOp → Bool
  | .set _ _ => false
  | .remove _ => false
  | .rotate _ _ => true
  | .changePassphrase _ _ _ => true

def StoreOp.strings : StoreOp → List Bytes
  | .set key value => [key, value]
  | _ => []

section

variable {S : Sodium} {json : Nlohmann} {F : Format S} {env : Env S} {op : StoreOp} {w w' : World F}

theorem StoreOp.key_of_ok (h : op.run json env w = (.ok (), w')) :
    w'.store.key = if op.mintsKey then env.dataKey else w.store.key := by
  cases op with
  | set key value => rw [(Store.set_ok h).1]; rfl
  | remove key =>
    rcases StoreOp.remove_ok h with ⟨-, rfl⟩ | ⟨hstore, -⟩
    · rfl
    · rw [hstore]; rfl
  | rotate passphrase now => rw [(Store.rotate_ok h).2.1]; rfl
  | changePassphrase oldPass newPass now => rw [(Store.changePassphrase_ok h).2.2.1]; rfl

theorem mentions_insert {data : Data} {key value s : Bytes} (h : Mentions (data.insert key (.string value)) s) :
    Mentions data s ∨ s ∈ [key, value] := by
  obtain ⟨k, v, hget, hs⟩ := h
  rw [Std.ExtTreeMap.getElem?_insert] at hget
  split_ifs at hget with hk
  · cases hget
    obtain rfl := Std.LawfulEqCmp.eq_of_compare hk
    rcases hs with rfl | hs
    · simp
    · cases hs; simp
  · exact Or.inl ⟨k, v, hget, hs⟩

theorem mentions_erase {data : Data} {key s : Bytes} (h : Mentions (data.erase key) s) : Mentions data s := by
  obtain ⟨k, v, hget, hs⟩ := h
  rw [Std.ExtTreeMap.getElem?_erase] at hget
  split_ifs at hget
  exact ⟨k, v, hget, hs⟩

theorem StoreOp.mentions_of_ok (h : op.run json env w = (.ok (), w')) {s : Bytes}
    (hs : Mentions w'.store.data s) : Mentions w.store.data s ∨ s ∈ op.strings := by
  cases op with
  | set key value =>
    rw [(Store.set_ok h).1] at hs
    exact mentions_insert hs
  | remove key =>
    rcases StoreOp.remove_ok h with ⟨-, rfl⟩ | ⟨hstore, -⟩
    · exact Or.inl hs
    · rw [hstore] at hs
      exact Or.inl (mentions_erase hs)
  | rotate passphrase now =>
    rw [(Store.rotate_ok h).2.1] at hs
    exact Or.inl hs
  | changePassphrase oldPass newPass now =>
    rw [(Store.changePassphrase_ok h).2.2.1] at hs
    exact Or.inl hs

end

section

variable {json : Nlohmann} {w : World symbolicFormat} {vault : Vault}

theorem Tracks.sealedUnder (ht : Tracks json w vault) {file : StoreFile symbolic} (hdisk : w.disk = some file) :
    ∃ envelope nonce ciphertext, file = .version2 envelope nonce ciphertext ∧
      SealedUnder json vault.passphrase w.store.key w.store.data envelope ciphertext := by
  obtain ⟨raw, nonce, ciphertext, hraw, hdecode, hpayload⟩ := ht.unlocks.file
  obtain rfl : file = raw := Option.some.inj (hdisk.symm.trans hraw)
  exact ⟨w.store.env, nonce, ciphertext, Except.ok.inj hdecode,
    ⟨_, _, _, _, ht.unlocks.wrapped⟩, ⟨nonce, hpayload⟩⟩

theorem visited_key_mem {S : Sodium} {F : Format S} {ops : List (StoreOp × Env S)} {s : World F × Vault}
    {keys : List S.Key} (hs : s.1.store.key ∈ keys) (hops : ∀ o ∈ ops, o.2.dataKey ∈ keys) :
    ∀ t ∈ visited json ops s, t.1.store.key ∈ keys := by
  refine visited_forall (fun t => t.1.store.key ∈ keys) hs ?_
  intro o ho t w ht hok
  show w.store.key ∈ keys
  rw [StoreOp.key_of_ok hok]
  split_ifs
  · exact hops o ho
  · exact ht

theorem visited_mentions {S : Sodium} {F : Format S} {ops : List (StoreOp × Env S)} {s : World F × Vault}
    {strings : Set Bytes} (hs : ∀ str, Mentions s.1.store.data str → str ∈ strings)
    (hops : ∀ o ∈ ops, ∀ str ∈ o.1.strings, str ∈ strings) :
    ∀ t ∈ visited json ops s, ∀ str, Mentions t.1.store.data str → str ∈ strings := by
  refine visited_forall (fun t => ∀ str, Mentions t.1.store.data str → str ∈ strings) hs ?_
  intro o ho t w ht hok str hstr
  rcases StoreOp.mentions_of_ok hok hstr with h | h
  · exact ht str h
  · exact hops o ho str h

/-- The states of a run from `create`: the file fits the vault, the key is one
minted so far and every string was set. -/
theorem before_change (hj : json.ParseUndoesDump) {env₀ : Env symbolic} {path passphrase : Bytes}
    {now : UInt64} {store : Store symbolic} {disk₀ disk : Option symbolicFormat.File}
    (hcreate : Store.create json env₀ path passphrase now disk₀ = (.ok store, disk))
    (before : List (StoreOp × Env symbolic)) :
    (∀ t ∈ visited json before (⟨store, disk⟩, ⟨fun _ => none, passphrase⟩), Tracks json t.1 t.2) ∧
    (∀ t ∈ visited json before ((⟨store, disk⟩ : World symbolicFormat), ⟨fun _ => none, passphrase⟩),
      t.1.store.key ∈ env₀.dataKey :: before.map fun o => o.2.dataKey) ∧
    ∀ t ∈ visited json before ((⟨store, disk⟩ : World symbolicFormat), ⟨fun _ => none, passphrase⟩),
      ∀ s, Mentions t.1.store.data s → ∃ o ∈ before, s ∈ o.1.strings := by
  have hstore := (Store.create_ok hcreate).2.2
  refine ⟨?_, ?_, ?_⟩
  · exact visited_tracks symbolic_ideal hj symbolicFormat_decodeUndoesEncode before
      (create_tracks symbolic_ideal hj symbolicFormat_decodeUndoesEncode hcreate)
  · apply visited_key_mem
    · rw [hstore]
      exact List.mem_cons_self
    · exact fun o ho => List.mem_cons_of_mem _ (List.mem_map_of_mem ho)
  · have hempty : ∀ s, Mentions store.data s → s ∈ {s | ∃ o ∈ before, s ∈ o.1.strings} := by
      rintro s ⟨key, value, hget, -⟩
      rw [hstore, Std.ExtTreeMap.getElem?_empty] at hget
      cases hget
    exact visited_mentions hempty fun o ho s hs => ⟨o, ho, hs⟩

/-- Fresh data keys: distinct symbols. -/
def FreshKeys (keys : List symbolic.Key) : Prop :=
  ∃ ids : List Nat, ids.Nodup ∧ keys = ids.map SymKey.data

theorem FreshKeys.nodup {keys : List symbolic.Key} (h : FreshKeys keys) : keys.Nodup := by
  obtain ⟨ids, hids, rfl⟩ := h
  exact List.Pairwise.map _ (fun _ _ hne heq => hne (SymKey.data.inj heq)) hids

theorem FreshKeys.eq_data {keys : List symbolic.Key} (h : FreshKeys keys) {key : symbolic.Key}
    (hkey : key ∈ keys) : ∃ id, key = SymKey.data id := by
  obtain ⟨ids, -, rfl⟩ := h
  obtain ⟨id, -, rfl⟩ := List.mem_map.mp hkey
  exact ⟨id, rfl⟩

/-- After a change of passphrase or a rotation that returned, an attacker without
the passphrases in force from then on, but with any of the others, every data key
minted before and every version of the file, derives no data key minted from then
on and no string that was not set before. No passphrase in force from then on may
be among the strings set before: these the attacker reads. -/
theorem later_writes_stay_secret (hj : json.ParseUndoesDump) {env₀ : Env symbolic} {path passphrase : Bytes}
    {now : UInt64} {store : Store symbolic} {disk₀ disk : Option symbolicFormat.File}
    (hcreate : Store.create json env₀ path passphrase now disk₀ = (.ok store, disk))
    (before after : List (StoreOp × Env symbolic)) {op : StoreOp} {env : Env symbolic} (hmint : op.mintsKey)
    (hfresh : FreshKeys (env₀.dataKey :: (before ++ (op, env) :: after).map fun o => o.2.dataKey))
    {w w' : World symbolicFormat} {vault : Vault}
    (hbefore : runStore json before (⟨store, disk⟩, ⟨fun _ => none, passphrase⟩) = (w, vault))
    (hok : op.run json env w = (.ok (), w')) (a : Attacker)
    (hpassphrases : ∀ t ∈ visited json after (w', vault.after op), t.2.passphrase ∉ a.passphrases)
    (hunstored : ∀ t ∈ visited json after (w', vault.after op), ∀ o ∈ before, t.2.passphrase ∉ o.1.strings)
    (hkeys : ∀ key ∈ a.dataKeys, key ∈ env₀.dataKey :: before.map fun o => o.2.dataKey)
    (hfiles : ∀ file ∈ a.files, ∃ t ∈ visited json (before ++ (op, env) :: after)
      (⟨store, disk⟩, ⟨fun _ => none, passphrase⟩), t.1.disk = some file) :
    (∀ key ∈ env.dataKey :: after.map fun o => o.2.dataKey, ¬ a.Derives json (.key key)) ∧
    ∀ s ∉ a.passphrases, (∀ o ∈ before, s ∉ o.1.strings) → ¬ a.Derives json (.string s) := by
  obtain ⟨holdTracks, holdKey, holdData⟩ := before_change hj hcreate before
  have hboth : (env₀.dataKey :: before.map fun o => o.2.dataKey) ++
      (env.dataKey :: after.map fun o => o.2.dataKey) =
      env₀.dataKey :: (before ++ (op, env) :: after).map fun o => o.2.dataKey := by
    simp
  rw [← hboth] at hfresh
  have hdisjoint := (List.nodup_append.mp hfresh.nodup).2.2
  have hwMem : (w, vault) ∈ visited json before (⟨store, disk⟩, ⟨fun _ => none, passphrase⟩) := by
    rw [← hbefore]
    exact runStore_mem_visited _ _
  have hstep : stepStore json (op, env) (w, vault) = (w', vault.after op) := by
    simp only [stepStore, hok]
  have hnewTracks : ∀ t ∈ visited json after (w', vault.after op), Tracks json t.1 t.2 :=
    visited_tracks symbolic_ideal hj symbolicFormat_decodeUndoesEncode after
      ((holdTracks _ hwMem).ok symbolic_ideal hj symbolicFormat_decodeUndoesEncode hok)
  have hnewKey : ∀ t ∈ visited json after (w', vault.after op),
      t.1.store.key ∈ env.dataKey :: after.map fun o => o.2.dataKey := by
    apply visited_key_mem
    · rw [StoreOp.key_of_ok hok, if_pos hmint]
      simp
    · exact fun o ho => List.mem_cons_of_mem _ (List.mem_map_of_mem ho)
  have hknown : ∀ key ∈ a.dataKeys, (∃ id, key = SymKey.data id) ∧
      key ∉ {key | key ∈ env.dataKey :: after.map fun o => o.2.dataKey} := by
    intro key hkey
    have hold := hkeys key hkey
    exact ⟨hfresh.eq_data (List.mem_append_left _ hold), fun hnew => hdisjoint key hold key hnew rfl⟩
  have hkeeps : KeepsFrom json a {key | key ∈ env.dataKey :: after.map fun o => o.2.dataKey}
      {s | ∃ o ∈ before, s ∈ o.1.strings} := by
    intro file hfile
    obtain ⟨t, ht, hdisk⟩ := hfiles _ hfile
    have hcases : t ∈ visited json before (⟨store, disk⟩, ⟨fun _ => none, passphrase⟩) ∨
        t ∈ visited json after (w', vault.after op) := by
      rcases mem_visited_append ht with h | h
      · exact Or.inl h
      · rw [hbefore] at h
        rcases List.mem_cons.mp h with rfl | h
        · exact Or.inl hwMem
        · rw [hstep] at h
          exact Or.inr h
    rcases hcases with ht | ht
    · have hkey := holdKey t ht
      obtain ⟨id, hid⟩ := hfresh.eq_data (List.mem_append_left _ hkey)
      obtain ⟨_, _, _, hsame, hsealed⟩ := (holdTracks t ht).sealedUnder hdisk
      rw [hid] at hsealed hkey
      exact ⟨_, _, _, hsame, _, id, _, hsealed, fun hp => absurd rfl (hdisjoint _ hkey _ hp),
        fun _ => holdData t ht⟩
    · have hkey := hnewKey t ht
      obtain ⟨id, hid⟩ := hfresh.eq_data (List.mem_append_right _ hkey)
      obtain ⟨_, _, _, hsame, hsealed⟩ := (hnewTracks t ht).sealedUnder hdisk
      have hnever : t.2.passphrase ∉ {s | ∃ o ∈ before, s ∈ o.1.strings} := by
        rintro ⟨o, ho, hstored⟩
        exact hunstored t ht o ho hstored
      rw [hid] at hsealed hkey
      exact ⟨_, _, _, hsame, _, id, _, hsealed, fun _ => ⟨hpassphrases t ht, hnever⟩, fun hp => absurd hkey hp⟩
  constructor
  · intro key hkey hd
    rcases hd.unprotected hknown hkeeps with ⟨-, hfree⟩ | ⟨_, _, _, _, hwrap, -⟩
    · exact hfree hkey
    · obtain ⟨id, hid⟩ := hfresh.eq_data (List.mem_append_right _ hkey)
      cases hid.symm.trans hwrap
  · intro s hheld hs hd
    rcases hd.unprotected hknown hkeeps with hpass | ⟨o, ho, hmem⟩
    · exact hheld hpass
    · exact hs o ho hmem

end

def symbolicEnv (id : Nat) : Env symbolic where
  fault _ := none
  salt := id
  dataKey := SymKey.data id
  wrapNonce := id
  payloadNonce := id

def symbolicStart : World symbolicFormat :=
  let minted := mintDataKey (symbolicEnv 1)
    (symbolic.pwhash (text "p") (symbolicEnv 1).salt kDefaultOpslimit kDefaultMemlimit)
    { salt := (symbolicEnv 1).salt, opslimit := kDefaultOpslimit, memlimit := kDefaultMemlimit,
      keyCreatedAt := 7 }
  { store := { path := text "s", data := ∅, key := minted.1, env := minted.2 }
    disk := some (.version2 minted.2 (symbolicEnv 1).payloadNonce
      (symbolic.secretboxEasy (text "\x7b\x7d") (symbolicEnv 1).payloadNonce minted.1)) }

def symbolicOps : List (StoreOp × Env symbolic) :=
  [(.set (text "a") (text "c"), symbolicEnv 2), (.changePassphrase (text "p") (text "q") 8, symbolicEnv 3),
    (.set (text "a") (text "b"), symbolicEnv 4)]

def symbolicAttacker : Attacker where
  passphrases := {text "p"}
  dataKeys := {SymKey.data 1, SymKey.data 2}
  files := {file | ∃ t ∈ visited sampleJson symbolicOps (symbolicStart, ⟨fun _ => none, text "p"⟩),
    t.1.disk = some file}

def symbolicChanged : World symbolicFormat × Vault :=
  runStore sampleJson (symbolicOps.take 2) (symbolicStart, ⟨fun _ => none, text "p"⟩)

theorem symbolicChange_ok : (StoreOp.changePassphrase (text "p") (text "q") 8).run sampleJson (symbolicEnv 3)
    (runStore sampleJson (symbolicOps.take 1) (symbolicStart, ⟨fun _ => none, text "p"⟩)).1 =
    (.ok (), symbolicChanged.1) := rfl

theorem later_writes_stay_secret_sample : ¬ symbolicAttacker.Derives sampleJson (.key (SymKey.data 3)) ∧
    ¬ symbolicAttacker.Derives sampleJson (.string (text "b")) := by
  have hcreate : Store.create sampleJson (symbolicEnv 1) (text "s") (text "p") 7 none =
      (.ok symbolicStart.store, symbolicStart.disk) := rfl
  have hinForce : ∀ t ∈ visited sampleJson [(.set (text "a") (text "b"), symbolicEnv 4)] symbolicChanged,
      t.2.passphrase = text "q" := by
    have hq : (visited sampleJson [(.set (text "a") (text "b"), symbolicEnv 4)] symbolicChanged).map
        (fun t => t.2.passphrase) = [text "q", text "q"] := rfl
    intro t ht
    have hmem : t.2.passphrase ∈ [text "q", text "q"] := by
      rw [← hq]
      exact List.mem_map_of_mem ht
    rcases List.mem_pair.mp hmem with h | h <;> exact h
  have hkeys : ∀ key ∈ symbolicAttacker.dataKeys, key ∈ [SymKey.data 1, SymKey.data 2] := by
    rintro key (rfl | rfl)
    · exact List.mem_cons_self
    · exact List.mem_cons_of_mem _ List.mem_cons_self
  obtain ⟨hminted, hstrings⟩ := later_writes_stay_secret (tableJson_parseUndoesDump _) hcreate
    [(.set (text "a") (text "c"), symbolicEnv 2)] [(.set (text "a") (text "b"), symbolicEnv 4)]
    rfl ⟨[1, 2, 3, 4], by decide, rfl⟩ rfl symbolicChange_ok symbolicAttacker
    (fun t ht => by rw [hinForce t ht]; exact show ¬ text "q" = text "p" by decide)
    (fun t ht => by rw [hinForce t ht]; decide) hkeys fun file h => h
  exact ⟨hminted _ List.mem_cons_self, hstrings _ (show ¬ text "b" = text "p" by decide) (by decide)⟩

/-- That what is written after a change of passphrase or a rotation stays secret, whatever has
been stored before. -/
def LaterWritesStaySecret : Prop :=
  ∀ (json : Nlohmann) (env₀ : Env symbolic) (path passphrase : Bytes) (now : UInt64) (store : Store symbolic)
    (disk₀ disk : Option symbolicFormat.File) (before after : List (StoreOp × Env symbolic)) (op : StoreOp)
    (env : Env symbolic) (w w' : World symbolicFormat) (vault : Vault) (a : Attacker),
    json.ParseUndoesDump → Store.create json env₀ path passphrase now disk₀ = (.ok store, disk) → op.mintsKey →
      FreshKeys (env₀.dataKey :: (before ++ (op, env) :: after).map fun o => o.2.dataKey) →
        runStore json before (⟨store, disk⟩, ⟨fun _ => none, passphrase⟩) = (w, vault) →
          op.run json env w = (.ok (), w') →
            (∀ t ∈ visited json after (w', vault.after op), t.2.passphrase ∉ a.passphrases) →
              (∀ key ∈ a.dataKeys, key ∈ env₀.dataKey :: before.map fun o => o.2.dataKey) →
                (∀ file ∈ a.files, ∃ t ∈ visited json (before ++ (op, env) :: after)
                  (⟨store, disk⟩, ⟨fun _ => none, passphrase⟩), t.1.disk = some file) →
                  (∀ key ∈ env.dataKey :: after.map fun o => o.2.dataKey, ¬ a.Derives json (.key key)) ∧
                    ∀ s ∉ a.passphrases, (∀ o ∈ before, s ∉ o.1.strings) → ¬ a.Derives json (.string s)

def storingJson : Nlohmann :=
  tableJson [(text "\x7b\x7d", []), (text "\x7b\"a\":\"p\"\x7d", [(text "a", .inl (text "p"))])]

def storingOps : List (StoreOp × Env symbolic) :=
  [(.set (text "a") (text "p"), symbolicEnv 2), (.rotate (text "p") 8, symbolicEnv 3)]

def storingSet : World symbolicFormat × Vault :=
  runStore storingJson (storingOps.take 1) (symbolicStart, ⟨fun _ => none, text "p"⟩)

def storingRotated : World symbolicFormat × Vault :=
  runStore storingJson storingOps (symbolicStart, ⟨fun _ => none, text "p"⟩)

/-- It knows no passphrase. -/
def storingAttacker : Attacker where
  passphrases := ∅
  dataKeys := {SymKey.data 1}
  files := {file | ∃ t ∈ visited storingJson storingOps (symbolicStart, ⟨fun _ => none, text "p"⟩),
    t.1.disk = some file}

/-- The passphrase is stored before the rotation, and read with the old data key. It opens
the new one. -/
theorem storingAttacker_derives : storingAttacker.Derives storingJson (.key (SymKey.data 3)) := by
  have hset : storingSet ∈ visited storingJson storingOps (symbolicStart, ⟨fun _ => none, text "p"⟩) :=
    List.mem_cons_of_mem _ List.mem_cons_self
  have hrotated : storingRotated ∈ visited storingJson storingOps (symbolicStart, ⟨fun _ => none, text "p"⟩) :=
    runStore_mem_visited _ _
  have hread : storingAttacker.Derives storingJson (.string (text "p")) :=
    @Attacker.Derives.payload storingJson _ _ (symbolicEnv 2).payloadNonce _
      (Std.ExtTreeMap.ofList [(text "a", .string (text "p"))] compare) _ ⟨storingSet, hset, rfl⟩ (.dataKey rfl)
      rfl ⟨text "a", .string (text "p"), rfl, Or.inr rfl⟩
  exact @Attacker.Derives.unwrap storingJson _ _ _ (symbolicEnv 3).wrapNonce _ _ _ ⟨storingRotated, hrotated, rfl⟩
    (.pwhash hread (symbolicEnv 1).salt kDefaultOpslimit kDefaultMemlimit) rfl

theorem not_laterWritesStaySecret : ¬LaterWritesStaySecret := by
  intro hclaim
  have hcreate : Store.create storingJson (symbolicEnv 1) (text "s") (text "p") 7 none =
      (.ok symbolicStart.store, symbolicStart.disk) := rfl
  have hkeys : ∀ key ∈ storingAttacker.dataKeys, key ∈ [SymKey.data 1, SymKey.data 2] := by
    rintro key rfl
    exact List.mem_cons_self
  have hrotate : (StoreOp.rotate (text "p") 8).run storingJson (symbolicEnv 3) storingSet.1 =
      (.ok (), storingRotated.1) := rfl
  have hsecret := hclaim storingJson (symbolicEnv 1) (text "s") (text "p") 7 _ none _
    [(.set (text "a") (text "p"), symbolicEnv 2)] [] (.rotate (text "p") 8) (symbolicEnv 3) storingSet.1
    storingRotated.1 storingSet.2 storingAttacker (tableJson_parseUndoesDump _) hcreate rfl
    ⟨[1, 2, 3], by decide, rfl⟩ rfl hrotate (fun _ _ hknown => hknown) hkeys fun file h => h
  exact hsecret.1 (SymKey.data 3) List.mem_cons_self storingAttacker_derives

end Secretov
