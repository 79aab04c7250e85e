import Secretov.Store

/-! What each operation of the store can do, on success and on a throw. Every
result about the store is derived from these, without its code. -/

namespace Secretov

variable {S : Sodium} {json : Nlohmann} {F : Format S}

/-- The file holds the store, sealed with the payload nonce of this operation. -/
def Persisted (json : Nlohmann) (env : Env S) (store : Store S) (disk : Option F.File) : Prop :=
  ∃ plaintext, json.dump (.object store.data.toList) = .ok plaintext ∧
    disk = some (F.encode store.env env.payloadNonce
      (S.secretboxEasy plaintext env.payloadNonce store.key))

theorem writeFileAtomic_ok {env : Env S} {contents : F.File} {disk disk' : Option F.File}
    (h : writeFileAtomic env contents disk = (.ok (), disk')) : disk' = some contents := by
  cases hf : env.fault .write with
  | some what => simp [writeFileAtomic, hf] at h
  | none => simpa [writeFileAtomic, hf, eq_comm] using h

theorem writeFileAtomic_error {env : Env S} {contents : F.File} {disk disk' : Option F.File} {e : Error}
    (h : writeFileAtomic env contents disk = (.error e, disk')) : disk' = disk := by
  cases hf : env.fault .write with
  | some what => simpa [writeFileAtomic, hf, eq_comm] using congrArg Prod.snd h
  | none => simp [writeFileAtomic, hf] at h

theorem persist_ok {env : Env S} {data : Data} {key : S.Key} {envelope : Envelope S}
    {disk disk' : Option F.File} (h : persist json env data key envelope disk = (.ok (), disk')) :
    ∃ plaintext, json.dump (.object data.toList) = .ok plaintext ∧
      disk' = some (F.encode envelope env.payloadNonce (S.secretboxEasy plaintext env.payloadNonce key)) := by
  obtain ⟨plaintext, hdump, hwrite⟩ := Prog.bind_ofExcept_eq_ok.mp h
  exact ⟨plaintext, hdump, writeFileAtomic_ok hwrite⟩

theorem persist_error {env : Env S} {data : Data} {key : S.Key} {envelope : Envelope S}
    {disk disk' : Option F.File} {e : Error}
    (h : persist json env data key envelope disk = (.error e, disk')) : disk' = disk := by
  rcases Prog.bind_ofExcept_eq_error.mp h with ⟨-, hd⟩ | ⟨_, -, hwrite⟩
  · exact hd
  · exact writeFileAtomic_error hwrite

theorem onDisk_ok {α : Type} {m : DiskM F α} {w w' : World F} {a : α}
    (h : onDisk m w = (.ok a, w')) : ∃ disk, m w.disk = (.ok a, disk) ∧ w' = { w with disk } := by
  simp only [onDisk, Prog.zoom, Prod.mk.injEq] at h
  exact ⟨(m w.disk).2, Prod.ext h.1 rfl, h.2.symm⟩

theorem onDisk_error {α : Type} {m : DiskM F α} {w w' : World F} {e : Error}
    (h : onDisk m w = (.error e, w')) : ∃ disk, m w.disk = (.error e, disk) ∧ w' = { w with disk } := by
  simp only [onDisk, Prog.zoom, Prod.mk.injEq] at h
  exact ⟨(m w.disk).2, Prod.ext h.1 rfl, h.2.symm⟩

theorem onDisk_persist_error {env : Env S} {data : Data} {key : S.Key} {envelope : Envelope S}
    {w w' : World F} {e : Error}
    (h : onDisk (persist json env data key envelope) w = (.error e, w')) : w' = w := by
  obtain ⟨disk, hp, rfl⟩ := onDisk_error h
  rw [persist_error hp]

theorem deriveKdfKey_ok {env : Env S} {alloc kdf : Fault} {passphrase : Bytes} {header : Header S}
    {key : S.Key} (h : deriveKdfKey env alloc kdf passphrase header = .ok key) :
    key = S.pwhash passphrase header.salt header.opslimit header.memlimit := by
  obtain ⟨_, -, h⟩ := Prog.except_bind_eq_ok.mp h
  cases hf : env.fault kdf with
  | some what => simp [hf] at h
  | none => simpa [hf, eq_comm] using h

theorem unwrap_ok {env : Env S} {envelope : Envelope S} {passphrase failMsg : Bytes} {keys : S.Key × S.Key}
    (h : unwrap env envelope passphrase failMsg = .ok keys) :
    keys.1 = S.pwhash passphrase envelope.salt envelope.opslimit envelope.memlimit ∧
      S.secretboxKeyOpenEasy envelope.wrappedKey envelope.wrapNonce keys.1 = some keys.2 := by
  obtain ⟨_, -, h⟩ := Prog.except_bind_eq_ok.mp h
  obtain ⟨wrapKey, hkdf, h⟩ := Prog.except_bind_eq_ok.mp h
  have hw := deriveKdfKey_ok hkdf
  cases ho : S.secretboxKeyOpenEasy envelope.wrappedKey envelope.wrapNonce wrapKey with
  | none => simp [ho] at h
  | some dataKey =>
    simp only [ho, Except.ok.injEq] at h
    subst h
    exact ⟨hw, ho⟩

theorem mintFreshEnvelope_ok {env : Env S} {passphrase : Bytes} {opslimit memlimit now : UInt64}
    {minted : S.Key × Envelope S}
    (h : mintFreshEnvelope env passphrase opslimit memlimit now = .ok minted) :
    minted = mintDataKey env (S.pwhash passphrase env.salt opslimit memlimit)
      { salt := env.salt, opslimit, memlimit, keyCreatedAt := now } := by
  obtain ⟨wrapKey, hkdf, h⟩ := Prog.except_bind_eq_ok.mp h
  obtain ⟨_, -, h⟩ := Prog.except_bind_eq_ok.mp h
  rw [deriveKdfKey_ok hkdf] at h
  simpa [pure, Except.pure, eq_comm] using h

namespace Store

theorem commitNewKey_ok {env : Env S} {key : S.Key} {next : Envelope S} {w w' : World F}
    (h : commitNewKey json env key next w = (.ok (), w')) :
    w'.store = { w.store with key, env := next } ∧ Persisted json env w'.store w'.disk := by
  obtain ⟨_, t, hp, h⟩ := Prog.bind_eq_ok.mp (Prog.bind_get.symm.trans h)
  obtain ⟨disk, hd, rfl⟩ := onDisk_ok hp
  obtain ⟨plaintext, hdump, hdisk⟩ := persist_ok hd
  rw [Prog.bind_modify, Prog.modify_apply] at h
  simp only [Prod.mk.injEq, true_and] at h
  subst h
  exact ⟨rfl, plaintext, hdump, hdisk⟩

theorem commitNewKey_error {env : Env S} {key : S.Key} {next : Envelope S} {w w' : World F} {e : Error}
    (h : commitNewKey json env key next w = (.error e, w')) : w' = w := by
  rcases Prog.bind_eq_error.mp (Prog.bind_get.symm.trans h) with hp | ⟨_, t, -, h⟩
  · exact onDisk_persist_error hp
  · rw [Prog.bind_modify, Prog.modify_apply] at h
    simp at h

theorem set_ok {env : Env S} {key value : Bytes} {w w' : World F}
    (h : set json env key value w = (.ok (), w')) :
    w'.store = { w.store with data := w.store.data.insert key (.string value) } ∧
      Persisted json env w'.store w'.disk := by
  obtain ⟨_, t, hp, h⟩ := Prog.bind_eq_ok.mp (Prog.bind_get.symm.trans h)
  obtain ⟨disk, hd, rfl⟩ := onDisk_ok hp
  obtain ⟨plaintext, hdump, hdisk⟩ := persist_ok hd
  simp only [Prog.modify_apply, Prod.mk.injEq, true_and] at h
  subst h
  exact ⟨rfl, plaintext, hdump, hdisk⟩

theorem set_error {env : Env S} {key value : Bytes} {w w' : World F} {e : Error}
    (h : set json env key value w = (.error e, w')) : w' = w := by
  rcases Prog.bind_eq_error.mp (Prog.bind_get.symm.trans h) with hp | ⟨_, t, -, h⟩
  · exact onDisk_persist_error hp
  · simp at h

theorem remove_ok {env : Env S} {key : Bytes} {w w' : World F} {removed : Bool}
    (h : remove json env key w = (.ok removed, w')) :
    (removed = false ∧ key ∉ w.store.data ∧ w' = w) ∨
    (removed = true ∧ key ∈ w.store.data ∧ w'.store = { w.store with data := w.store.data.erase key } ∧
      Persisted json env w'.store w'.disk) := by
  have h := Prog.bind_get.symm.trans h
  by_cases hk : key ∉ w.store.data
  · rw [if_pos hk] at h
    simp only [Prog.pure_apply, Prod.mk.injEq, Except.ok.injEq] at h
    exact Or.inl ⟨h.1.symm, hk, h.2.symm⟩
  · rw [if_neg hk] at h
    obtain ⟨_, t, hp, h⟩ := Prog.bind_eq_ok.mp h
    obtain ⟨disk, hd, rfl⟩ := onDisk_ok hp
    obtain ⟨plaintext, hdump, hdisk⟩ := persist_ok hd
    rw [Prog.bind_modify, Prog.pure_apply] at h
    simp only [Prod.mk.injEq, Except.ok.injEq] at h
    obtain ⟨rfl, rfl⟩ := h
    exact Or.inr ⟨rfl, not_not.mp hk, rfl, plaintext, hdump, hdisk⟩

theorem remove_error {env : Env S} {key : Bytes} {w w' : World F} {e : Error}
    (h : remove json env key w = (.error e, w')) : w' = w := by
  have h := Prog.bind_get.symm.trans h
  by_cases hk : key ∉ w.store.data
  · rw [if_pos hk] at h
    simp at h
  · rw [if_neg hk] at h
    rcases Prog.bind_eq_error.mp h with hp | ⟨_, t, -, h⟩
    · exact onDisk_persist_error hp
    · rw [Prog.bind_modify, Prog.pure_apply] at h
      simp at h

/-- A rotation keeps the wrapping key, which opens the old envelope and seals the
new data key. -/
theorem rotate_ok {env : Env S} {passphrase : Bytes} {now : UInt64} {w w' : World F}
    (h : rotate json env passphrase now w = (.ok (), w')) :
    (∃ dataKey, S.secretboxKeyOpenEasy w.store.env.wrappedKey w.store.env.wrapNonce
      (S.pwhash passphrase w.store.env.salt w.store.env.opslimit w.store.env.memlimit) = some dataKey) ∧
    w'.store = { w.store with
      key := env.dataKey
      env := { w.store.env with
        keyCreatedAt := now
        wrapNonce := env.wrapNonce
        wrappedKey := S.secretboxKeyEasy env.dataKey env.wrapNonce
          (S.pwhash passphrase w.store.env.salt w.store.env.opslimit w.store.env.memlimit) } } ∧
    Persisted json env w'.store w'.disk := by
  obtain ⟨keys, hu, h⟩ := Prog.bind_ofExcept_eq_ok.mp (Prog.bind_get.symm.trans h)
  obtain ⟨_, -, h⟩ := Prog.bind_ofExcept_eq_ok.mp h
  obtain ⟨hw, ho⟩ := unwrap_ok hu
  obtain ⟨hs, hp⟩ := commitNewKey_ok h
  refine ⟨⟨keys.2, hw ▸ ho⟩, ?_, hp⟩
  rw [hs, ← hw]
  rfl

theorem rotate_error {env : Env S} {passphrase : Bytes} {now : UInt64} {w w' : World F} {e : Error}
    (h : rotate json env passphrase now w = (.error e, w')) : w' = w := by
  rcases Prog.bind_ofExcept_eq_error.mp (Prog.bind_get.symm.trans h) with ⟨-, hw⟩ | ⟨_, -, h⟩
  · exact hw
  rcases Prog.bind_ofExcept_eq_error.mp h with ⟨-, hw⟩ | ⟨_, -, h⟩
  · exact hw
  · exact commitNewKey_error h

theorem changePassphrase_ok {env : Env S} {oldPass newPass : Bytes} {now : UInt64} {w w' : World F}
    (h : changePassphrase json env oldPass newPass now w = (.ok (), w')) :
    newPass ≠ [] ∧
    (∃ dataKey, S.secretboxKeyOpenEasy w.store.env.wrappedKey w.store.env.wrapNonce
      (S.pwhash oldPass w.store.env.salt w.store.env.opslimit w.store.env.memlimit) = some dataKey) ∧
    w'.store = { w.store with
      key := env.dataKey
      env := {
        salt := env.salt
        opslimit := max w.store.env.opslimit kDefaultOpslimit
        memlimit := max w.store.env.memlimit kDefaultMemlimit
        keyCreatedAt := now
        wrapNonce := env.wrapNonce
        wrappedKey := S.secretboxKeyEasy env.dataKey env.wrapNonce
          (S.pwhash newPass env.salt (max w.store.env.opslimit kDefaultOpslimit)
            (max w.store.env.memlimit kDefaultMemlimit)) } } ∧
    Persisted json env w'.store w'.disk := by
  unfold changePassphrase at h
  split_ifs at h with hempty
  · simp at h
  obtain ⟨keys, hu, h⟩ := Prog.bind_ofExcept_eq_ok.mp (Prog.bind_get.symm.trans h)
  obtain ⟨minted, hm, h⟩ := Prog.bind_ofExcept_eq_ok.mp h
  obtain ⟨hw, ho⟩ := unwrap_ok hu
  obtain ⟨hs, hp⟩ := commitNewKey_ok h
  refine ⟨hempty, ⟨keys.2, hw ▸ ho⟩, ?_, hp⟩
  rw [hs, mintFreshEnvelope_ok hm]
  rfl

theorem changePassphrase_error {env : Env S} {oldPass newPass : Bytes} {now : UInt64} {w w' : World F}
    {e : Error} (h : changePassphrase json env oldPass newPass now w = (.error e, w')) : w' = w := by
  unfold changePassphrase at h
  split_ifs at h with hempty
  · simpa [eq_comm] using congrArg Prod.snd h
  rcases Prog.bind_ofExcept_eq_error.mp (Prog.bind_get.symm.trans h) with ⟨-, hw⟩ | ⟨_, -, h⟩
  · exact hw
  rcases Prog.bind_ofExcept_eq_error.mp h with ⟨-, hw⟩ | ⟨_, -, h⟩
  · exact hw
  · exact commitNewKey_error h

theorem create_ok {env : Env S} {path passphrase : Bytes} {now : UInt64} {disk disk' : Option F.File}
    {store : Store S} (h : create json env path passphrase now disk = (.ok store, disk')) :
    disk = none ∧ Persisted json env store disk' ∧ store =
      { path
        data := ∅
        key := env.dataKey
        env := (mintDataKey env (S.pwhash passphrase env.salt kDefaultOpslimit kDefaultMemlimit)
          { salt := env.salt, opslimit := kDefaultOpslimit, memlimit := kDefaultMemlimit,
            keyCreatedAt := now }).2 } := by
  obtain ⟨_, -, h⟩ := Prog.bind_ofExcept_eq_ok.mp h
  have h := Prog.bind_get.symm.trans h
  cases disk with
  | some file => simp at h
  | none =>
    obtain ⟨minted, hm, h⟩ := Prog.bind_ofExcept_eq_ok.mp h
    obtain ⟨_, t, hp, h⟩ := Prog.bind_eq_ok.mp h
    obtain ⟨plaintext, hdump, rfl⟩ := persist_ok hp
    simp only [Prog.pure_apply, Prod.mk.injEq, Except.ok.injEq] at h
    obtain ⟨rfl, rfl⟩ := h
    refine ⟨rfl, ⟨plaintext, hdump, rfl⟩, ?_⟩
    rw [mintFreshEnvelope_ok hm]
    rfl

theorem open_version2_ok {env : Env S} {path passphrase : Bytes} {raw : F.File} {envelope : Envelope S}
    {nonce : S.Nonce} {box : S.Box} {store : Store S} {disk' : Option F.File}
    (hv2 : F.decode path raw = .ok (.version2 envelope nonce box))
    (h : «open» json env path passphrase (some raw) = (.ok store, disk')) :
    disk' = some raw ∧ store.path = path ∧ store.env = envelope ∧
    S.secretboxKeyOpenEasy envelope.wrappedKey envelope.wrapNonce
      (S.pwhash passphrase envelope.salt envelope.opslimit envelope.memlimit) = some store.key ∧
    decryptPayload json box nonce store.key = .ok store.data := by
  obtain ⟨_, -, h⟩ := Prog.bind_ofExcept_eq_ok.mp h
  have h := Prog.bind_get.symm.trans h
  cases hf : env.fault .readFile with
  | some what => simp [hf] at h
  | none =>
    simp only [hf] at h
    obtain ⟨file, hfile, h⟩ := Prog.bind_ofExcept_eq_ok.mp h
    obtain rfl : StoreFile.version2 envelope nonce box = file := Except.ok.inj (hv2.symm.trans hfile)
    obtain ⟨keys, hu, h⟩ := Prog.bind_ofExcept_eq_ok.mp h
    obtain ⟨data, hpayload, h⟩ := Prog.bind_ofExcept_eq_ok.mp h
    obtain ⟨hw, ho⟩ := unwrap_ok hu
    simp only [Prog.pure_apply, Prod.mk.injEq, Except.ok.injEq] at h
    obtain ⟨rfl, rfl⟩ := h
    exact ⟨rfl, rfl, rfl, hw ▸ ho, hpayload⟩

end Store

def Env.Faultless (env : Env S) : Prop :=
  ∀ call, env.fault call = none

end Secretov
