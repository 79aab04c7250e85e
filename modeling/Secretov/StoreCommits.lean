import Secretov.StoreRefinement

/-! An operation of the store ends in its write: what it has made by then, and that
the operation is this and the write. So the write can be taken apart later. -/

namespace Secretov

variable {S : Sodium} (json : Nlohmann) {F : Format S}

/-- An operation up to its write: the contents for the file, if any, and the store
that is left when they are there. -/
abbrev StorePlan (F : Format S) := Except Error (Option F.File × Store S)

/-- `persist` up to its write. -/
def sealed (F : Format S) (env : Env S) (store : Store S) : StorePlan F := do
  let plaintext ← json.dump (.object store.data.toList)
  return (some (F.encode store.env env.payloadNonce (S.secretboxEasy plaintext env.payloadNonce store.key)),
    store)

def createPlan (env : Env S) (path passphrase : Bytes) (now : UInt64) (disk : Option F.File) : StorePlan F := do
  ensureSodium env
  if disk.isSome then .error (.runtimeError (text "store already exists: '" ++ path ++ text "'"))
  else
    let minted ← mintFreshEnvelope env passphrase kDefaultOpslimit kDefaultMemlimit now
    sealed json F env { path, data := ∅, key := minted.1, env := minted.2 }

def openPlan (env : Env S) (path passphrase : Bytes) (disk : Option F.File) : StorePlan F := do
  ensureSodium env
  match env.fault .readFile, disk with
  | none, some raw =>
    match ← F.decode path raw with
    | .version1 header payloadNonce ciphertext =>
      let wrapKey ← deriveKdfKey env .unwrapKdfAlloc .unwrapKdf passphrase header
      let data ← decryptPayload json ciphertext payloadNonce wrapKey
      allocGuarded env .dataKeyAlloc
      let minted := mintDataKey env wrapKey header
      sealed json F env { path, data, key := minted.1, env := minted.2 }
    | .version2 envelope payloadNonce ciphertext =>
      let keys ← unwrap env envelope passphrase (text "wrong passphrase or corrupted store")
      let data ← decryptPayload json ciphertext payloadNonce keys.2
      return (none, { path, data, key := keys.2, env := envelope })
  | _, _ => .error (.runtimeError (text "open '" ++ path ++ text "': " ++ (env.fault .readFile).getD []))

def StoreOp.plan (F : Format S) (env : Env S) (store : Store S) : StoreOp → StorePlan F
  | .set key value => sealed json F env { store with data := store.data.insert key (.string value) }
  | .remove key =>
    if key ∉ store.data then .ok (none, store)
    else sealed json F env { store with data := store.data.erase key }
  | .rotate passphrase now => do
    let keys ← unwrap env store.env passphrase (text "wrong passphrase")
    allocGuarded env .dataKeyAlloc
    let minted := mintDataKey env keys.1 { store.env.toHeader with keyCreatedAt := now }
    sealed json F env { store with key := minted.1, env := minted.2 }
  | .changePassphrase oldPass newPass now =>
    if newPass = [] then .error (.runtimeError (text "empty passphrase"))
    else do
      let _ ← unwrap env store.env oldPass (text "wrong passphrase")
      let minted ← mintFreshEnvelope env newPass (max store.env.opslimit kDefaultOpslimit)
        (max store.env.memlimit kDefaultMemlimit) now
      sealed json F env { store with key := minted.1, env := minted.2 }

def commit (env : Env S) (plan : StorePlan F) : DiskM F (Store S) := do
  let planned ← Prog.ofExcept plan
  match planned.1 with
  | none => return planned.2
  | some contents =>
    writeFileAtomic env contents
    return planned.2

variable {json} {env : Env S}

theorem commit_bind {α : Type} (r : Except Error α) (f : α → StorePlan F) :
    (commit env (r >>= f) : DiskM F (Store S)) = Prog.ofExcept r >>= fun a => commit env (f a) := by
  cases r <;> rfl

theorem persist_eq_commit (store : Store S) :
    (do persist json env store.data store.key store.env
        return store : DiskM F (Store S)) = commit env (sealed json F env store) := by
  funext disk
  simp only [persist, sealed, commit_bind, Prog.bind_apply, Prog.ofExcept_apply]
  cases json.dump (.object store.data.toList) <;> rfl

theorem create_eq_commit (path passphrase : Bytes) (now : UInt64) (disk : Option F.File) :
    Store.create json env path passphrase now disk =
      commit env (createPlan json env path passphrase now disk) disk := by
  simp only [Store.create, createPlan, commit_bind]
  cases ensureSodium env with
  | error e => rfl
  | ok =>
    cases disk with
    | some raw => rfl
    | none =>
      simp only [Prog.bind_apply, Prog.ofExcept_apply, Prog.get_apply, Option.isSome_none, Bool.false_eq_true,
        if_false, commit_bind]
      cases mintFreshEnvelope env passphrase kDefaultOpslimit kDefaultMemlimit now with
      | error e => rfl
      | ok minted =>
        exact congrFun (persist_eq_commit { path, data := ∅, key := minted.1, env := minted.2 }) none

theorem open_eq_commit (path passphrase : Bytes) (disk : Option F.File) :
    Store.open json env path passphrase disk = commit env (openPlan json env path passphrase disk) disk := by
  simp only [Store.open, openPlan, commit_bind]
  cases ensureSodium env with
  | error e => rfl
  | ok =>
    cases hread : env.fault .readFile with
    | some what => rfl
    | none =>
      cases disk with
      | none => rfl
      | some raw =>
        simp only [Prog.bind_apply, Prog.ofExcept_apply, Prog.get_apply, commit_bind]
        cases F.decode path raw with
        | error e => rfl
        | ok file =>
          cases file with
          | version1 header nonce box =>
            simp only [Prog.bind_apply, Prog.ofExcept_apply, commit_bind]
            cases deriveKdfKey env .unwrapKdfAlloc .unwrapKdf passphrase header with
            | error e => rfl
            | ok wrapKey =>
              simp only
              cases decryptPayload json box nonce wrapKey with
              | error e => rfl
              | ok data =>
                simp only
                cases allocGuarded env .dataKeyAlloc with
                | error e => rfl
                | ok =>
                  let minted := mintDataKey env wrapKey header
                  exact congrFun (persist_eq_commit { path, data, key := minted.1, env := minted.2 }) (some raw)
          | version2 envelope nonce box =>
            simp only [Prog.bind_apply, Prog.ofExcept_apply, commit_bind]
            cases unwrap env envelope passphrase (text "wrong passphrase or corrupted store") with
            | error e => rfl
            | ok keys =>
              simp only
              cases decryptPayload json box nonce keys.2 <;> rfl

def intoWorld (w : World F) : Except Error (Store S) × Option F.File → Except Error Unit × World F
  | (.ok store, disk) => (.ok (), ⟨store, disk⟩)
  | (.error e, disk) => (.error e, ⟨w.store, disk⟩)

theorem intoWorld_sealed (w : World F) (store : Store S) :
    intoWorld w (commit env (sealed json F env store) w.disk) =
      match onDisk (persist json env store.data store.key store.env) w with
      | (.ok _, w') => (.ok (), ⟨store, w'.disk⟩)
      | (.error e, w') => (.error e, w') := by
  rw [← persist_eq_commit, Prog.bind_apply]
  simp only [onDisk, Prog.zoom]
  rcases persist json env store.data store.key store.env w.disk with ⟨e | ⟨⟩, disk⟩ <;> rfl

theorem intoWorld_commitNewKey (w : World F) (key : S.Key) (next : Envelope S) :
    Store.commitNewKey json env key next w =
      intoWorld w (commit env (sealed json F env { w.store with key, env := next }) w.disk) := by
  rw [intoWorld_sealed]
  simp only [Store.commitNewKey, Prog.bind_apply, Prog.get_apply, onDisk, Prog.zoom]
  rcases persist json env w.store.data key next w.disk with ⟨e | ⟨⟩, disk⟩ <;> rfl

theorem StoreOp.run_eq_commit (op : StoreOp) (w : World F) :
    op.run json env w = intoWorld w (commit env (op.plan json F env w.store) w.disk) := by
  cases op with
  | set key value =>
    rw [StoreOp.plan, intoWorld_sealed]
    simp only [StoreOp.run, Store.set, Prog.bind_apply, Prog.get_apply, onDisk, Prog.zoom]
    rcases persist json env (w.store.data.insert key (.string value)) w.store.key w.store.env w.disk with
      ⟨e | ⟨⟩, disk⟩ <;> rfl
  | remove key =>
    simp only [StoreOp.run, StoreOp.plan, Store.remove, Prog.bind_apply, Prog.get_apply]
    split_ifs with hkey
    · rw [intoWorld_sealed]
      simp only [Prog.bind_apply, onDisk, Prog.zoom]
      rcases persist json env (w.store.data.erase key) w.store.key w.store.env w.disk with ⟨e | ⟨⟩, disk⟩ <;> rfl
    · rfl
  | rotate passphrase now =>
    simp only [StoreOp.run, StoreOp.plan, Store.rotate, commit_bind, Prog.bind_apply, Prog.get_apply,
      Prog.ofExcept_apply]
    cases unwrap env w.store.env passphrase (text "wrong passphrase") with
    | error e => rfl
    | ok keys =>
      simp only
      cases allocGuarded env .dataKeyAlloc with
      | error e => rfl
      | ok => exact intoWorld_commitNewKey w _ _
  | changePassphrase oldPass newPass now =>
    simp only [StoreOp.run, StoreOp.plan, Store.changePassphrase]
    split_ifs with hempty
    · rfl
    · simp only [commit_bind, Prog.bind_apply, Prog.get_apply, Prog.ofExcept_apply]
      cases unwrap env w.store.env oldPass (text "wrong passphrase") with
      | error e => rfl
      | ok keys =>
        simp only
        cases mintFreshEnvelope env newPass (max w.store.env.opslimit kDefaultOpslimit)
            (max w.store.env.memlimit kDefaultMemlimit) now with
        | error e => rfl
        | ok minted => exact intoWorld_commitNewKey w _ _

theorem sealed_ok {store store' : Store S} {file : Option F.File}
    (h : sealed json F env store = .ok (file, store')) : store' = store ∧ ∃ contents, file = some contents := by
  obtain ⟨plaintext, -, h⟩ := Prog.except_bind_eq_ok.mp h
  obtain ⟨rfl, rfl⟩ := Prod.mk.inj (Except.ok.inj h)
  exact ⟨rfl, _, rfl⟩

/-- The same surroundings with a write that returns. -/
def Env.writing (env : Env S) : Env S :=
  { env with fault := fun call => if call = .write then none else env.fault call }

theorem commit_writing {plan : StorePlan F} {file : Option F.File} {store : Store S}
    (h : plan = .ok (file, store))
    (disk : Option F.File) : commit env.writing plan disk = (.ok store, file.or disk) := by
  subst h
  cases file <;> rfl

theorem StoreOp.plan_writing (op : StoreOp) (store : Store S) :
    op.plan json F env.writing store = op.plan json F env store := by
  cases op <;> rfl

/-- An operation that writes nothing had nothing to change. -/
theorem StoreOp.plan_kept {op : StoreOp} {store store' : Store S}
    (h : op.plan json F env store = .ok (none, store')) : store' = store := by
  cases op with
  | set key value =>
    obtain ⟨-, _, hfile⟩ := sealed_ok h
    cases hfile
  | remove key =>
    rw [StoreOp.plan] at h
    split_ifs at h with hkey
    · obtain ⟨-, _, hfile⟩ := sealed_ok h
      cases hfile
    · cases h
      rfl
  | rotate passphrase now =>
    obtain ⟨_, -, h⟩ := Prog.except_bind_eq_ok.mp h
    obtain ⟨_, -, h⟩ := Prog.except_bind_eq_ok.mp h
    obtain ⟨-, _, hfile⟩ := sealed_ok h
    cases hfile
  | changePassphrase oldPass newPass now =>
    rw [StoreOp.plan] at h
    split_ifs at h
    obtain ⟨_, -, h⟩ := Prog.except_bind_eq_ok.mp h
    obtain ⟨_, -, h⟩ := Prog.except_bind_eq_ok.mp h
    obtain ⟨-, _, hfile⟩ := sealed_ok h
    cases hfile

theorem StoreOp.run_path {op : StoreOp} {w w' : World F} (h : op.run json env w = (.ok (), w')) :
    w'.store.path = w.store.path := by
  cases op with
  | set key value => rw [(Store.set_ok h).1]
  | remove key =>
    rcases StoreOp.remove_ok h with ⟨-, rfl⟩ | ⟨hstore, -⟩
    · rfl
    · rw [hstore]
  | rotate passphrase now => rw [(Store.rotate_ok h).2.1]
  | changePassphrase oldPass newPass now => rw [(Store.changePassphrase_ok h).2.2.1]

theorem StoreOp.run_of_plan {op : StoreOp} {w : World F} {file : Option F.File} {store : Store S}
    (h : op.plan json F env w.store = .ok (file, store)) :
    op.run json env.writing w = (.ok (), ⟨store, file.or w.disk⟩) := by
  rw [StoreOp.run_eq_commit, StoreOp.plan_writing, commit_writing h]
  rfl

/-- What is sealed is what the vault becomes. -/
theorem Tracks.plan (hs : S.Ideal) (hj : json.ParseUndoesDump) (hf : F.DecodeUndoesEncode) {op : StoreOp}
    {store store' : Store S} {disk : Option F.File} {contents : F.File} {vault : Vault}
    (ht : Tracks json (⟨store, disk⟩ : World F) vault)
    (h : op.plan json F env store = .ok (some contents, store')) :
    store'.path = store.path ∧ Tracks json (⟨store', some contents⟩ : World F) (vault.after op) := by
  have hrun := StoreOp.run_of_plan (w := ⟨store, disk⟩) h
  exact ⟨StoreOp.run_path hrun, ht.ok hs hj hf hrun⟩

theorem createPlan_tracks (hs : S.Ideal) (hj : json.ParseUndoesDump) (hf : F.DecodeUndoesEncode)
    {path passphrase : Bytes} {now : UInt64} {disk file : Option F.File} {store : Store S}
    (h : createPlan json env path passphrase now disk = .ok (file, store)) :
    disk = none ∧ store.path = path ∧ ∃ contents, file = some contents ∧
      Tracks json (⟨store, some contents⟩ : World F) ⟨fun _ => none, passphrase⟩ := by
  have hcreate : Store.create json env.writing path passphrase now disk = (.ok store, file.or disk) := by
    rw [create_eq_commit]
    exact commit_writing h disk
  obtain ⟨rfl, -, hstore⟩ := Store.create_ok hcreate
  obtain ⟨_, -, h⟩ := Prog.except_bind_eq_ok.mp h
  rw [Option.isSome_none, if_neg (by simp)] at h
  obtain ⟨minted, -, h⟩ := Prog.except_bind_eq_ok.mp h
  obtain ⟨-, contents, rfl⟩ := sealed_ok h
  exact ⟨rfl, by rw [hstore], contents, rfl, create_tracks hs hj hf hcreate⟩

/-- A version-2 file opens as the store that it was written from, without a write. -/
theorem openPlan_tracks (hs : S.Ideal) {passphrase : Bytes} {raw : F.File} {file : Option F.File}
    {store store' : Store S} {vault : Vault} (ht : Tracks json (⟨store, some raw⟩ : World F) vault)
    (h : openPlan json env store.path passphrase (some raw) = .ok (file, store')) :
    file = none ∧ store' = store := by
  obtain ⟨raw', nonce, box, hraw, hdecode, hpayload⟩ := ht.unlocks.file
  obtain rfl : raw = raw' := Option.some.inj hraw
  obtain ⟨_, -, h⟩ := Prog.except_bind_eq_ok.mp h
  cases hread : env.fault .readFile with
  | some what => simp [hread] at h
  | none =>
    simp only [hread] at h
    obtain ⟨found, hfound, h⟩ := Prog.except_bind_eq_ok.mp h
    obtain rfl := Except.ok.inj (hdecode.symm.trans hfound)
    obtain ⟨keys, hunwrap, h⟩ := Prog.except_bind_eq_ok.mp h
    obtain ⟨data, hdata, h⟩ := Prog.except_bind_eq_ok.mp h
    obtain ⟨rfl, rfl⟩ := Prod.mk.inj (Except.ok.inj h)
    obtain ⟨hderived, hopened⟩ := unwrap_ok hunwrap
    -- this passphrase derives the key of the vault's, so it opens the same data key
    have hsame := hs.openKey_unique _ _ _ _ _ _ _ _ _ (hderived ▸ hopened) ht.unlocks.wrapped
    rw [hderived, hsame, ht.unlocks.wrapped] at hopened
    have hkey : store.key = keys.2 := Option.some.inj hopened
    rw [← hkey] at hdata ⊢
    obtain rfl := Except.ok.inj (hdata.symm.trans hpayload)
    exact ⟨rfl, rfl⟩

end Secretov
