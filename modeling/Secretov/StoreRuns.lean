import Secretov.StoreSteps

/-! Whole runs of the store. A run is any sequence of operations, each with its
own faults and random bytes. Beside it runs a reference: a plain map and the
passphrase in force, changed only by the operations that return. -/

namespace Secretov

variable {S : Sodium} {json : Nlohmann} {F : Format S}

/-- Ideal boxes: opening undoes sealing, and a wrapped key opens under one
derived key only. -/
structure Sodium.Ideal (S : Sodium) : Prop where
  openKey_seal : ∀ m n k, S.secretboxKeyOpenEasy (S.secretboxKeyEasy m n k) n k = some m
  open_seal : ∀ m n k, S.secretboxOpenEasy (S.secretboxEasy m n k) n k = some m
  openKey_unique : ∀ box n pass pass' salt ops mem m m',
    S.secretboxKeyOpenEasy box n (S.pwhash pass salt ops mem) = some m →
    S.secretboxKeyOpenEasy box n (S.pwhash pass' salt ops mem) = some m' →
    S.pwhash pass salt ops mem = S.pwhash pass' salt ops mem

def Format.DecodeUndoesEncode (F : Format S) : Prop :=
  ∀ path envelope nonce box, checkKdfParams envelope.opslimit envelope.memlimit = .ok () →
    F.decode path (F.encode envelope nonce box) = .ok (.version2 envelope nonce box)

inductive StoreOp where
  | set (key value : Bytes)
  | remove (key : Bytes)
  | rotate (passphrase : Bytes) (now : UInt64)
  | changePassphrase (oldPass newPass : Bytes) (now : UInt64)

def StoreOp.run (json : Nlohmann) (env : Env S) : StoreOp → StoreM F Unit
  | .set key value => Store.set json env key value
  | .remove key => do
    let _ ← Store.remove json env key
  | .rotate passphrase now => Store.rotate json env passphrase now
  | .changePassphrase oldPass newPass now => Store.changePassphrase json env oldPass newPass now

theorem StoreOp.remove_ok {env : Env S} {key : Bytes} {w w' : World F}
    (h : (StoreOp.remove key).run json env w = (.ok (), w')) :
    (key ∉ w.store.data ∧ w' = w) ∨
    (w'.store = { w.store with data := w.store.data.erase key } ∧ Persisted json env w'.store w'.disk) := by
  obtain ⟨removed, t, hr, h⟩ := Prog.bind_eq_ok.mp h
  simp only [Prog.pure_apply, Prod.mk.injEq, true_and] at h
  subst h
  rcases Store.remove_ok hr with ⟨-, hmiss, hw⟩ | ⟨-, -, hstore, hp⟩
  · exact Or.inl ⟨hmiss, hw⟩
  · exact Or.inr ⟨hstore, hp⟩

/-- A passphrase-protected map. -/
structure Vault where
  map : Bytes → Option Json
  passphrase : Bytes

def Vault.after (vault : Vault) : StoreOp → Vault
  | .set key value => { vault with map := Function.update vault.map key (some (.string value)) }
  | .remove key => { vault with map := Function.update vault.map key none }
  | .rotate _ _ => vault
  | .changePassphrase _ newPass _ => { vault with passphrase := newPass }

def stepStore (json : Nlohmann) (o : StoreOp × Env S) (s : World F × Vault) : World F × Vault :=
  match o.1.run json o.2 s.1 with
  | (.ok _, w) => (w, s.2.after o.1)
  | (.error _, w) => (w, s.2)

def runStore (json : Nlohmann) : List (StoreOp × Env S) → World F × Vault → World F × Vault
  | [], s => s
  | o :: more, s => runStore json more (stepStore json o s)

/-- Every state of a run, the first one and the last one included. -/
def visited (json : Nlohmann) : List (StoreOp × Env S) → World F × Vault → List (World F × Vault)
  | [], s => [s]
  | o :: more, s => s :: visited json more (stepStore json o s)

structure Unlocks (json : Nlohmann) (w : World F) (passphrase : Bytes) : Prop where
  params : checkKdfParams w.store.env.opslimit w.store.env.memlimit = .ok ()
  wrapped : S.secretboxKeyOpenEasy w.store.env.wrappedKey w.store.env.wrapNonce
    (S.pwhash passphrase w.store.env.salt w.store.env.opslimit w.store.env.memlimit) = some w.store.key
  file : ∃ raw nonce box, w.disk = some raw ∧
    F.decode w.store.path raw = .ok (.version2 w.store.env nonce box) ∧
    decryptPayload json box nonce w.store.key = .ok w.store.data

theorem ofList_toList (data : Data) : Std.ExtTreeMap.ofList data.toList compare = data := by
  apply Std.ExtTreeMap.ext_getElem?
  intro key
  cases h : data[key]? with
  | some value =>
    exact Std.ExtTreeMap.getElem?_ofList_of_mem Std.ReflCmp.compare_self
      Std.ExtTreeMap.distinct_keys_toList (Std.ExtTreeMap.mem_toList_iff_getElem?_eq_some.mpr h)
  | none =>
    apply Std.ExtTreeMap.getElem?_ofList_of_contains_eq_false
    have hkey : key ∉ data := by
      rw [Std.ExtTreeMap.mem_iff_isSome_getElem?, h]
      simp
    simpa [Std.ExtTreeMap.map_fst_toList_eq_keys] using hkey

theorem Persisted.decrypts {env : Env S} {store : Store S} {disk : Option F.File}
    (hs : S.Ideal) (hj : json.ParseUndoesDump) (hf : F.DecodeUndoesEncode)
    (hparams : checkKdfParams store.env.opslimit store.env.memlimit = .ok ())
    (h : Persisted json env store disk) : ∃ raw nonce box, disk = some raw ∧
      F.decode store.path raw = .ok (.version2 store.env nonce box) ∧
      decryptPayload json box nonce store.key = .ok store.data := by
  obtain ⟨plaintext, hdump, rfl⟩ := h
  refine ⟨_, env.payloadNonce, _, rfl, hf _ _ _ _ hparams, ?_⟩
  simp only [decryptPayload, hs.open_seal, hj _ _ hdump, ofList_toList]

/-- An open that is not failed by the system gives the store; it does not write. -/
theorem Unlocks.open_eq {w : World F} {passphrase : Bytes} (h : Unlocks json w passphrase)
    {env : Env S} (henv : ∀ call, call ≠ .write → env.fault call = none) :
    Store.open json env w.store.path passphrase w.disk = (.ok w.store, w.disk) := by
  obtain ⟨raw, nonce, box, hdisk, hdecode, hpayload⟩ := h.file
  have hderive : deriveKdfKey env .unwrapKdfAlloc .unwrapKdf passphrase w.store.env.toHeader =
      .ok (S.pwhash passphrase w.store.env.salt w.store.env.opslimit w.store.env.memlimit) := by
    simp [deriveKdfKey, allocGuarded, henv .unwrapKdfAlloc nofun, henv .unwrapKdf nofun, bind, Except.bind]
  have hunwrap : unwrap env w.store.env passphrase (text "wrong passphrase or corrupted store") =
      .ok (S.pwhash passphrase w.store.env.salt w.store.env.opslimit w.store.env.memlimit, w.store.key) := by
    simp [unwrap, allocGuarded, henv .unwrapAlloc nofun, hderive, bind, Except.bind, h.wrapped]
  simp only [Store.open, ensureSodium, henv .sodiumInit nofun, henv .readFile nofun, hdisk, Prog.bind_apply,
    Prog.ofExcept_apply, Prog.get_apply, hdecode, hunwrap, hpayload, Prog.pure_apply]

theorem checkKdfParams_ok_iff {opslimit memlimit : UInt64} :
    checkKdfParams opslimit memlimit = .ok () ↔
      (crypto_pwhash_OPSLIMIT_MIN ≤ opslimit ∧ opslimit ≤ crypto_pwhash_OPSLIMIT_SENSITIVE) ∧
      crypto_pwhash_MEMLIMIT_MIN ≤ memlimit ∧ memlimit ≤ crypto_pwhash_MEMLIMIT_SENSITIVE := by
  unfold checkKdfParams
  split_ifs with h <;> simp only [false_iff, true_iff] <;> grind

theorem uint64_max_eq (a b : UInt64) : max a b = if a ≤ b then b else a := rfl

theorem checkKdfParams_max {opslimit memlimit : UInt64} (h : checkKdfParams opslimit memlimit = .ok ()) :
    checkKdfParams (max opslimit kDefaultOpslimit) (max memlimit kDefaultMemlimit) = .ok () := by
  have hops : crypto_pwhash_OPSLIMIT_MIN ≤ kDefaultOpslimit ∧
      kDefaultOpslimit ≤ crypto_pwhash_OPSLIMIT_SENSITIVE := by decide
  have hmem : crypto_pwhash_MEMLIMIT_MIN ≤ kDefaultMemlimit ∧
      kDefaultMemlimit ≤ crypto_pwhash_MEMLIMIT_SENSITIVE := by decide
  rw [checkKdfParams_ok_iff] at h ⊢
  simp only [uint64_max_eq]
  constructor <;> split_ifs <;> tauto

structure Tracks (json : Nlohmann) (w : World F) (vault : Vault) : Prop where
  unlocks : Unlocks json w vault.passphrase
  map : ∀ key, vault.map key = w.store.data[key]?

theorem Tracks.error {env : Env S} {op : StoreOp} {w w' : World F} {e : Error}
    (h : op.run json env w = (.error e, w')) : w' = w := by
  cases op with
  | set key value => exact Store.set_error h
  | remove key =>
    rcases Prog.bind_eq_error.mp h with h | ⟨_, _, -, h⟩
    · exact Store.remove_error h
    · simp at h
  | rotate passphrase now => exact Store.rotate_error h
  | changePassphrase oldPass newPass now => exact Store.changePassphrase_error h

theorem update_insert {map : Bytes → Option Json} {data : Data} (h : ∀ key, map key = data[key]?)
    (key : Bytes) (value : Json) (k : Bytes) :
    Function.update map key (some value) k = (data.insert key value)[k]? := by
  rw [Std.ExtTreeMap.getElem?_insert, Function.update_apply]
  by_cases hk : k = key
  · simp [hk]
  · have hne : ¬ compare key k = .eq := fun he => hk (Std.LawfulEqCmp.eq_of_compare he).symm
    rw [if_neg hk, if_neg hne, h]

theorem update_erase {map : Bytes → Option Json} {data : Data} (h : ∀ key, map key = data[key]?)
    (key k : Bytes) : Function.update map key none k = (data.erase key)[k]? := by
  rw [Std.ExtTreeMap.getElem?_erase, Function.update_apply]
  by_cases hk : k = key
  · simp [hk]
  · have hne : ¬ compare key k = .eq := fun he => hk (Std.LawfulEqCmp.eq_of_compare he).symm
    rw [if_neg hk, if_neg hne, h]

theorem Tracks.ok (hs : S.Ideal) (hj : json.ParseUndoesDump) (hf : F.DecodeUndoesEncode)
    {env : Env S} {op : StoreOp} {w w' : World F} {vault : Vault} (ht : Tracks json w vault)
    (h : op.run json env w = (.ok (), w')) : Tracks json w' (vault.after op) := by
  obtain ⟨⟨hparams, hwrapped, hfile⟩, hmap⟩ := ht
  cases op with
  | set key value =>
    obtain ⟨hstore, hp⟩ := Store.set_ok h
    have hdec := hp.decrypts hs hj hf (by rw [hstore]; exact hparams)
    exact ⟨⟨by rw [hstore]; exact hparams, by rw [hstore]; exact hwrapped, hdec⟩,
      fun k => by rw [hstore]; exact update_insert hmap key _ k⟩
  | remove key =>
    rcases StoreOp.remove_ok h with ⟨hmiss, rfl⟩ | ⟨hstore, hp⟩
    · refine ⟨⟨hparams, hwrapped, hfile⟩, fun k => ?_⟩
      have hnone : vault.map key = none := by
        rw [hmap, Std.ExtTreeMap.getElem?_eq_none hmiss]
      simp only [Vault.after, ← hnone, Function.update_eq_self]
      exact hmap k
    · have hdec := hp.decrypts hs hj hf (by rw [hstore]; exact hparams)
      exact ⟨⟨by rw [hstore]; exact hparams, by rw [hstore]; exact hwrapped, hdec⟩,
        fun k => by rw [hstore]; exact update_erase hmap key k⟩
  | rotate passphrase now =>
    obtain ⟨⟨dataKey, hopen⟩, hstore, hp⟩ := Store.rotate_ok h
    have hdec := hp.decrypts hs hj hf (by rw [hstore]; exact hparams)
    -- the box that this passphrase opened is the one that opens under the vault's
    have hsame := hs.openKey_unique _ _ _ _ _ _ _ _ _ hopen hwrapped
    refine ⟨⟨by rw [hstore]; exact hparams, ?_, hdec⟩, fun k => by rw [hstore]; exact hmap k⟩
    rw [hstore, hsame]
    exact hs.openKey_seal _ _ _
  | changePassphrase oldPass newPass now =>
    obtain ⟨-, -, hstore, hp⟩ := Store.changePassphrase_ok h
    have hnew := checkKdfParams_max hparams
    have hdec := hp.decrypts hs hj hf (by rw [hstore]; exact hnew)
    refine ⟨⟨by rw [hstore]; exact hnew, ?_, hdec⟩, fun k => by rw [hstore]; exact hmap k⟩
    rw [hstore]
    exact hs.openKey_seal _ _ _

theorem stepStore_cases (json : Nlohmann) (o : StoreOp × Env S) (s : World F × Vault) :
    stepStore json o s = s ∨ ∃ w, o.1.run json o.2 s.1 = (.ok (), w) ∧
      stepStore json o s = (w, s.2.after o.1) := by
  rcases h : o.1.run json o.2 s.1 with ⟨e | ⟨⟩, w⟩
  · left
    simp only [stepStore, h, Tracks.error h]
  · right
    exact ⟨w, rfl, by simp only [stepStore, h]⟩

theorem visited_forall (P : World F × Vault → Prop) {ops : List (StoreOp × Env S)} {s : World F × Vault}
    (hs : P s) (hok : ∀ o ∈ ops, ∀ t w, P t → o.1.run json o.2 t.1 = (.ok (), w) → P (w, t.2.after o.1)) :
    ∀ t ∈ visited json ops s, P t := by
  induction ops generalizing s with
  | nil => simpa [visited] using hs
  | cons o more ih =>
    intro t ht
    rcases List.mem_cons.mp ht with rfl | ht
    · exact hs
    · have hnext : P (stepStore json o s) := by
        rcases stepStore_cases json o s with hsame | ⟨w, hrun, hstep⟩
        · rwa [hsame]
        · rw [hstep]
          exact hok o (by simp) s w hs hrun
      exact ih hnext (fun o' ho' => hok o' (by simp [ho'])) t ht

theorem runStore_mem_visited (ops : List (StoreOp × Env S)) (s : World F × Vault) :
    runStore json ops s ∈ visited json ops s := by
  induction ops generalizing s with
  | nil => simp [runStore, visited]
  | cons o more ih => exact List.mem_cons_of_mem _ (ih _)

theorem mem_visited_append {before after : List (StoreOp × Env S)} {s t : World F × Vault} :
    t ∈ visited json (before ++ after) s →
      t ∈ visited json before s ∨ t ∈ visited json after (runStore json before s) := by
  induction before generalizing s with
  | nil => exact Or.inr
  | cons o more ih =>
    intro h
    rcases List.mem_cons.mp h with rfl | h
    · exact Or.inl (by simp [visited])
    · exact (ih h).imp_left (List.mem_cons_of_mem _)

theorem visited_tracks (hs : S.Ideal) (hj : json.ParseUndoesDump) (hf : F.DecodeUndoesEncode)
    (ops : List (StoreOp × Env S)) {w : World F} {vault : Vault} (ht : Tracks json w vault) :
    ∀ t ∈ visited json ops (w, vault), Tracks json t.1 t.2 := by
  intro t hmem
  refine visited_forall (fun t => Tracks json t.1 t.2) ht ?_ t hmem
  intro o _ t w' h hrun
  exact h.ok hs hj hf hrun

structure Answers (store : Store S) (map : Bytes → Option Json) : Prop where
  get : ∀ key, store.get key = match map key with
    | none => .ok none
    | some value => value.getString.map some
  list_sorted : store.list.Pairwise fun a b => compare a b = .lt
  mem_list : ∀ key, key ∈ store.list ↔ (map key).isSome
  getPrefix : ∀ pre, (∀ key value, pre <+: key → map key = some value → ∃ s, value = .string s) →
    ∃ entries, store.getPrefix pre = .ok entries ∧
      (entries.Pairwise fun a b => compare a.1 b.1 = .lt) ∧
      ∀ key s, (key, s) ∈ entries ↔ pre <+: key ∧ map key = some (.string s)
  getPrefix_error : ∀ pre key value, pre <+: key → map key = some value → (∀ s, value ≠ .string s) →
    ∃ e, store.getPrefix pre = .error e

theorem getString_error {value : Json} (h : ∀ s, value ≠ .string s) : ∃ e, value.getString = .error e := by
  cases value with
  | string s => exact absurd rfl (h s)
  | _ => exact ⟨_, rfl⟩

theorem mapM_stringEntry {l : List (Bytes × Json)} (h : ∀ entry ∈ l, ∃ s, entry.2 = .string s) :
    ∃ entries, l.mapM Store.stringEntry = .ok entries ∧
      entries.map (fun entry => (entry.1, Json.string entry.2)) = l := by
  induction l with
  | nil => exact ⟨[], rfl, rfl⟩
  | cons entry l ih =>
    obtain ⟨key, value⟩ := entry
    obtain ⟨s, rfl⟩ := h (key, value) (by simp)
    obtain ⟨entries, hm, hmap⟩ := ih fun e he => h e (by simp [he])
    have hfirst : Store.stringEntry (key, .string s) = .ok (key, s) := rfl
    refine ⟨(key, s) :: entries, ?_, by simp [hmap]⟩
    rw [List.mapM_cons, hfirst, hm]
    rfl

theorem mapM_stringEntry_error {l : List (Bytes × Json)} {entry : Bytes × Json} (hm : entry ∈ l)
    (h : ∀ s, entry.2 ≠ .string s) : ∃ e, l.mapM Store.stringEntry = .error e := by
  induction l with
  | nil => simp at hm
  | cons first l ih =>
    rw [List.mapM_cons]
    cases hfirst : Store.stringEntry first with
    | error e => exact ⟨e, rfl⟩
    | ok s =>
      rcases List.mem_cons.mp hm with rfl | hm
      · obtain ⟨e, he⟩ := getString_error h
        simp [Store.stringEntry, he, Except.map] at hfirst
      · obtain ⟨e, he⟩ := ih hm
        rw [he]
        exact ⟨e, rfl⟩

theorem Store.list_eq (store : Store S) : store.list = store.data.keys := by
  apply List.mergeSort_of_pairwise
  exact Std.ExtTreeMap.ordered_keys.imp fun h => by simp [h]

theorem mem_prefix_entries {data : Data} {pre key : Bytes} {value : Json} :
    (key, value) ∈ data.toList.filter (fun entry => pre.isPrefixOf entry.1) ↔
      pre <+: key ∧ data[key]? = some value := by
  rw [List.mem_filter, Std.ExtTreeMap.mem_toList_iff_getElem?_eq_some, List.isPrefixOf_iff_prefix, and_comm]

theorem Store.answers {store : Store S} {map : Bytes → Option Json}
    (h : ∀ key, map key = store.data[key]?) : Answers store map where
  get key := by
    cases hm : map key <;> simp only [Store.get, ← h, hm]
  list_sorted := by
    rw [Store.list_eq]
    exact Std.ExtTreeMap.ordered_keys
  mem_list key := by
    rw [Store.list_eq, Std.ExtTreeMap.mem_keys, h, Std.ExtTreeMap.mem_iff_isSome_getElem?]
  getPrefix pre hstrings := by
    have hs : ∀ entry ∈ store.data.toList.filter (fun entry => pre.isPrefixOf entry.1),
        ∃ s, entry.2 = .string s := by
      intro entry he
      obtain ⟨hpre, hget⟩ := mem_prefix_entries.mp he
      exact hstrings entry.1 entry.2 hpre (by rw [h, hget])
    obtain ⟨entries, hok, hmap⟩ := mapM_stringEntry hs
    refine ⟨entries, hok, ?_, fun key s => ?_⟩
    · have hsorted : (entries.map fun entry => (entry.1, Json.string entry.2)).Pairwise
          fun a b => compare a.1 b.1 = .lt := by
        rw [hmap]
        exact Std.ExtTreeMap.ordered_keys_toList.filter _
      exact (List.pairwise_map.mp hsorted).imp id
    · have hmem : (key, s) ∈ entries ↔
          (key, Json.string s) ∈ entries.map fun entry => (entry.1, Json.string entry.2) := by
        simp
      rw [hmem, hmap, mem_prefix_entries, h]
  getPrefix_error pre key value hpre hget hno := by
    have hm : (key, value) ∈ store.data.toList.filter (fun entry => pre.isPrefixOf entry.1) :=
      mem_prefix_entries.mpr ⟨hpre, by rw [← h, hget]⟩
    exact mapM_stringEntry_error hm hno

end Secretov
