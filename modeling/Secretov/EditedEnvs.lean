import Secretov.BlockEdits
import Secretov.ImportChecks
import Secretov.ManifestNames

/-! What the edit of a mapping means for one environment: the entries that are parsed
afterwards, beside those that were parsed before. -/

namespace Secretov

variable {yaml : YamlCpp}

/-! Keys that are looked up. -/

theorem Yaml.isKey_scalar (key s : Bytes) : (Yaml.scalar s).isKey key = decide (s = key) := rfl

/-- Among known keys the search finds what a lookup does. -/
theorem find?_eq_firstTaken {key : Bytes} {allowed : List Bytes} {node : Yaml} (hkeys : KeysWithin allowed node)
    (hallowed : ∀ k ∈ allowed, takenFor key (.scalar k) = decide (k = key)) :
    node.find? key = (firstTaken key node.pairs).map Prod.snd := by
  have hsame : ∀ pair ∈ node.pairs, pair.1.isKey key = takenFor key pair.1 := by
    intro pair hpair
    obtain ⟨k, hk, hsame⟩ := hkeys pair hpair
    rw [hsame, hallowed k hk]
    rfl
  rw [Yaml.find?, firstTaken, ← List.head?_filter, ← List.head?_filter, List.filter_congr hsame]

theorem pairsAt_eq_takenPairs {key : Bytes} {allowed : List Bytes} {node : Yaml} (hkeys : KeysWithin allowed node)
    (hallowed : ∀ k ∈ allowed, takenFor key (.scalar k) = decide (k = key)) :
    node.pairsAt key = takenPairs key node.pairs := by
  rw [Yaml.pairsAt, find?_eq_firstTaken hkeys hallowed, takenPairs, Option.map_map]
  rfl

theorem isKey_of_not_taken {key : Bytes} {pair : Yaml × Yaml} (h : takenFor key pair.1 = false) :
    pair.1.isKey key = false := by
  obtain ⟨k, v⟩ := pair
  cases k with
  | scalar s =>
    simp only [takenFor, Bool.or_eq_false_iff, beq_eq_false_iff_ne] at h
    exact decide_eq_false h.1
  | null | sequence | map => rfl

/-- Under a known key: its value was the old one, or none, and is the new one. The other keys have theirs. -/
theorem Edited.find? {key : Bytes} {allowed : List Bytes} {old new pairs pairs' : List (Yaml × Yaml)}
    (hkeys : KeysWithin allowed (.map pairs))
    (hallowed : ∀ k ∈ allowed, takenFor key (.scalar k) = decide (k = key))
    (h : Edited key old new pairs pairs') :
    ((Yaml.map pairs).find? key = some (blockNode old) ∨ (Yaml.map pairs).find? key = none ∧ old = []) ∧
      (Yaml.map pairs').find? key = some (blockNode new) ∧
      ∀ other ≠ key, (Yaml.map pairs').find? other = (Yaml.map pairs).find? other := by
  cases h with
  | @found before after k hbefore htaken =>
    obtain ⟨s, hs, hk⟩ := hkeys (k, blockNode old) (by simp [Yaml.pairs])
    obtain rfl : k = .scalar s := hk
    rw [hallowed s hs, decide_eq_true_eq] at htaken
    subst htaken
    have hnone : before.find? (·.1.isKey s) = none :=
      List.find?_eq_none.mpr fun pair hpair => by simp [isKey_of_not_taken (hbefore pair hpair)]
    refine ⟨.inl ?_, ?_, fun other hother => ?_⟩
    · simp [Yaml.find?, Yaml.pairs, List.find?_append, hnone, Yaml.isKey_scalar]
    · simp [Yaml.find?, Yaml.pairs, List.find?_append, hnone, Yaml.isKey_scalar]
    · simp [Yaml.find?, Yaml.pairs, List.find?_append, Yaml.isKey_scalar, Ne.symm hother]
  | added hpairs hold =>
    have hnone : pairs.find? (·.1.isKey key) = none :=
      List.find?_eq_none.mpr fun pair hpair => by simp [isKey_of_not_taken (hpairs pair hpair)]
    refine ⟨.inr ⟨?_, hold⟩, ?_, fun other hother => ?_⟩
    · simp [Yaml.find?, Yaml.pairs, hnone]
    · simp [Yaml.find?, Yaml.pairs, List.find?_append, hnone, Yaml.isKey_scalar]
    · simp [Yaml.find?, Yaml.pairs, List.find?_append, Yaml.isKey_scalar, Ne.symm hother]

/-! What is parsed. -/

theorem parseEnv_blocks {path project e : Bytes} {backend : BackendConfig} {node : Yaml}
    {parsed : List SecretEntry × KeyValues} (h : parseEnv yaml path project backend e node = .ok parsed) :
    node.isScalar = false ∧ ∀ secrets ∈ node.find? (text "secrets"), secrets.isScalar = false := by
  unfold parseEnv at h
  split_ifs at h with hnull
  · rw [Yaml.isNull_iff.mp hnull]
    exact ⟨rfl, fun _ hsecrets => absurd hsecrets (Option.not_mem_none _)⟩
  · obtain ⟨_, hmap, h⟩ := Prog.except_bind_eq_ok.mp h
    obtain ⟨_, -, h⟩ := Prog.except_bind_eq_ok.mp h
    obtain ⟨location, -, h⟩ := Prog.except_bind_eq_ok.mp h
    obtain ⟨entries, hentries, -⟩ := Prog.except_bind_eq_ok.mp h
    have hmap := Prog.throwIf_eq_ok hmap
    refine ⟨?_, fun secrets hsecrets => ?_⟩
    · cases node with
      | scalar s => exact absurd rfl hmap
      | null | sequence | map => rfl
    · rw [Option.mem_def.mp hsecrets] at hentries
      cases secrets with
      | scalar s => cases hentries
      | null | sequence | map => rfl

theorem parseDocument_walk {doc : Yaml} {path : Bytes} {m : Manifest} (h : parseDocument yaml doc path = .ok m) :
    m.path = path ∧ parseBackend yaml (doc.find? (text "backend")) path = .ok m.backend ∧
      parseDefaultEnv yaml (doc.find? (text "default_env")) path = .ok m.defaultEnv ∧
      (∀ node ∈ doc.find? (text "env"), node.isScalar = false) ∧
      ∀ pair ∈ doc.pairsAt (text "env"), ∃ e parsed, parseEnv yaml path m.project m.backend e pair.2 =
      .ok parsed := by
  obtain ⟨_, -, h⟩ := Prog.except_bind_eq_ok.mp h
  obtain ⟨_, -, h⟩ := Prog.except_bind_eq_ok.mp h
  split at h
  · cases h
  obtain ⟨project, -, h⟩ := Prog.except_bind_eq_ok.mp h
  obtain ⟨_, -, h⟩ := Prog.except_bind_eq_ok.mp h
  obtain ⟨backend, hbackend, h⟩ := Prog.except_bind_eq_ok.mp h
  obtain ⟨defaultEnv, hdefault, h⟩ := Prog.except_bind_eq_ok.mp h
  split at h
  · rename_i hnone
    obtain rfl := Except.ok.inj h
    exact ⟨rfl, hbackend, hdefault, by simp [hnone], by simp [Yaml.pairsAt, hnone]⟩
  · rename_i hnull
    obtain rfl := Except.ok.inj h
    exact ⟨rfl, hbackend, hdefault, by simp [hnull, Yaml.isScalar], by simp [Yaml.pairsAt, hnull, Yaml.pairs]⟩
  · rename_i pairs hpairs
    have henvPairs : doc.pairsAt (text "env") = pairs := by simp [Yaml.pairsAt, hpairs, Yaml.pairs]
    obtain ⟨⟨hpath, hproject, hsame, hdefaultSame⟩, hall⟩ := Prog.except_foldlM_eq_ok
      (fun m : Manifest => m.path = path ∧ m.project = project ∧ m.backend = backend ∧ m.defaultEnv = defaultEnv)
      (by
        rintro m pair m' - ⟨hpath, hproject, hsame, hdefault⟩ hadd
        obtain ⟨_, -, hadd⟩ := Prog.except_bind_eq_ok.mp hadd
        obtain ⟨_, -, hadd⟩ := Prog.except_bind_eq_ok.mp hadd
        obtain ⟨_, -, hadd⟩ := Prog.except_bind_eq_ok.mp hadd
        obtain rfl := Except.ok.inj hadd
        exact ⟨hpath, hproject, hsame, hdefault⟩)
      ⟨rfl, rfl, rfl, rfl⟩ h
    refine ⟨hpath, hsame ▸ hbackend, hdefaultSame ▸ hdefault, by simp [hpairs, Yaml.isScalar],
      fun pair hpair => ?_⟩
    obtain ⟨before, after, ⟨-, hproject', hsame', -⟩, hadd⟩ := hall pair (henvPairs ▸ hpair)
    obtain ⟨e, -, hadd⟩ := Prog.except_bind_eq_ok.mp hadd
    obtain ⟨_, -, hadd⟩ := Prog.except_bind_eq_ok.mp hadd
    obtain ⟨parsed, hparsed, -⟩ := Prog.except_bind_eq_ok.mp hadd
    rw [hproject', hsame', ← hproject, ← hsame] at hparsed
    exact ⟨e, parsed, hparsed⟩
  · cases h

/-- The keys at the top of a manifest. -/
theorem takenFor_top : ∀ k ∈ [text "version", text "name", text "backend", text "default_env", text "env"],
    takenFor (text "env") (.scalar k) = decide (k = text "env") := by decide

/-- The keys of an environment. -/
theorem takenFor_envKey : ∀ k ∈ [text "vars", text "secrets", text "region", text "project"],
    takenFor (text "secrets") (.scalar k) = decide (k = text "secrets") := by decide

/-- What is parsed can be edited: its blocks are none of them scalars. -/
theorem extendable_of_parsed {pairs : List (Yaml × Yaml)} {path env : Bytes} {m : Manifest}
    (h : parseDocument yaml (.map pairs) path = .ok m) : Extendable env pairs := by
  have hvetted := parseDocument_eq_ok h
  obtain ⟨-, -, -, hroot, henvs⟩ := parseDocument_walk h
  rw [find?_eq_firstTaken hvetted.keys.top takenFor_top] at hroot
  rw [pairsAt_eq_takenPairs hvetted.keys.top takenFor_top] at henvs
  have hknown := hvetted.keys.env
  rw [pairsAt_eq_takenPairs hvetted.keys.top takenFor_top] at hknown
  refine ⟨fun pair hpair => hroot _ (Option.mem_map_of_mem Prod.snd hpair), fun pair hpair => ?_,
    fun pair hpair => ?_⟩
  · obtain ⟨e, parsed, hparsed⟩ := henvs pair (List.mem_of_find?_eq_some hpair)
    exact (parseEnv_blocks hparsed).1
  · rw [takenPairs] at hpair
    cases hfirst : firstTaken env (takenPairs (text "env") pairs) with
    | none =>
      rw [hfirst] at hpair
      cases hpair
    | some envPair =>
      rw [hfirst] at hpair
      have henvPair := List.mem_of_find?_eq_some hfirst
      obtain ⟨e, parsed, hparsed⟩ := henvs envPair henvPair
      have hsecrets := (parseEnv_blocks hparsed).2
      rw [find?_eq_firstTaken (hknown envPair henvPair) takenFor_envKey] at hsecrets
      exact hsecrets _ (Option.mem_map_of_mem Prod.snd hpair)

/-! The entries that are put in. -/

/-- The text of a plain scalar, as a string. -/
def readBack (s : Bytes) : Bytes := if s ∈ nullTexts then text "null" else s

theorem asString_plainNode (s : Bytes) : yaml.asString (plainNode s) = .ok (readBack s) := by
  unfold plainNode readBack
  split_ifs <;> rfl

/-- The entry of a name in a local project. -/
def newEntry (env project : Bytes) (pair : Bytes × Bytes) : SecretEntry where
  name := pair.1
  kind := .text
  path := env ++ slash :: (project ++ slash :: pair.1)
  field := []
  location := []
  envVar := pair.2

section

variable {path project env location : Bytes} {pair : Bytes × Bytes}

theorem parseEnvSecret_onLocal {secret : Yaml × Yaml} {entry : SecretEntry}
    (h : parseEnvSecret yaml path env project .local location secret = .ok entry) :
    yaml.asString secret.1 = .ok entry.name ∧ EntryVetted ⟨.local, []⟩ project env .null secret.2 entry := by
  let backend : BackendConfig := ⟨.local, []⟩
  have hlocal : backend.type ≠ .local → location = envLocation backend .null ∧
      GoodLocation backend.type location :=
    fun hne => absurd rfl hne
  obtain ⟨hname, -, hvetted⟩ := parseEnvSecret_eq_ok hlocal h
  exact ⟨hname, hvetted⟩

theorem parseEnvSecret_entryPair {entry : SecretEntry}
    (h : parseEnvSecret yaml path env project .local location (entryPair pair) = .ok entry) :
    entry = newEntry env project (readBack pair.1, pair.2) := by
  obtain ⟨hname, hvetted⟩ := parseEnvSecret_onLocal h
  have hname := Except.ok.inj ((asString_plainNode pair.1).symm.trans hname)
  obtain ⟨hkind, hfield, hlocation, hpath⟩ := hvetted.onLocal rfl
  have hvar := hvetted.envVar.2
  have hbody : (entryPair pair).2 = .map [(.scalar (text "env_var_name"), plainNode pair.2)] := rfl
  have hkey : (entryPair pair).2.find? (text "key") = none := rfl
  rw [hkey] at hpath
  have hvar : plainNode pair.2 = .scalar entry.envVar := Option.some.inj hvar
  have hvar : pair.2 = entry.envVar := by
    unfold plainNode at hvar
    split_ifs at hvar
    exact Yaml.scalar.inj hvar
  obtain ⟨name, kind, entryPath, field, entryLocation, envVar⟩ := entry
  dsimp only at *
  subst hname hkind hfield hlocation hpath hvar
  rfl

theorem parseEnvSecrets_blockNode (pairs : List (Yaml × Yaml)) (type : BackendType) :
    parseEnvSecrets yaml (some (blockNode pairs)) path env project type location =
      pairs.mapM (parseEnvSecret yaml path env project type location) := by
  cases pairs with
  | nil => rfl
  | cons pair pairs => rfl

theorem parseEnv_local {backend : BackendConfig} {body : List (Yaml × Yaml)}
    {parsed : List SecretEntry × KeyValues}
    (hlocal : backend.type = .local) (h : parseEnv yaml path project backend env (blockNode body) = .ok parsed) :
    parseEnvSecrets yaml ((Yaml.map body).find? (text "secrets")) path env project .local backend.location =
        .ok parsed.1 ∧
      parseEnvVars yaml ((Yaml.map body).find? (text "vars")) path env = .ok parsed.2 := by
  cases body with
  | nil =>
    obtain rfl := Except.ok.inj h
    exact ⟨rfl, rfl⟩
  | cons pair body =>
    have hnode : blockNode (pair :: body) = .map (pair :: body) := rfl
    rw [hnode, parseEnv, hlocal] at h
    obtain ⟨_, -, h⟩ := Prog.except_bind_eq_ok.mp h
    obtain ⟨_, -, h⟩ := Prog.except_bind_eq_ok.mp h
    obtain ⟨found, hlocation, h⟩ := Prog.except_bind_eq_ok.mp h
    obtain ⟨_, -, hlocation⟩ := Prog.except_bind_eq_ok.mp hlocation
    obtain rfl := Except.ok.inj hlocation
    obtain ⟨entries, hentries, h⟩ := Prog.except_bind_eq_ok.mp h
    obtain ⟨plain, hplain, h⟩ := Prog.except_bind_eq_ok.mp h
    obtain ⟨_, -, h⟩ := Prog.except_bind_eq_ok.mp h
    obtain rfl := Except.ok.inj h
    exact ⟨hentries, hplain⟩

/-- An environment before the edit and after: the variables stay, and the entries are put at the end. -/
theorem parseEnv_edited {backend : BackendConfig} {body body' secrets : List (Yaml × Yaml)} {fresh : KeyValues}
    {parsed parsed' : List SecretEntry × KeyValues} (hlocal : backend.type = .local)
    (hkeys : KeysWithin [text "vars", text "secrets", text "region", text "project"] (.map body))
    (hedited : Edited (text "secrets") secrets (secrets ++ fresh.map entryPair) body body')
    (h : parseEnv yaml path project backend env (blockNode body) = .ok parsed)
    (h' : parseEnv yaml path project backend env (blockNode body') = .ok parsed') :
    secrets.map (keyText yaml) = parsed.1.map (fun e => some e.name) ∧
      parsed' = (parsed.1 ++ fresh.map fun pair => newEntry env project (readBack pair.1, pair.2), parsed.2) := by
  obtain ⟨hold, hnew, hother⟩ := hedited.find? hkeys takenFor_envKey
  obtain ⟨hentries, hplain⟩ := parseEnv_local hlocal h
  obtain ⟨hentries', hplain'⟩ := parseEnv_local hlocal h'
  rw [hother _ (by decide)] at hplain'
  have hplain : parsed.2 = parsed'.2 := Except.ok.inj (hplain.symm.trans hplain')
  have hentries : secrets.mapM (parseEnvSecret yaml path env project .local backend.location) = .ok parsed.1 := by
    rcases hold with hfound | ⟨hnone, rfl⟩
    · rwa [hfound, parseEnvSecrets_blockNode] at hentries
    · rwa [hnone] at hentries
  rw [hnew, parseEnvSecrets_blockNode, List.mapM_append] at hentries'
  obtain ⟨entries, hsame, hentries'⟩ := Prog.except_bind_eq_ok.mp hentries'
  obtain ⟨added, hadded, hentries'⟩ := Prog.except_bind_eq_ok.mp hentries'
  obtain rfl := Except.ok.inj (hsame.symm.trans hentries)
  have hname : ∀ secret e, parseEnvSecret yaml path env project .local backend.location secret = .ok e →
      keyText yaml secret = some e.name := by
    intro secret e he
    rw [keyText, (parseEnvSecret_onLocal he).1]
    rfl
  have hfresh : added = fresh.map fun pair => newEntry env project (readBack pair.1, pair.2) := by
    have hentry : ∀ pair e, parseEnvSecret yaml path env project .local backend.location (entryPair pair) =
        .ok e →
        newEntry env project (readBack pair.1, pair.2) = id e := fun _ _ he => (parseEnvSecret_entryPair he).symm
    rw [List.mapM_map] at hadded
    rw [Prog.except_mapM_map hentry hadded, List.map_id]
  refine ⟨Prog.except_mapM_map hname hsame, ?_⟩
  rw [← hfresh]
  exact Prod.ext (Except.ok.inj hentries').symm hplain.symm

end

end Secretov
